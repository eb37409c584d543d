/-
  TsProject.Proofs.Config.Extends — following `extends` entries.

  Resolving a config follows each of its entries to a config, unless it leads nowhere or
  closes a circle. The files on the way are readable and distinct, so a way cannot be
  longer than there are readable files, and the bound on its length is never met.

  - `follow`: where an entry leads, without what is found there.
  - `layerOver_eq`: a config is resolved to its own layer over those of its entries.
  - `run_layerOver_iff`: what a successful resolution of one config consists of.
  - `room_lt`: each step on the way takes one of the readable files that are not on it.
  - `extends_induction`: what holds of a config whenever it holds of those its entries
    lead to holds of every config.
  - `iterate_layerOver`: resolution nests no deeper than there are readable files.
  - `resolveLayer_fixed`: resolution as the recursion it is meant to be, without a bound.
-/

import TsProject.Config.Resolution
import TsProject.Host.Memory
import TsProject.Proofs.Config.Collect
import Mathlib.Logic.Function.Iterate

namespace TsProject.Config

/-! ## Entries -/

/-- The valid `extends` entries of a config. -/
def validEntries (config : Fields) : List Text := (setting config "extends" checkExtends).1.getD []

theorem topLevel_ok {config : Fields} {top : TopLevel} {ps : List Problem} (h : topLevel config = .ok (top, ps)) :
    top = { entries := validEntries config, files := (setting config "files" checkTextList).1,
            includes := (setting config "include" checkTextList).1,
            excludes := (setting config "exclude" checkTextList).1,
            options := (setting config "compilerOptions" checkObject).1.getD [] } ∧
      ps = (setting config "extends" checkExtends).2 ++ (setting config "files" checkTextList).2 ++
        (setting config "include" checkTextList).2 ++ (setting config "exclude" checkTextList).2 ++
        (setting config "compilerOptions" checkObject).2 := by
  unfold topLevel at h
  split at h
  · cases h
  · obtain ⟨rfl, rfl⟩ := Prod.mk.inj (Except.ok.inj h)
    exact ⟨rfl, rfl⟩

theorem entries_of_topLevel {config : Fields} {top : TopLevel} {ps : List Problem} (h : topLevel config = .ok (top, ps)) :
    top.entries = validEntries config := by
  rw [(topLevel_ok h).1]

/-- Where an entry leads: the file and the config in it, if the file is not on the way already. -/
def follow (h : Host) (base : Text) (path : List Text) (entry : Text) : Except Problem (Text × Fields) :=
  match extendsPath h entry base with
  | .error problem => .error problem
  | .ok file =>
    if path.any (sameFile h file) then .error (.circular (path ++ [file]))
    else (load h.text? file).map fun config => (file, config)

variable {h : Host} {next : Fields → Text → List Text → Resolve Layer} {base : Text} {path : List Text}

theorem extendedLayer_eq (h : Host) (next : Fields → Text → List Text → Resolve Layer) (base : Text) (path : List Text)
    (entry : Text) : extendedLayer h next base path entry =
      match follow h base path entry with
      | .error problem => do
        report [problem]
        return none
      | .ok (file, config) => do
        let layer ← next config (Path.directory file) (path ++ [file])
        return some (layer.rebase (Path.directory file)) := by
  unfold extendedLayer follow
  cases extendsPath h entry base with
  | error problem => rfl
  | ok file =>
    by_cases hc : path.any (sameFile h file) = true
    · simp only [hc, if_true]
    · simp only [hc]
      cases load h.text? file with
      | error problem => rfl
      | ok config => rfl

theorem ownLayer_entries (config : Fields) (base : Text) :
    ownLayer config base = (fun own => (own, validEntries config)) <$> Prod.fst <$> ownLayer config base := by
  unfold ownLayer
  simp only [map_bind, map_pure]
  funext ps
  cases htop : topLevel config with
  | error e => rfl
  | ok r => rw [← entries_of_topLevel htop]; rfl

/-- A config is resolved to its own layer over those of its valid entries. -/
theorem layerOver_eq (h : Host) (next : Fields → Text → List Text → Resolve Layer) (config : Fields) (base : Text)
    (path : List Text) : layerOver h next config base path = do
      let own ← Prod.fst <$> ownLayer config base
      let inherited ← (validEntries config).mapM (extendedLayer h next base path)
      return (inherited.filterMap id).foldl Layer.overlay {} |>.overlay own := by
  unfold layerOver
  conv_lhs => rw [ownLayer_entries, bind_map_left]

theorem follow_ok {file : Text} {config : Fields} {entry : Text} (hf : follow h base path entry = .ok (file, config)) :
    extendsPath h entry base = .ok file ∧ path.any (sameFile h file) = false ∧ load h.text? file = .ok config := by
  unfold follow at hf
  split at hf
  · cases hf
  · rename_i file' hpath
    split at hf
    · cases hf
    · rename_i hc
      cases hl : load h.text? file' with
      | error problem => rw [hl] at hf; cases hf
      | ok config' =>
        rw [hl] at hf
        cases hf
        exact ⟨hpath, Bool.eq_false_iff.mpr hc, hl⟩

theorem follow_eq_ok {file : Text} {config : Fields} {entry : Text} (hpath : extendsPath h entry base = .ok file)
    (hnew : path.any (sameFile h file) = false) (hload : load h.text? file = .ok config) :
    follow h base path entry = .ok (file, config) := by
  simp only [follow, hpath, hnew, hload]
  rfl

theorem readable_of_load {file : Text} {config : Fields} (hl : load h.text? file = .ok config) :
    (h.text? file).isSome = true := by
  unfold load at hl
  split at hl
  · cases hl
  · rename_i text ht
    rw [ht]; rfl

/-! ## Collecting -/

theorem collects_ownLayer (config : Fields) (base : Text) : Collects (ownLayer config base) :=
  (Collects.lift _).bind fun _ => (Collects.report _).bind fun _ => (Collects.lift _).bind fun _ =>
    (Collects.report _).bind fun _ => Collects.pure _

theorem collects_extendedLayer (hn : ∀ config base path, Collects (next config base path)) (base : Text)
    (path : List Text) (entry : Text) : Collects (extendedLayer h next base path entry) := by
  rw [extendedLayer_eq]
  split
  · exact (Collects.report _).bind fun _ => Collects.pure _
  · exact (hn _ _ _).bind fun _ => Collects.pure _

theorem collects_layerOver (hn : ∀ config base path, Collects (next config base path)) (config : Fields) (base : Text)
    (path : List Text) : Collects (layerOver h next config base path) :=
  (collects_ownLayer _ _).bind fun r => (Collects.mapM (collects_extendedLayer hn base path) r.2).bind fun _ =>
    Collects.pure _

theorem collects_resolveLayer (depth : Nat) (config : Fields) (base : Text) (path : List Text) :
    Collects (resolveLayer h depth config base path) := by
  induction depth generalizing config base path with
  | zero => exact collects_layerOver (fun _ _ _ => Collects.pure _) config base path
  | succ depth ih => exact collects_layerOver ih config base path

theorem run_ownLayer (config : Fields) (base : Text) :
    (ownLayer config base).run [] = (topLevel config).bind fun r => (convertOptions r.1.options base).map fun options =>
      (({ files := r.1.files, includes := r.1.includes, excludes := r.1.excludes, options := options.values },
        r.1.entries), r.2 ++ options.problems) := by
  unfold ownLayer
  cases topLevel config with
  | error e => rfl
  | ok r =>
    change ((convertOptions r.1.options base).bind fun options => Except.ok (options, [] ++ r.2)).bind (fun r' =>
      Except.ok ((Layer.mk r.1.files r.1.includes r.1.excludes r'.1.values, r.1.entries), r'.2 ++ r'.1.problems)) =
        (convertOptions r.1.options base).map _
    cases convertOptions r.1.options base <;> rfl

theorem run_ownLayer_iff {config : Fields} {own : Layer} {entries : List Text} {ps : List Problem} :
    (ownLayer config base).run [] = .ok ((own, entries), ps) ↔
      ∃ top problems options, topLevel config = .ok (top, problems) ∧ convertOptions top.options base = .ok options ∧
        own = { files := top.files, includes := top.includes, excludes := top.excludes, options := options.values } ∧
        entries = top.entries ∧ ps = problems ++ options.problems := by
  rw [run_ownLayer]
  constructor
  · intro hrun
    cases htop : topLevel config with
    | error e => rw [htop] at hrun; cases hrun
    | ok r =>
      rw [htop] at hrun
      cases hoptions : convertOptions r.1.options base with
      | error e => simp [Except.bind, Except.map, hoptions] at hrun
      | ok options =>
        simp only [Except.bind, Except.map, hoptions] at hrun
        cases hrun
        exact ⟨r.1, r.2, options, rfl, hoptions, rfl, rfl, rfl⟩
  · rintro ⟨top, problems, options, htop, hoptions, rfl, rfl, rfl⟩
    simp [htop, hoptions, Except.bind, Except.map]

/-- What an entry gives: a problem, or the layer of the config it leads to. -/
theorem run_extendedLayer_iff {entry : Text} {l : Option Layer} {ps : List Problem} :
    (extendedLayer h next base path entry).run [] = .ok (l, ps) ↔
      (∃ problem, follow h base path entry = .error problem ∧ l = none ∧ ps = [problem]) ∨
      ∃ file config layer, follow h base path entry = .ok (file, config) ∧
        (next config (Path.directory file) (path ++ [file])).run [] = .ok (layer, ps) ∧
        l = some (layer.rebase (Path.directory file)) := by
  rw [extendedLayer_eq]
  cases hf : follow h base path entry with
  | error problem =>
    constructor
    · intro hrun
      cases hrun
      exact Or.inl ⟨problem, rfl, rfl, rfl⟩
    · rintro (⟨_, he, rfl, rfl⟩ | ⟨_, _, _, he, -⟩)
      · cases he
        rfl
      · cases he
  | ok r =>
    obtain ⟨file, config⟩ := r
    change (next config (Path.directory file) (path ++ [file]) >>= fun layer =>
      pure (some (layer.rebase (Path.directory file)))).run [] = _ ↔ _
    rw [run_bind_iff fun _ => Collects.pure _]
    constructor
    · rintro ⟨layer, qs, _, hrun, hpure, rfl⟩
      cases hpure
      exact Or.inr ⟨file, config, layer, rfl, by simpa using hrun, rfl⟩
    · rintro (⟨_, he, -⟩ | ⟨_, _, layer, he, hrun, rfl⟩)
      · cases he
      · cases he
        exact ⟨layer, ps, [], hrun, rfl, by simp⟩

theorem run_layerOver_iff (hn : ∀ config base path, Collects (next config base path)) {config : Fields} {layer : Layer}
    {ps : List Problem} : (layerOver h next config base path).run [] = .ok (layer, ps) ↔
      ∃ own problems rs, (ownLayer config base).run [] = .ok ((own, validEntries config), problems) ∧
        List.Forall₂ (fun entry r => (extendedLayer h next base path entry).run [] = .ok r) (validEntries config) rs ∧
        layer = ((rs.filterMap (·.1)).foldl Layer.overlay {}).overlay own ∧ ps = problems ++ rs.flatMap (·.2) := by
  have hentries : ∀ {own entries problems}, (ownLayer config base).run [] = .ok ((own, entries), problems) →
      entries = validEntries config := by
    intro own entries problems hrun
    obtain ⟨top, _, _, htop, -, -, rfl, -⟩ := run_ownLayer_iff.mp hrun
    exact entries_of_topLevel htop
  have hmap : ∀ rs : List (Option Layer × List Problem), (rs.map (·.1)).filterMap id = rs.filterMap (·.1) := by
    intro rs
    simp [List.filterMap_map]
  have hafter : ∀ r : Layer × List Text, Collects (r.2.mapM (extendedLayer h next base path) >>= fun inherited =>
      pure (((inherited.filterMap id).foldl Layer.overlay {}).overlay r.1)) := fun r =>
    (Collects.mapM (collects_extendedLayer hn base path) r.2).bind fun _ => Collects.pure _
  unfold layerOver
  constructor
  · intro hrun
    obtain ⟨⟨own, entries⟩, problems, _, hown, hrest, rfl⟩ := (run_bind_iff hafter).mp hrun
    obtain rfl := hentries hown
    obtain ⟨_, _, _, hmapM, hpure, rfl⟩ := (run_bind_iff fun _ => Collects.pure _).mp hrest
    obtain ⟨rs, hrs, rfl, rfl⟩ := (run_mapM_iff (collects_extendedLayer hn base path)).mp hmapM
    cases hpure
    exact ⟨own, problems, rs, hown, hrs, by rw [hmap], by simp⟩
  · rintro ⟨own, problems, rs, hown, hrs, rfl, rfl⟩
    refine (run_bind_iff hafter).mpr ⟨_, problems, rs.flatMap (·.2), hown, ?_, rfl⟩
    refine (run_bind_iff fun _ => Collects.pure _).mpr ⟨rs.map (·.1), rs.flatMap (·.2), [], ?_, ?_, by simp⟩
    · exact (run_mapM_iff (collects_extendedLayer hn base path)).mpr ⟨rs, hrs, rfl, rfl⟩
    · rw [hmap]
      rfl

/-! ## Room on the way -/

theorem sameFile_iff {a b : Text} :
    sameFile h a b = true ↔ Glob.canonical h.caseSensitive a = Glob.canonical h.caseSensitive b := by
  simp [sameFile]

/-- The list holds every file that can be read, under some name, and the host counts no fewer. -/
structure Lists (h : Host) (readable : List Text) : Prop where
  covers : ∀ p, (h.text? p).isSome = true → ∃ q ∈ readable, sameFile h p q = true
  counted : readable.length ≤ h.readableFiles

/-- How many of the readable files are not on the way. -/
def room (h : Host) (readable path : List Text) : Nat := (readable.filter fun q => !path.any (sameFile h q)).length

theorem room_le (h : Host) (readable path : List Text) : room h readable path ≤ readable.length := List.length_filter_le _ _

theorem room_lt {readable : List Text} (hr : Lists h readable) {entry file : Text} {config : Fields}
    (hf : follow h base path entry = .ok (file, config)) : room h readable (path ++ [file]) < room h readable path := by
  obtain ⟨-, hnew, hload⟩ := follow_ok hf
  obtain ⟨q, hq, hsame⟩ := hr.covers file (readable_of_load hload)
  have hsame' : sameFile h q file = true := sameFile_iff.mpr (sameFile_iff.mp hsame).symm
  have hnew' : path.any (sameFile h q) = false := by
    rw [List.any_eq_false] at hnew ⊢
    intro p hp hqp
    exact hnew p hp (sameFile_iff.mpr ((sameFile_iff.mp hsame).trans (sameFile_iff.mp hqp)))
  have hsplit : readable.filter (fun q => !(path ++ [file]).any (sameFile h q)) =
      (readable.filter fun q => !path.any (sameFile h q)).filter fun q => !sameFile h q file := by
    rw [List.filter_filter]
    refine List.filter_congr fun x _ => ?_
    simp [Bool.and_comm]
  rw [room, hsplit]
  exact List.length_filter_lt_length_iff_exists.mpr ⟨q, List.mem_filter.mpr ⟨hq, by simp [hnew']⟩, by simp [hsame']⟩

/-- What passes from the configs that the entries of a config lead to on to the config holds of every
config: a way cannot go on forever. -/
theorem extends_induction {readable : List Text} (hr : Lists h readable) {P : Fields → Text → List Text → Prop}
    (step : ∀ config base path, (∀ entry ∈ validEntries config, ∀ file config',
      follow h base path entry = .ok (file, config') → P config' (Path.directory file) (path ++ [file])) →
      P config base path) (config : Fields) (base : Text) (path : List Text) : P config base path := by
  induction hk : room h readable path using Nat.strongRecOn generalizing config base path with
  | ind k ih =>
    refine step config base path fun entry _ file config' hf => ?_
    exact ih _ (hk ▸ room_lt hr hf) config' _ _ rfl

/-! ## The bound is never met -/

theorem extendedLayer_congr {next' : Fields → Text → List Text → Resolve Layer} {entry : Text}
    (hn : ∀ file config, follow h base path entry = .ok (file, config) →
      next config (Path.directory file) (path ++ [file]) = next' config (Path.directory file) (path ++ [file])) :
    extendedLayer h next base path entry = extendedLayer h next' base path entry := by
  rw [extendedLayer_eq, extendedLayer_eq]
  split
  · rfl
  · rename_i file config hf
    rw [hn file config hf]

/-- A config is resolved by means of those its entries lead to, and no others. -/
theorem layerOver_congr {next' : Fields → Text → List Text → Resolve Layer} {config : Fields}
    (hn : ∀ entry ∈ validEntries config, ∀ file config', follow h base path entry = .ok (file, config') →
      next config' (Path.directory file) (path ++ [file]) = next' config' (Path.directory file) (path ++ [file])) :
    layerOver h next config base path = layerOver h next' config base path := by
  rw [layerOver_eq, layerOver_eq, mapM_congr fun entry he => extendedLayer_congr (hn entry he)]

/-- Resolution nests no deeper than there are readable files besides the config it starts from: whatever
would be called at a greater depth never is. -/
theorem iterate_layerOver {readable : List Text} (hr : Lists h readable)
    (bottom : Fields → Text → List Text → Resolve Layer) {depth : Nat} (config : Fields) (base : Text) {path : List Text}
    (hroom : room h readable path ≤ depth) :
    ((layerOver h)^[depth + 1] bottom) config base path = resolveLayer h depth config base path := by
  induction depth generalizing config base path with
  | zero =>
    refine layerOver_congr fun entry _ file config' hf => ?_
    have := room_lt hr hf
    omega
  | succ depth ih =>
    rw [Function.iterate_succ_apply']
    refine layerOver_congr fun entry _ file config' hf => ?_
    have := room_lt hr hf
    exact ih config' _ (by omega)

theorem resolveLayer_succ {readable : List Text} (hr : Lists h readable) {depth : Nat} (config : Fields) (base : Text)
    {path : List Text} (hroom : room h readable path ≤ depth) :
    resolveLayer h (depth + 1) config base path = resolveLayer h depth config base path := by
  have hiterate : ∀ n, (layerOver h)^[n] (resolveLayer h 0) = resolveLayer h n := by
    intro n
    induction n with
    | zero => rfl
    | succ n ih =>
      rw [Function.iterate_succ_apply', ih]
      rfl
  rw [← hiterate, iterate_layerOver hr _ config base hroom]

theorem resolveLayer_of_le {readable : List Text} (hr : Lists h readable) {depth depth' : Nat} (config : Fields)
    (base : Text) {path : List Text} (hroom : room h readable path ≤ depth) (hle : depth ≤ depth') :
    resolveLayer h depth' config base path = resolveLayer h depth config base path := by
  induction depth' with
  | zero =>
    obtain rfl : depth = 0 := by omega
    rfl
  | succ n ih =>
    by_cases he : depth = n + 1
    · rw [he]
    · rw [resolveLayer_succ hr config base (by omega), ih (by omega)]

/-- The bound a host puts on the length of a way is never met. -/
theorem resolveLayer_fixed {readable : List Text} (hr : Lists h readable) (config : Fields) (base : Text)
    (path : List Text) : resolveLayer h h.readableFiles config base path =
      layerOver h (resolveLayer h h.readableFiles) config base path :=
  (resolveLayer_succ hr config base (Nat.le_trans (room_le h readable path) hr.counted)).symm

/-! ## Whole requests -/

/-- The files on the way to the config of a request: the config itself, where its name is known. -/
def Request.way (r : Request) : List Text := (r.name?.map Path.normalize).toList

theorem resolve_ok_iff {r : Request} {res : Resolution} :
    resolve h r = .ok res ↔ ∃ layer problems options,
      (resolveLayer h h.readableFiles r.config (Path.normalize r.base) r.way).run [] = .ok (layer, problems) ∧
        effectiveOptions (Path.normalize r.base) r.existing layer = .ok options ∧
        res = conclude h r layer options problems := by
  unfold resolve
  change (StateT.run (resolveLayer h h.readableFiles r.config (Path.normalize r.base) r.way) []).bind _ = _ ↔ _
  cases (resolveLayer h h.readableFiles r.config (Path.normalize r.base) r.way).run [] with
  | error e => simp [Except.bind]
  | ok l =>
    obtain ⟨layer, problems⟩ := l
    change (effectiveOptions (Path.normalize r.base) r.existing layer).bind _ = _ ↔ _
    cases ho : effectiveOptions (Path.normalize r.base) r.existing layer with
    | error e => simp [Except.bind, ho]
    | ok options => simp [Except.bind, ho, Pure.pure, Except.pure, eq_comm]

/-- A file system in memory lists the files it holds. -/
theorem lists_memory (m : Host.Memory) : Lists m.host (m.files.map (·.1)) where
  covers p hp := by
    change ((m.lookup p).join).isSome = true at hp
    unfold Host.Memory.lookup at hp
    cases hf : m.files.reverse.find? fun f => m.key f.1 == m.key p with
    | none => simp [hf] at hp
    | some f =>
      have hmem := List.mem_reverse.mp (List.mem_of_find?_eq_some hf)
      have hkey : m.key f.1 = m.key p := by simpa using List.find?_some hf
      exact ⟨f.1, List.mem_map_of_mem hmem, sameFile_iff.mpr hkey.symm⟩
  counted := Nat.le_of_eq (List.length_map _)

end TsProject.Config
