/-
  TsProject.Proofs.Config.Canonical — root files are listed by one spelling.

  Root files are rooted paths in normal form. Those listed one by one are resolved, which
  gives such paths as long as no `..` takes a drive away; those found by specs are entries
  of a directory, whose listed paths decide. In normal form a file has one spelling, so
  that no two root files have one key.

  - `KeepsDrive`: a listed file that is still rooted when it is resolved.
  - `chooseFiles_keys`: root files have keys of their own, whatever is found.
  - `resolve_canonical`: the root files of a config.
-/

import TsProject.Proofs.Config.Beside
import TsProject.Proofs.Config.Carried
import TsProject.Proofs.Glob.Itinerary
import TsProject.Proofs.Memory

namespace TsProject.Config

open CodePoint TsProject.Path

/-! ## Files listed -/

/-- Normalization leaves a path with a drive rooted. -/
def KeepsDrive (f : Text) : Prop := IsDriveRooted f → isRooted (Path.normalize f) = true

/-- What resolving a file gives is in normal form, and rooted unless a drive is lost. -/
theorem resolve_normal {d f : Text} (hd : startsAtRoot d = true) (hf : KeepsDrive f) :
    isRooted (Path.resolve f d) = true ∧ Path.normalize (Path.resolve f d) = Path.resolve f d := by
  by_cases hdrive : IsDriveRooted f
  · rw [resolve_of_isRooted hdrive.1]
    exact ⟨hf hdrive, normalize_normalize f⟩
  · obtain ⟨ns, hns, hplain⟩ := exists_resolve_eq_absolute hd hdrive
    rw [hns]
    exact ⟨isRooted_of_startsAtRoot (startsAtRoot_absolute ns), normalize_absolute hplain⟩

/-- A path that is normalized keeps its drive. -/
theorem keepsDrive_normalize (p : Text) : KeepsDrive (Path.normalize p) := by
  intro hdrive
  rw [normalize_normalize]
  exact hdrive.1

theorem KeepsDrive.anchor {f : Text} (hf : KeepsDrive f) (d : Text) : KeepsDrive (Layer.anchor d f) := by
  unfold Layer.anchor
  split
  · exact hf
  · exact keepsDrive_normalize _

theorem KeepsDrive.substituteText {f : Text} (hf : KeepsDrive f) (d : Text) : KeepsDrive (substituteText d f) := by
  unfold Config.substituteText
  split
  · exact keepsDrive_normalize _
  · exact hf

theorem mem_of_mem_lastSpelled {key : Text → Text} {ps : List Text} {e : Text × Text} (h : e ∈ lastSpelled key ps) :
    e.2 ∈ ps := by
  obtain ⟨p, hp, rfl⟩ := List.mem_map.mp h
  change (lastUnder key ps (key p)).getD p ∈ ps
  cases hlast : lastUnder key ps (key p) with
  | none => exact firsts_subset ps p hp
  | some q => exact List.mem_reverse.mp (List.mem_of_find?_eq_some hlast)

/-! ## Files taken -/

/-- Files taken from those found, under keys of their own. -/
structure Keyed (key : Text → Text) (listed : Taken) (found : List Text) (taken : Taken) : Prop where
  nodup : (taken.map (·.1)).Nodup
  key : ∀ e ∈ taken, e.1 = key e.2
  fresh : ∀ e ∈ taken, listed.has e.1 = false
  found : ∀ e ∈ taken, e.2 ∈ found

variable {key : Text → Text} {groups : List ExtensionGroup} {listed taken : Taken} {found : List Text}

theorem Keyed.without (h : Keyed key listed found taken) (keys : List Text) : Keyed key listed found (taken.without keys) where
  nodup := h.nodup.sublist (List.filter_sublist.map _)
  key e he := h.key e (List.mem_of_mem_filter he)
  fresh e he := h.fresh e (List.mem_of_mem_filter he)
  found e he := h.found e (List.mem_of_mem_filter he)

theorem Keyed.concat (h : Keyed key listed found taken) {p : Text} (hp : p ∈ found) (hlisted : listed.has (key p) = false)
    (htaken : taken.has (key p) = false) : Keyed key listed found (taken ++ [(key p, p)]) where
  nodup := by
    rw [List.map_append, List.nodup_append]
    refine ⟨h.nodup, List.nodup_singleton _, ?_⟩
    rintro k hk _ hk' rfl
    obtain rfl := List.mem_singleton.mp hk'
    rw [Taken.has_iff.mpr hk] at htaken
    cases htaken
  key e he := by
    rcases List.mem_append.mp he with he | he
    · exact h.key e he
    · rw [List.mem_singleton.mp he]
  fresh e he := by
    rcases List.mem_append.mp he with he | he
    · exact h.fresh e he
    · rw [List.mem_singleton.mp he]
      exact hlisted
  found e he := by
    rcases List.mem_append.mp he with he | he
    · exact h.found e he
    · rw [List.mem_singleton.mp he]
      exact hp

theorem Keyed.takeFound (h : Keyed key listed found taken) {p : Text} (hp : p ∈ found) :
    Keyed key listed found (takeFound key groups listed taken p) := by
  unfold Config.takeFound
  cases extensionOf? groups p with
  | none => exact h
  | some r =>
    obtain ⟨group, extension⟩ := r
    simp only
    split
    · exact h
    · have hrest := h.without (((group.dropWhile (· != extension)).drop 1).map fun e =>
        key (p.take (p.length - extension.length) ++ e))
      split
      · exact hrest
      · rename_i hnew
        rw [Bool.not_eq_true, Bool.or_eq_false_iff] at hnew
        exact hrest.concat hp hnew.1 hnew.2

theorem keyed_foldl (groups : List ExtensionGroup) (listed : Taken) (found : List Text) :
    Keyed key listed found (found.foldl (takeFound key groups listed) []) := by
  have hfold : ∀ (l : List Text) (taken : Taken), (∀ p ∈ l, p ∈ found) → Keyed key listed found taken →
      Keyed key listed found (l.foldl (takeFound key groups listed) taken) := by
    intro l
    induction l with
    | nil => exact fun _ _ h => h
    | cons p l ih =>
      intro taken hl h
      exact ih _ (fun q hq => hl q (List.mem_cons_of_mem _ hq)) (h.takeFound (hl p List.mem_cons_self))
  exact hfold found [] (fun _ hp => hp) ⟨List.nodup_nil, by simp, by simp, by simp⟩

/-- A root file is listed or found. -/
theorem mem_chooseFiles {base : Text} {files : List Text} {F : Text}
    (h : F ∈ chooseFiles key groups (listedFiles key base files) found) :
    (∃ f ∈ files, F = Path.resolve f base) ∨ F ∈ found := by
  obtain ⟨e, he, rfl⟩ := List.mem_map.mp h
  rcases List.mem_append.mp he with he | he
  · rw [listedFiles_eq] at he
    obtain ⟨f, hf, hresolve⟩ := List.mem_map.mp (mem_of_mem_lastSpelled he)
    exact Or.inl ⟨f, hf, hresolve.symm⟩
  · exact Or.inr ((keyed_foldl groups _ found).found e he)

/-- No two root files have one key, whatever is found. -/
theorem chooseFiles_keys (key : Text → Text) (groups : List ExtensionGroup) (base : Text) (files found : List Text) :
    ((chooseFiles key groups (listedFiles key base files) found).map key).Nodup := by
  have htaken : Keyed key (listedFiles key base files) found
      (found.foldl (takeFound key groups (listedFiles key base files)) []) := keyed_foldl groups _ found
  have hkeys : ((found.foldl (takeFound key groups (listedFiles key base files)) []).map (·.2)).map key =
      (found.foldl (takeFound key groups (listedFiles key base files)) []).map (·.1) := by
    rw [List.map_map]
    exact List.map_congr_left fun e he => (htaken.key e he).symm
  have hlisted : ((listedFiles key base files).map (·.2)).map key = (listedFiles key base files).map (·.1) := by
    rw [listedFiles_eq, key_lastSpelled, keys_lastSpelled]
  rw [chooseFiles, List.map_append, List.map_append, hkeys, hlisted, List.nodup_append]
  refine ⟨?_, htaken.nodup, ?_⟩
  · rw [listedFiles_eq, keys_lastSpelled]
    exact nodup_firsts _
  · rintro k hk _ hk' rfl
    obtain ⟨e, he, rfl⟩ := List.mem_map.mp hk'
    have hfresh := htaken.fresh e he
    rw [Taken.has_iff.mpr hk] at hfresh
    cases hfresh

/-! ## Root files -/

/-- On a tidy file system the root files are rooted paths in normal form, and their keys differ. -/
theorem rootFiles_canonical {m : Host.Memory} (hm : m.Tidy) (o : Options) {base : Text} (hbase : startsAtRoot base = true)
    {files : List Text} (hfiles : ∀ f ∈ files, KeepsDrive f) (includes excludes : List Text) :
    (∀ F ∈ rootFiles m.host o base files includes excludes, isRooted F = true ∧ Path.normalize F = F) ∧
      ((rootFiles m.host o base files includes excludes).map (Glob.canonical m.caseSensitive)).Nodup := by
  refine ⟨?_, chooseFiles_keys _ _ base files _⟩
  intro F hF
  rcases mem_chooseFiles hF with ⟨f, hf, rfl⟩ | hfound
  · exact resolve_normal hbase (hfiles f hf)
  · by_cases hnone : includes.isEmpty = true
    · rw [if_pos hnone] at hfound
      cases hfound
    · rw [if_neg hnone] at hfound
      obtain ⟨v, -, n, hn, rfl, -⟩ := Glob.exists_met_of_mem_matchFiles hfound
      exact (Host.Memory.isNormal_entry hm hn).normalize_eq

/-- The root files of a config, with all it extends, are rooted paths in normal form, so that none is listed
under two spellings: on a tidy file system, as long as every listed file keeps its drive. -/
theorem resolve_canonical {m : Host.Memory} (hm : m.Tidy) {r : Request} (hbase : startsAtRoot r.base = true) {a : Ancestry}
    (ha : Inherits m.host (Path.normalize r.base) r.way (validEntries r.config) a)
    (hfiles : ∀ files ∈ writtenSpecs r.config a "files", ∀ f ∈ files, KeepsDrive f) {res : Resolution}
    (hres : resolve m.host r = .ok res) : (∀ F ∈ res.fileNames, isRooted F = true ∧ Path.normalize F = F) ∧
      (res.fileNames.map fun F => Glob.canonical m.caseSensitive (Path.normalize F)).Nodup := by
  obtain ⟨layer, problems, options, hrun, -, rfl⟩ := resolve_ok_iff.mp hres
  have hcarries := resolveLayer_carries (lists_memory m) ha hrun
  have hlayer : ∀ files ∈ layer.files, ∀ f ∈ files, KeepsDrive f :=
    hcarries.files.forall_mem (fun d _ h => h.anchor d) hfiles
  have hlisted : ∀ f ∈ ((layer.mapSpecs (substituteText (Path.normalize r.base))).files.getD []), KeepsDrive f := by
    intro f hf
    cases hnone : layer.files with
    | none => simp [Layer.mapSpecs, hnone] at hf
    | some files =>
      have hmem : f ∈ files.map (substituteText (Path.normalize r.base)) := by simpa [Layer.mapSpecs, hnone] using hf
      obtain ⟨g, hg, rfl⟩ := List.mem_map.mp hmem
      exact (hlayer files hnone g hg).substituteText _
  obtain ⟨hnormal, hnodup⟩ := rootFiles_canonical hm options (startsAtRoot_normalize hbase) hlisted _ _
  refine ⟨hnormal, ?_⟩
  have hsame : ((conclude m.host r layer options problems).fileNames.map fun F =>
      Glob.canonical m.caseSensitive (Path.normalize F)) =
      (conclude m.host r layer options problems).fileNames.map (Glob.canonical m.caseSensitive) :=
    List.map_congr_left fun F hF => by rw [(hnormal F hF).2]
  rw [hsame]
  exact hnodup

/-- A file that is listed, under two spellings, and found under a third. -/
def spellings : Request where
  config := [(Text.of "files", .texts [Text.of "C:/lib/../b.ts", Text.of "./src/a.ts", Text.of "lib/../src/a.ts"]),
    (Text.of "include", .texts [Text.of "./src//*"])]
  base := Text.of "/proj"

theorem resolve_canonical_spellings :
    let m : Host.Memory := { files := [(Text.of "/proj/src/a.ts", some [])] }
    m.Tidy ∧ ∃ res, resolve m.host spellings = .ok res ∧
      res.fileNames = [Text.of "C:/b.ts", Text.of "/proj/src/a.ts"] ∧
      (∀ F ∈ res.fileNames, isRooted F = true ∧ Path.normalize F = F) ∧
      (res.fileNames.map fun F => Glob.canonical m.caseSensitive (Path.normalize F)).Nodup := by
  intro m
  have hm : m.Tidy := ⟨by decide, by decide, by decide⟩
  have hres : resolve m.host spellings = .ok _ := resolve_of_specs rfl rfl rfl rfl
  have hfiles : ∀ files ∈ writtenSpecs spellings.config .none "files", ∀ f ∈ files, KeepsDrive f := by
    intro files hwritten
    obtain rfl : [Text.of "C:/lib/../b.ts", Text.of "./src/a.ts", Text.of "lib/../src/a.ts"] = files :=
      Option.some.inj hwritten
    unfold KeepsDrive
    decide
  exact ⟨hm, _, hres, by decide +kernel, resolve_canonical hm (by decide) .nil hfiles hres⟩

/-- A listed file that climbs out of its drive. -/
def climbingDrive : Request where
  config := [(Text.of "files", .texts [Text.of "C:/../a.ts"])]
  base := Text.of "/proj"

/-- Normalization takes the drive for a directory, and the root file is not rooted. -/
theorem resolve_climbingDrive : ∃ res, resolve (Host.Memory.host {}) climbingDrive = .ok res ∧
    ∃ F ∈ res.fileNames, isRooted F = false := by
  refine ⟨_, resolve_of_specs rfl rfl rfl rfl, Text.of "a.ts", ?_, by decide⟩
  decide +kernel

end TsProject.Config
