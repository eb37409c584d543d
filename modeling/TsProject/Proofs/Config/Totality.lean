/-
  TsProject.Proofs.Config.Totality — when resolving a config gives a result.

  What is wrong with a config is listed in the result. Only two things leave a request
  without one: a key that is no valid text, and a list of paths that is set to null. Either
  may stand in the config itself or in any config that is reached from it.

  - `ownLayer_runs_iff`: a single config gives a layer when it is sound.
  - `resolveLayer_runs_iff`: with all it extends, when every config on the way is.
  - `options_of_run`: what holds of the options of a layer that is there.
  - `StaysValid.resolveLayer`: nothing else stops resolution on the way.
  - `resolve_total`: so much for whole requests, whose options are always valid in the end.
-/

import TsProject.Proofs.Config.Inheritance

namespace TsProject.Config

open TsProject.Path

/-! ## Configs on the way -/

/-- The settings of a config and of those that are resolved on its behalf. -/
inductive Reaches (h : Host) : Fields → Text → List Text → Fields → Prop
  | self {config : Fields} {base : Text} {path : List Text} : Reaches h config base path config
  | further {config : Fields} {base : Text} {path : List Text} {entry file : Text} {config' settings : Fields} :
      entry ∈ validEntries config → follow h base path entry = .ok (file, config') →
      Reaches h config' (directory file) (path ++ [file]) settings → Reaches h config base path settings

variable {h : Host} {base : Text} {path : List Text}

/-- Everything that is reached passes when the config does and everything behind its entries. -/
theorem reaches_forall {config : Fields} {p : Fields → Prop} : (∀ s, Reaches h config base path s → p s) ↔
    p config ∧ ∀ entry ∈ validEntries config, ∀ file config', follow h base path entry = .ok (file, config') →
      ∀ s, Reaches h config' (directory file) (path ++ [file]) s → p s := by
  constructor
  · intro hall
    exact ⟨hall _ .self, fun entry he file config' hf s hs => hall s (.further he hf hs)⟩
  · rintro ⟨hself, hfurther⟩ s hs
    cases hs with
    | self => exact hself
    | further he hf hs => exact hfurther _ he _ _ hf s hs

/-! ## One config -/

theorem type_of_mem_pathLists : ∀ key ∈ pathLists, ∃ o ∈ optionSpecs, o.key = key ∧ o.type = .paths := by
  intro key hkey
  rcases List.mem_pair.mp hkey with rfl | rfl
  · exact ⟨⟨"rootDirs", .paths⟩, by simp [optionSpecs, moduleOptions], rfl, rfl⟩
  · exact ⟨⟨"typeRoots", .paths⟩, by simp [optionSpecs, moduleOptions], rfl, rfl⟩

theorem of_mapM_ok {α β ε : Type} {f : α → Except ε β} {l : List α} {bs : List β} (h : l.mapM f = .ok bs) :
    ∀ a ∈ l, ∃ b, f a = .ok b := by
  induction l generalizing bs with
  | nil => simp
  | cons a l ih =>
    rw [List.mapM_cons] at h
    cases ha : f a with
    | error e => rw [ha] at h; cases h
    | ok b =>
      cases hl : l.mapM f with
      | error e => rw [ha, hl] at h; cases h
      | ok bs' => exact List.forall_mem_cons.mpr ⟨⟨b, ha⟩, ih hl⟩

/-- A list of paths that is null passes every check and is stopped by nothing but its own resolution. -/
theorem lists_of_convertOptions {raw : Fields} {c : Checked} (hc : convertOptions raw base = .ok c) :
    ∀ key ∈ pathLists, raw.get? key ≠ some .null := by
  intro key hkey hnull
  obtain ⟨o, ho, rfl, htype⟩ := type_of_mem_pathLists key hkey
  have hdeclared : declared? raw o = some .null := by
    rw [declared?, hnull, htype]
    rfl
  have hmem : (o.key, Value.null) ∈ (checkedOptions raw).values := by
    refine Fields.mem_of_get? ?_
    rw [get?_checkedOptions, knownSpec?_key ho]
    exact hdeclared
  unfold convertOptions at hc
  cases hchecked : checkOptions raw with
  | error e => rw [hchecked] at hc; cases hc
  | ok checked =>
    obtain rfl := checkOptions_ok hchecked
    rw [hchecked] at hc
    change ((checkedOptions raw).values.mapM (resolveField base)).bind _ = _ at hc
    cases hvalues : (checkedOptions raw).values.mapM (resolveField base) with
    | error e => rw [hvalues] at hc; cases hc
    | ok values =>
      obtain ⟨w, hw⟩ := of_mapM_ok hvalues _ hmem
      have hstops : resolveField base (o.key, .null) = .error .nullPathList := by
        simp only [resolveField, optionSpec?_key ho, htype]
        rfl
      rw [hstops] at hw
      cases hw

theorem validKeys_of_convertOptions {raw : Fields} {c : Checked} (hc : convertOptions raw base = .ok c) :
    ∀ f ∈ raw, Text.hasSurrogate f.1 = false := by
  refine validKeys_iff.mpr fun hany => ?_
  rw [convertOptions, checkOptions_eq, if_pos hany] at hc
  cases hc

theorem validKeys_of_topLevel {config : Fields} {r : TopLevel × List Problem} (htop : topLevel config = .ok r) :
    ∀ f ∈ config, Text.hasSurrogate f.1 = false := by
  refine validKeys_iff.mpr fun hany => ?_
  rw [topLevel, if_pos hany] at htop
  cases htop

theorem ownLayer_runs_iff {config : Fields} : (∃ r, (ownLayer config base).run [] = .ok r) ↔ Sound config := by
  constructor
  · rintro ⟨⟨⟨own, entries⟩, ps⟩, hrun⟩
    obtain ⟨top, problems, options, htop, hoptions, -, -, -⟩ := run_ownLayer_iff.mp hrun
    have hown : top.options = ownOptions config := by
      rw [(topLevel_ok htop).1]
      rfl
    rw [hown] at hoptions
    exact ⟨validKeys_of_topLevel htop, validKeys_of_convertOptions hoptions, lists_of_convertOptions hoptions⟩
  · intro hsound
    obtain ⟨own, problems, hrun, -⟩ := ownLayer_shows hsound base
    exact ⟨_, hrun⟩

/-! ## A config and those it extends -/

theorem extendedLayer_runs_iff {next : Fields → Text → List Text → Resolve Layer} {entry : Text} :
    (∃ r, (extendedLayer h next base path entry).run [] = .ok r) ↔
      ∀ file config, follow h base path entry = .ok (file, config) →
        ∃ r, (next config (directory file) (path ++ [file])).run [] = .ok r := by
  constructor
  · rintro ⟨⟨l, ps⟩, hrun⟩ file config hf
    rcases run_extendedLayer_iff.mp hrun with ⟨problem, hf', -, -⟩ | ⟨file', config', layer, hf', hnext, -⟩
    · rw [hf] at hf'
      cases hf'
    · rw [hf] at hf'
      cases hf'
      exact ⟨_, hnext⟩
  · intro hnext
    cases hf : follow h base path entry with
    | error problem => exact ⟨_, run_extendedLayer_iff.mpr (Or.inl ⟨problem, hf, rfl, rfl⟩)⟩
    | ok r =>
      obtain ⟨file, config⟩ := r
      obtain ⟨⟨layer, ps⟩, hrun⟩ := hnext file config hf
      exact ⟨_, run_extendedLayer_iff.mpr (Or.inr ⟨file, config, layer, hf, hrun, rfl⟩)⟩

theorem layerOver_runs_iff {next : Fields → Text → List Text → Resolve Layer}
    (hn : ∀ config base path, Collects (next config base path)) {config : Fields} :
    (∃ r, (layerOver h next config base path).run [] = .ok r) ↔
      Sound config ∧ ∀ entry ∈ validEntries config, ∃ r, (extendedLayer h next base path entry).run [] = .ok r := by
  constructor
  · rintro ⟨⟨layer, ps⟩, hrun⟩
    obtain ⟨own, problems, rs, hown, hrs, -, -⟩ := (run_layerOver_iff hn).mp hrun
    refine ⟨ownLayer_runs_iff.mp ⟨_, hown⟩, fun entry he => ?_⟩
    obtain ⟨r, -, hr⟩ := exists_left_of_forall₂ hrs entry he
    exact ⟨r, hr⟩
  · rintro ⟨hsound, hentries⟩
    obtain ⟨own, problems, hown, -⟩ := ownLayer_shows hsound base
    obtain ⟨rs, hrs⟩ := exists_forall₂ hentries
    exact ⟨_, (run_layerOver_iff hn).mpr ⟨own, problems, rs, hown, hrs, rfl, rfl⟩⟩

/-- A config has a layer exactly when everything that is reached from it is sound. -/
theorem resolveLayer_runs_iff {readable : List Text} (hr : Lists h readable) {config : Fields} :
    (∃ r, (resolveLayer h h.readableFiles config base path).run [] = .ok r) ↔
      ∀ settings, Reaches h config base path settings → Sound settings := by
  induction config, base, path using extends_induction hr with
  | step config base path ih =>
    rw [resolveLayer_fixed hr, layerOver_runs_iff (collects_resolveLayer _), reaches_forall]
    refine and_congr_right fun _ => forall₂_congr fun entry he => ?_
    rw [extendedLayer_runs_iff]
    exact forall₂_congr fun file config' => forall_congr' fun hf => ih entry he file config' hf

/-! ## What holds of every layer -/

section Layers

variable {P : Fields → Prop}

theorem foldl_overlay_induction (hmerge : ∀ {fs gs}, P fs → P gs → P (fs.merge gs)) {ls : List Layer}
    (hls : ∀ l ∈ ls, P l.options) {l : Layer} (hl : P l.options) : P (ls.foldl Layer.overlay l).options := by
  induction ls generalizing l with
  | nil => exact hl
  | cons x ls ih =>
    obtain ⟨hx, hls⟩ := List.forall_mem_cons.mp hls
    exact ih hls (hmerge hl hx)

/-- What holds of the options of each single config, and of options that are merged, holds of those of a layer. -/
theorem options_of_run (hnil : P []) (hmerge : ∀ {fs gs}, P fs → P gs → P (fs.merge gs))
    (hown : ∀ {base : Text} {config : Fields} {own : Layer}, own.Shows (ownOption base config) (ownSpecs config) → P own.options)
    {readable : List Text} (hr : Lists h readable) {config : Fields} {layer : Layer} {ps : List Problem}
    (hrun : (resolveLayer h h.readableFiles config base path).run [] = .ok (layer, ps)) : P layer.options := by
  induction config, base, path using extends_induction hr generalizing layer ps with
  | step config base path ih =>
    rw [resolveLayer_fixed hr, run_layerOver_iff (collects_resolveLayer _)] at hrun
    obtain ⟨own, problems, rs, hownRun, hrs, rfl, -⟩ := hrun
    have hownOptions : P own.options := by
      obtain ⟨own', problems', hown', hshows⟩ := ownLayer_shows (ownLayer_runs_iff.mp ⟨_, hownRun⟩) base
      obtain ⟨⟨rfl, -⟩, -⟩ := Prod.mk.injEq .. ▸ Except.ok.inj (hown'.symm.trans hownRun)
      exact hown hshows
    have hinherited : ∀ l ∈ rs.filterMap (·.1), P l.options := by
      intro l hl
      obtain ⟨⟨l', qs⟩, hmem, rfl⟩ := List.mem_filterMap.mp hl
      obtain ⟨entry, he, hentry⟩ := exists_left_of_forall₂ hrs.flip _ hmem
      rcases run_extendedLayer_iff.mp hentry with ⟨_, -, hnone, -⟩ | ⟨file, config', layer', hf, hnext, hsome⟩
      · cases hnone
      · obtain rfl := Option.some.inj hsome
        exact (ih entry he file config' hf hnext : P layer'.options)
    exact hmerge (foldl_overlay_induction hmerge hinherited hnil) hownOptions

end Layers

/-- Whatever layer there is holds valid options. -/
theorem settled_of_run {readable : List Text} (hr : Lists h readable) {config : Fields} {layer : Layer} {ps : List Problem}
    (hrun : (resolveLayer h h.readableFiles config base path).run [] = .ok (layer, ps)) : Settled layer.options :=
  options_of_run settled_nil Settled.merge Layer.Shows.settled hr hrun

/-! ## What stops resolution -/

variable {α β : Type}

/-- The computation fails for nothing but an invalid key or a list of paths that is null. -/
def StaysValid (x : Resolve α) : Prop := ∀ ps, x.run ps ≠ .error .invalidValue

theorem StaysValid.pure (a : α) : StaysValid (pure a) := fun _ h => by cases h

theorem StaysValid.report (qs : List Problem) : StaysValid (report qs) := fun _ h => by cases h

theorem StaysValid.lift {e : Except Failure α} (he : e ≠ .error .invalidValue) : StaysValid (liftM e : Resolve α) := by
  intro ps hps
  cases e with
  | error f =>
    cases hps
    exact he rfl
  | ok a => cases hps

theorem StaysValid.bind {x : Resolve α} {f : α → Resolve β} (hx : StaysValid x) (hf : ∀ a, StaysValid (f a)) : StaysValid (x >>= f) := by
  intro ps hps
  rw [StateT.run_bind] at hps
  cases hrun : x.run ps with
  | error e =>
    rw [hrun] at hps
    cases hps
    exact hx ps hrun
  | ok r =>
    rw [hrun] at hps
    exact hf r.1 r.2 hps

theorem StaysValid.mapM {f : α → Resolve β} (hf : ∀ a, StaysValid (f a)) (l : List α) : StaysValid (l.mapM f) := by
  induction l with
  | nil => exact StaysValid.pure []
  | cons a l ih =>
    rw [List.mapM_cons]
    exact (hf a).bind fun b => ih.bind fun bs => StaysValid.pure (b :: bs)

theorem topLevel_ne_invalidValue (config : Fields) : topLevel config ≠ .error .invalidValue := by
  unfold topLevel
  split <;> simp

theorem resolveField_ne_invalidValue (base : Text) (f : Text × Value) : resolveField base f ≠ .error .invalidValue := by
  have hresolve : ∀ (type : OptionType) (v : Value), type.resolve base v ≠ .error .invalidValue := by
    intro type v
    cases type <;> cases v <;> simp [OptionType.resolve]
  unfold resolveField
  split
  · simp
  · rename_i o _
    have hfield := hresolve o.type f.2
    cases hv : o.type.resolve base f.2 with
    | error e =>
      rw [hv] at hfield
      simpa [Except.map] using hfield
    | ok v => simp [Except.map]

theorem convertOptions_ne_invalidValue (raw : Fields) (base : Text) : convertOptions raw base ≠ .error .invalidValue := by
  have hfields : ∀ l : Fields, l.mapM (resolveField base) ≠ .error .invalidValue := by
    intro l
    induction l with
    | nil => simp [Pure.pure, Except.pure]
    | cons f l ih =>
      rw [List.mapM_cons]
      have hf := resolveField_ne_invalidValue base f
      cases hrf : resolveField base f with
      | error e =>
        rw [hrf] at hf
        simpa [Bind.bind, Except.bind] using hf
      | ok g =>
        cases hrl : l.mapM (resolveField base) with
        | error e =>
          rw [hrl] at ih
          simpa [Bind.bind, Except.bind] using ih
        | ok gs => simp [Bind.bind, Except.bind, Pure.pure, Except.pure]
  unfold convertOptions
  rw [checkOptions_eq]
  split
  · simp [Bind.bind, Except.bind]
  · have hvalues := hfields (checkedOptions raw).values
    change ((checkedOptions raw).values.mapM (resolveField base)).bind _ ≠ _
    cases hv : (checkedOptions raw).values.mapM (resolveField base) with
    | error e =>
      rw [hv] at hvalues
      simpa [Except.bind] using hvalues
    | ok values => simp [Except.bind, Pure.pure, Except.pure]

theorem StaysValid.ownLayer (config : Fields) (base : Text) : StaysValid (ownLayer config base) :=
  (StaysValid.lift (topLevel_ne_invalidValue config)).bind fun _ => (StaysValid.report _).bind fun _ =>
    (StaysValid.lift (convertOptions_ne_invalidValue _ base)).bind fun _ => (StaysValid.report _).bind fun _ => StaysValid.pure _

theorem StaysValid.layerOver {next : Fields → Text → List Text → Resolve Layer}
    (hn : ∀ config base path, StaysValid (next config base path)) (config : Fields) (base : Text) (path : List Text) :
    StaysValid (layerOver h next config base path) := by
  have hentry : ∀ entry, StaysValid (extendedLayer h next base path entry) := by
    intro entry
    rw [extendedLayer_eq]
    split
    · exact (StaysValid.report _).bind fun _ => StaysValid.pure _
    · exact (hn _ _ _).bind fun _ => StaysValid.pure _
  exact (StaysValid.ownLayer config base).bind fun r => (StaysValid.mapM hentry r.2).bind fun _ => StaysValid.pure _

theorem StaysValid.resolveLayer (depth : Nat) (config : Fields) (base : Text) (path : List Text) :
    StaysValid (resolveLayer h depth config base path) := by
  induction depth generalizing config base path with
  | zero => exact StaysValid.layerOver (fun _ _ _ => StaysValid.pure _) config base path
  | succ depth ih => exact StaysValid.layerOver ih config base path

/-! ## Whole requests -/

/-- A request has a result exactly when every config that is reached is sound: keys are valid text, and no
list of paths is null. Options that were valid one by one are valid together. -/
theorem resolve_total {readable : List Text} (hr : Lists h readable) {r : Request}
    (hexisting : ∀ o ∈ r.existing, Settled o.values) :
    ((∃ res, resolve h r = .ok res) ↔
      ∀ settings, Reaches h r.config (normalize r.base) r.way settings → Sound settings) ∧
      resolve h r ≠ .error .invalidValue := by
  have hoptions : ∀ layer problems,
      (resolveLayer h h.readableFiles r.config (normalize r.base) r.way).run [] = .ok (layer, problems) →
      ∃ res, resolve h r = .ok res := by
    intro layer problems hrun
    obtain ⟨options, hoptions, -⟩ := effectiveOptions_of_settled (settled_of_run hr hrun) hexisting (normalize r.base)
    exact ⟨_, resolve_ok_iff.mpr ⟨layer, problems, options, hrun, hoptions, rfl⟩⟩
  constructor
  · rw [← resolveLayer_runs_iff hr]
    constructor
    · rintro ⟨res, hres⟩
      obtain ⟨layer, problems, -, hrun, -, -⟩ := resolve_ok_iff.mp hres
      exact ⟨_, hrun⟩
    · rintro ⟨⟨layer, problems⟩, hrun⟩
      exact hoptions layer problems hrun
  · intro hinvalid
    cases hrun : (resolveLayer h h.readableFiles r.config (normalize r.base) r.way).run [] with
    | error e =>
      have he : resolve h r = .error e := by
        change (StateT.run (resolveLayer h h.readableFiles r.config (normalize r.base) r.way) []).bind _ = _
        rw [hrun]
        rfl
      rw [hinvalid] at he
      cases he
      exact StaysValid.resolveLayer h.readableFiles r.config (normalize r.base) r.way [] hrun
    | ok l =>
      obtain ⟨res, hres⟩ := hoptions l.1 l.2 hrun
      rw [hinvalid] at hres
      cases hres

/-- A config that extends one in which a list of paths is null. -/
def extendsNullList : Request where
  config := [(Text.of "extends", .text (Text.of "./base.json"))]
  base := Text.of "/"

def nullListHost : Host := Host.Memory.host
  { files := [(Text.of "/base.json", some (Text.of "\x7b\"compilerOptions\": \x7b\"rootDirs\": null\x7d\x7d"))] }

theorem resolve_total_extended :
    (Lists nullListHost [Text.of "/base.json"] ∧ ∀ o ∈ extendsNullList.existing, Settled o.values) ∧
      (¬ ∃ res, resolve nullListHost extendsNullList = .ok res) ∧
      resolve nullListHost extendsNullList ≠ .error .invalidValue := by
  let settings : Fields := [(Text.of "compilerOptions", .object [(Text.of "rootDirs", .null)])]
  have hlists : Lists nullListHost [Text.of "/base.json"] := lists_memory _
  have hexisting : ∀ o ∈ extendsNullList.existing, Settled o.values := by
    intro o ho
    cases ho
  have hload : load nullListHost.text? (Text.of "/base.json") = .ok settings := by cbv
  have hfollow : follow nullListHost (Text.of "/") [] (Text.of "./base.json") = .ok (Text.of "/base.json", settings) := by
    have hpath : extendsPath nullListHost (Text.of "./base.json") (Text.of "/") = .ok (Text.of "/base.json") := rfl
    simp only [follow, hpath, hload]
    rfl
  have hreached : Reaches nullListHost extendsNullList.config (normalize extendsNullList.base) extendsNullList.way settings :=
    .further (by decide) hfollow .self
  obtain ⟨hiff, hvalid⟩ := resolve_total hlists (r := extendsNullList) hexisting
  refine ⟨⟨hlists, hexisting⟩, fun hres => ?_, hvalid⟩
  exact (hiff.mp hres settings hreached).lists (Text.of "rootDirs") (by decide) rfl

/-- A config that is valid but for a list of paths that is null, which every other option may be. -/
def nullList : Request where
  config := [(Text.of "files", .texts [Text.of "a.ts"]),
             (Text.of "compilerOptions", .object [(Text.of "typeRoots", .null)])]
  base := Text.of "/proj"

/-- A valid value can leave a request without a result. -/
theorem resolve_nullList : OptionType.check .paths .null = .ok .null ∧
    ¬ ∃ res, resolve (Host.Memory.host {}) nullList = .ok res := by
  refine ⟨rfl, ?_⟩
  rintro ⟨res, hres⟩
  obtain ⟨layer, problems, -, hrun, -, -⟩ := resolve_ok_iff.mp hres
  have hsound := (resolveLayer_runs_iff (lists_memory {})).mp ⟨_, hrun⟩ _ .self
  exact hsound.lists (Text.of "typeRoots") (by decide) rfl

end TsProject.Config
