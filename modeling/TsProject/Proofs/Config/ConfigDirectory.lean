/-
  TsProject.Proofs.Config.ConfigDirectory — the template means the directory of the config
  that is loaded.

  Writing out what the template stands for, in a config and in every config that is
  opened on its behalf, changes neither the problems nor the files of a request. It
  changes its options in one place alone: where the template is put in, it is not put in
  for the targets that `paths` maps names to, so these keep it.

  - `ReadsSpelled`: every config that is opened on behalf of a config is read spelled out.
  - `layerOver_spellOut` / `resolveLayer_spellOut`: a config, and with it a whole chain, then
    gives the same layer once it is spelled out.
  - `resolve_spellOut`: so requests have the same outcome, but for targets with the template.
-/

import TsProject.Proofs.Config.Layers
import TsProject.Proofs.Config.Spelled

namespace TsProject.Config

open CodePoint TsProject.Path

/-! ## Layers -/

/-- A layer with its specs spelled out and its options changed. -/
def Layer.spelled (σ : Text → Text) (τ : OptionType → Value → Value) (l : Layer) : Layer :=
  { l.mapSpecs σ with options := mapTyped τ l.options }

section Layers

variable {σ : Text → Text} {τ : OptionType → Value → Value}

theorem Layer.spelled_overlay (a b : Layer) : (a.overlay b).spelled σ τ = (a.spelled σ τ).overlay (b.spelled σ τ) := by
  rw [Layer.spelled, Layer.mapSpecs_overlay]
  simp only [Layer.spelled, Layer.overlay, merge_mapTyped]

theorem Layer.spelled_foldl (ls : List Layer) (l : Layer) :
    (ls.foldl Layer.overlay l).spelled σ τ = (ls.map (Layer.spelled σ τ)).foldl Layer.overlay (l.spelled σ τ) :=
  (List.foldl_map_hom fun a b => (Layer.spelled_overlay a b).symm).symm

/-- What a layer is after it is rebased is known, once it is spelled out, from what it was spelled out before. -/
theorem Layer.spelled_rebase (hσ : Early σ) (d : Text) (l : Layer) :
    (l.rebase d).spelled σ τ = ((l.spelled σ τ).rebase d).mapSpecs σ := by
  have hspecs : ∀ x : Option (List Text), (x.map (List.map (Layer.anchor d))).map (List.map σ) =
      ((x.map (List.map σ)).map (List.map (Layer.anchor d))).map (List.map σ) := by
    intro x
    simp only [Option.map_map]
    congr 1
    funext specs
    simp only [Function.comp_apply, List.map_map]
    exact List.map_congr_left fun t _ => (hσ.anchor d t).symm
  simp only [Layer.spelled, Layer.rebase, Layer.mapSpecs, ← hspecs]

/-! ## One config -/

theorem run_spelled_ownLayer (config : Fields) (base : Text) :
    (Layer.spelled σ τ <$> Prod.fst <$> ownLayer config base).run [] = do
    let (top, problems) ← topLevel config
    let options ← Checked.mapTyped τ <$> convertOptions top.options base
    return ({ files := top.files.map (List.map σ), includes := top.includes.map (List.map σ),
              excludes := top.excludes.map (List.map σ), options := options.values }, problems ++ options.problems) := by
  simp only [StateT.run_map, run_ownLayer, Functor.map_map]
  cases topLevel config with
  | error e => rfl
  | ok r =>
    change _ <$> Except.map _ (convertOptions r.1.options base) = (_ <$> convertOptions r.1.options base >>= _)
    cases convertOptions r.1.options base <;> rfl

/-- Two computations, the first one from configs that are spelled out, come to the same layer once both layers are
spelled out. The first layer has its targets spelled out already. -/
def SameSpelled (σ : Text → Text) (x' x : Resolve Layer) : Prop :=
  Layer.spelled σ (OptionType.spellPaths σ) <$> x' = Layer.spelled σ (OptionType.spell σ) <$> x

theorem ownLayer_spellOut (hσ : Early σ) (config : Fields) (base : Text) :
    SameSpelled σ (Prod.fst <$> ownLayer (spellOut σ config) base) (Prod.fst <$> ownLayer config base) := by
  refine ext_of_collects (((collects_ownLayer _ _).map _).map _) (((collects_ownLayer _ _).map _).map _) ?_
  have hagain : ∀ x : Option (List Text), (x.map (List.map σ)).map (List.map σ) = x.map (List.map σ) := by
    intro x
    cases x <;> simp [Function.comp_def, hσ.again]
  rw [run_spelled_ownLayer, run_spelled_ownLayer, topLevel_spellOut, bind_map_left]
  refine bind_congr fun r => ?_
  simp only [TopLevel.spell, convertOptions_spell hσ, hagain]

end Layers

/-! ## Chains -/

/-- The files that are opened as configs on behalf of a config. -/
inductive Opens (h : Host) : Fields → Text → List Text → Text → Prop
  | entry {config : Fields} {base : Text} {path : List Text} {entry file : Text} :
      entry ∈ validEntries config → extendsPath h entry base = .ok file → path.any (sameFile h file) = false →
      Opens h config base path file
  | further {config : Fields} {base : Text} {path : List Text} {entry file : Text} {config' : Fields} {file' : Text} :
      entry ∈ validEntries config → follow h base path entry = .ok (file, config') →
      Opens h config' (directory file) (path ++ [file]) file' → Opens h config base path file'

/-- Reading gives every config that is opened in spelled-out form. No manifest declares another config. -/
structure ReadsSpelled (σ : Text → Text) (h : Host) (read : Text → Option Text) (config : Fields) (base : Text)
    (path : List Text) : Prop where
  configs : ∀ file, Opens h config base path file → load read file = (load h.text? file).map (spellOut σ)
  manifests : ∀ p, (read p).bind declaredConfig? = (h.text? p).bind declaredConfig?

section Chains

variable {σ : Text → Text} {h : Host} {read : Text → Option Text} {config : Fields} {base : Text} {path : List Text}

theorem ReadsSpelled.follow (hr : ReadsSpelled σ h read config base path) {entry : Text} (he : entry ∈ validEntries config) :
    Config.follow { h with text? := read } base path entry =
      (fun r => (r.1, spellOut σ r.2)) <$> Config.follow h base path entry := by
  have hpath : extendsPath { h with text? := read } entry base = extendsPath h entry base := by
    have hcandidates : packageCandidates { h with text? := read } = packageCandidates h := by
      funext spec d
      simp only [packageCandidates, hr.manifests]
    simp only [extendsPath, packageConfig?, hcandidates]
  unfold Config.follow
  rw [hpath]
  cases hp : extendsPath h entry base with
  | error problem => rfl
  | ok file =>
    change (if path.any (sameFile h file) = true then _ else _) = _ <$> (if path.any (sameFile h file) = true then _ else _)
    cases hc : path.any (sameFile h file) with
    | true => rfl
    | false =>
      have hload := hr.configs file (.entry he hp hc)
      change (load read file).map _ = _ <$> (load h.text? file).map _
      rw [hload]
      cases load h.text? file <;> rfl

theorem ReadsSpelled.further (hr : ReadsSpelled σ h read config base path) {entry file : Text} {config' : Fields}
    (he : entry ∈ validEntries config) (hf : Config.follow h base path entry = .ok (file, config')) :
    ReadsSpelled σ h read config' (directory file) (path ++ [file]) :=
  ⟨fun file' hopens => hr.configs file' (.further he hf hopens), hr.manifests⟩

/-- What a config gives, spelled out, by what its entries give. -/
theorem spelled_layerOver {τ : OptionType → Value → Value} (h : Host) (next : Fields → Text → List Text → Resolve Layer)
    (config : Fields) (base : Text) (path : List Text) : Layer.spelled σ τ <$> layerOver h next config base path = do
      let own ← Layer.spelled σ τ <$> Prod.fst <$> ownLayer config base
      let inherited ← (validEntries config).mapM fun entry =>
        Option.map (Layer.spelled σ τ) <$> extendedLayer h next base path entry
      return (inherited.filterMap id).foldl Layer.overlay {} |>.overlay own := by
  have hinherited : ∀ ls : List (Option Layer), (ls.map (Option.map (Layer.spelled σ τ))).filterMap id =
      (ls.filterMap id).map (Layer.spelled σ τ) := by
    intro ls
    rw [List.filterMap_map, List.map_filterMap]
    rfl
  simp only [layerOver_eq, ← map_mapM, map_bind, map_pure, bind_map_left, Layer.spelled_overlay, Layer.spelled_foldl,
    hinherited]
  rfl

theorem extendedLayer_spellOut (hσ : Early σ) (hr : ReadsSpelled σ h read config base path) {entry : Text}
    (he : entry ∈ validEntries config) {next next' : Fields → Text → List Text → Resolve Layer}
    (hnext : ∀ file config', follow h base path entry = .ok (file, config') →
      SameSpelled σ (next' (spellOut σ config') (directory file) (path ++ [file]))
        (next config' (directory file) (path ++ [file]))) :
    Option.map (Layer.spelled σ (OptionType.spellPaths σ)) <$> extendedLayer { h with text? := read } next' base path entry =
      Option.map (Layer.spelled σ (OptionType.spell σ)) <$> extendedLayer h next base path entry := by
  rw [extendedLayer_eq, extendedLayer_eq, hr.follow he]
  cases hf : follow h base path entry with
  | error problem => rfl
  | ok r =>
    have hrebase : ∀ (τ : OptionType → Value → Value) (x : Resolve Layer),
        Option.map (Layer.spelled σ τ) <$> (x >>= fun layer => pure (some (layer.rebase (directory r.1)))) =
          (fun l => some ((l.rebase (directory r.1)).mapSpecs σ)) <$> Layer.spelled σ τ <$> x := by
      intro τ x
      simp only [map_bind, map_pure, Option.map_some, Layer.spelled_rebase hσ]
      simp only [map_eq_pure_bind, bind_assoc, pure_bind]
    exact (hrebase _ _).trans ((congrArg _ (hnext r.1 r.2 hf)).trans (hrebase _ _).symm)

/-- One config passes on what holds of those its entries lead to. -/
theorem layerOver_spellOut (hσ : Early σ) {next next' : Fields → Text → List Text → Resolve Layer}
    (hnext : ∀ {config base path}, ReadsSpelled σ h read config base path →
      SameSpelled σ (next' (spellOut σ config) base path) (next config base path))
    (hr : ReadsSpelled σ h read config base path) :
    SameSpelled σ (layerOver { h with text? := read } next' (spellOut σ config) base path)
      (layerOver h next config base path) := by
  have hown := ownLayer_spellOut hσ config base
  have hentries := mapM_congr fun entry he =>
    extendedLayer_spellOut hσ hr he fun file config' hf => hnext (hr.further he hf)
  unfold SameSpelled at *
  rw [spelled_layerOver, spelled_layerOver, hown, validEntries_spellOut, hentries]

/-- So a whole chain of configs that is spelled out gives the same layer. -/
theorem resolveLayer_spellOut (hσ : Early σ) (depth : Nat) (hr : ReadsSpelled σ h read config base path) :
    SameSpelled σ (resolveLayer { h with text? := read } depth (spellOut σ config) base path)
      (resolveLayer h depth config base path) := by
  induction depth generalizing config base path with
  | zero => exact layerOver_spellOut hσ (fun _ => rfl) hr
  | succ depth ih => exact layerOver_spellOut hσ ih hr

end Chains

/-! ## Options -/

section Options

variable {dir : Text}

theorem map_eq_of_map_eq {α β γ : Type} {f f' : α → β} {g g' : α → γ} (hg : ∀ a a', f a = f' a' → g a = g' a') {l l' : List α}
    (hl : l.map f = l'.map f') : l.map g = l'.map g' := by
  induction l generalizing l' with
  | nil =>
    cases l' with
    | nil => rfl
    | cons => cases hl
  | cons a l ih =>
    cases l' with
    | nil => cases hl
    | cons a' l' =>
      obtain ⟨ha, hl⟩ := List.cons.inj hl
      rw [List.map_cons, List.map_cons, hg a a' ha, ih hl]

theorem substituteAll_eq_map (dir : Text) (items : List Value) : substituteAll dir items = items.map (substitute dir) := by
  induction items with
  | nil => rfl
  | cons v items ih => rw [substituteAll, ih, List.map_cons]

theorem substitute_of_spellText {v v' : Value} (h : spellText (substituteText dir) v' = spellText (substituteText dir) v) :
    substitute dir v' = substitute dir v := by
  cases v' <;> cases v <;> simp_all [spellText, substitute]

theorem substitute_of_spellTexts {v v' : Value} (h : spellTexts (substituteText dir) v' = spellTexts (substituteText dir) v) :
    substitute dir v' = substitute dir v := by
  cases v' with
  | array items' =>
    cases v with
    | array items =>
      simp only [substitute, substituteAll_eq_map]
      exact congrArg Value.array (map_eq_of_map_eq (fun _ _ => substitute_of_spellText) (Value.array.inj h))
    | _ => cases h
  | _ => cases v <;> first | cases h; rfl | cases h

/-- Where a value was spelled out, putting in the template gives what it gives otherwise, but for targets. -/
theorem substitute_of_spelled {type : OptionType} {v v' : Value}
    (h : type.spellPaths (substituteText dir) v' = type.spell (substituteText dir) v) :
    substitute dir v' = type.spellTargets (substituteText dir) (substitute dir v) := by
  cases type with
  | path => exact substitute_of_spellText h
  | paths => exact substitute_of_spellTexts h
  | mapping =>
    obtain rfl : v' = spellTargets (substituteText dir) v := h
    cases v <;> rfl
  | _ =>
    obtain rfl : v' = v := h
    rfl

theorem effectiveOptions_spelled {layer layer' : Layer}
    (h : mapTyped (OptionType.spellPaths (substituteText dir)) layer'.options =
      mapTyped (OptionType.spell (substituteText dir)) layer.options) :
    effectiveOptions dir none layer' =
      Options.mapTyped (OptionType.spellTargets (substituteText dir)) <$> effectiveOptions dir none layer := by
  have hvalues : (layer'.options.map fun f => (f.1, substitute dir f.2)) =
      mapTyped (OptionType.spellTargets (substituteText dir)) (layer.options.map fun f => (f.1, substitute dir f.2)) := by
    rw [mapTyped, List.map_map]
    refine map_eq_of_map_eq (fun f' f hf => ?_) h
    obtain ⟨hkey, hvalue⟩ := Prod.mk.inj hf
    refine Prod.ext hkey ?_
    rw [hkey] at hvalue
    change substitute dir f'.2 = typed _ f.1 (substitute dir f.2)
    unfold typed at hvalue ⊢
    cases hk : knownSpec? f.1 with
    | none =>
      rw [hk] at hvalue
      exact congrArg (substitute dir) hvalue
    | some o =>
      rw [hk] at hvalue
      exact substitute_of_spelled hvalue
  change Options.ofFields (Fields.merge [] (layer'.options.map fun f => (f.1, substitute dir f.2))) =
    Except.map _ (Options.ofFields (Fields.merge [] (layer.options.map fun f => (f.1, substitute dir f.2))))
  rw [hvalues, ← ofFields_mapTyped (passesChecks_spellTargets _), ← merge_mapTyped]
  rfl

/-- Options with the targets of names spelled out. -/
def Options.spellTargets (dir : Text) (o : Options) : Options := o.mapTyped (OptionType.spellTargets (substituteText dir))

theorem get?_spellTargets (o : Options) {spec : OptionSpec} (hspec : spec ∈ optionSpecs) (htype : spec.type ≠ .mapping) :
    (o.spellTargets dir).values.get? spec.key = o.values.get? spec.key := by
  have hid : OptionType.spellTargets (substituteText dir) spec.type = id := by
    cases hs : spec.type <;> first | rfl | exact absurd hs htype
  change Fields.get? (mapTyped _ o.values) spec.key = _
  rw [get?_mapTyped, typed_key hspec, hid, Option.map_id, id]

theorem outputDirectories_spellTargets (o : Options) : outputDirectories (o.spellTargets dir) = outputDirectories o := by
  have htext : ∀ name, ⟨name, .path⟩ ∈ optionSpecs → (o.spellTargets dir).text? name = o.text? name := by
    intro name hname
    unfold Options.text?
    rw [show Text.of name = OptionSpec.key ⟨name, .path⟩ from rfl, get?_spellTargets o hname (by simp)]
  rw [outputDirectories, htext "outDir" (by decide), htext "declarationDir" (by decide), outputDirectories]

theorem extensionGroups_spellTargets (o : Options) : (o.spellTargets dir).extensionGroups = o.extensionGroups := by
  have hset : (o.spellTargets dir).isSet "allowJs" = o.isSet "allowJs" := by
    unfold Options.isSet
    rw [show Text.of "allowJs" = OptionSpec.key ⟨"allowJs", .flag⟩ from rfl, get?_spellTargets o (by decide) (by simp)]
  rw [Options.extensionGroups, hset, Options.extensionGroups]

end Options

/-! ## Targets -/

section Targets

def listTexts : Value → List Text
  | .array items => items.filterMap Value.text?
  | _ => []

def targetTexts : Value → List Text
  | .object fields => fields.flatMap fun f => listTexts f.2
  | _ => []

/-- The targets that names are mapped to. -/
def Options.targets (o : Options) : List Text := ((o.values.get? (Text.of "paths")).map targetTexts).getD []

variable {σ : Text → Text}

theorem map_eq_self_iff {α : Type} {f : α → α} {l : List α} : l.map f = l ↔ ∀ a ∈ l, f a = a := by
  have hmap := List.map_inj_left (f := f) (g := id) (l := l)
  rwa [List.map_id] at hmap

theorem spellTexts_eq_self_iff {v : Value} : spellTexts σ v = v ↔ ∀ t ∈ listTexts v, σ t = t := by
  cases v with
  | array items =>
    simp only [spellTexts, Value.array.injEq, map_eq_self_iff, listTexts, List.mem_filterMap]
    constructor
    · rintro h t ⟨item, hitem, ht⟩
      cases item with
      | text u =>
        cases ht
        exact Value.text.inj (h _ hitem)
      | _ => cases ht
    · intro h item hitem
      cases item with
      | text u => exact congrArg Value.text (h u ⟨_, hitem, rfl⟩)
      | _ => rfl
  | _ => simp [spellTexts, listTexts]

theorem spellTargets_eq_self_iff {v : Value} : spellTargets σ v = v ↔ ∀ t ∈ targetTexts v, σ t = t := by
  cases v with
  | object fields =>
    simp only [spellTargets, Value.object.injEq, map_eq_self_iff, targetTexts, List.mem_flatMap]
    constructor
    · rintro h t ⟨f, hf, ht⟩
      exact spellTexts_eq_self_iff.mp (Prod.mk.inj (h f hf)).2 t ht
    · exact fun h f hf => Prod.ext rfl (spellTexts_eq_self_iff.mpr fun t ht => h t ⟨f, hf, ht⟩)
  | _ => simp [spellTargets, targetTexts]

theorem key_of_mapping : ∀ o ∈ optionSpecs, o.type = .mapping → o.key = Text.of "paths" := by decide

/-- Options change exactly if a target holds the template. -/
theorem Options.spellTargets_eq_self_iff {dir : Text} (hdir : startsAtRoot dir = true) {o : Options} (ho : Settled o.values) :
    o.spellTargets dir = o ↔ ∀ t ∈ o.targets, Text.startsWith t configDirTemplate = false := by
  have hpaths : ⟨"paths", .mapping⟩ ∈ optionSpecs := by decide
  have hfixed : ∀ v, (∀ t ∈ targetTexts v, Text.startsWith t configDirTemplate = false) ↔
      Config.spellTargets (substituteText dir) v = v := by
    intro v
    rw [Config.spellTargets_eq_self_iff]
    exact forall₂_congr fun t _ => (substituteText_eq_self_iff hdir).symm
  constructor
  · intro h t ht
    cases hv : o.values.get? (Text.of "paths") with
    | none => simp [targets, hv] at ht
    | some v =>
      have hspelled : (o.spellTargets dir).values.get? (OptionSpec.key ⟨"paths", .mapping⟩) = some v := by rw [h]; exact hv
      change (Config.mapTyped _ o.values).get? _ = _ at hspelled
      rw [get?_mapTyped, typed_key hpaths, show o.values.get? (OptionSpec.key ⟨"paths", .mapping⟩) = some v from hv] at hspelled
      refine (hfixed v).mpr (Option.some.inj hspelled) t ?_
      simpa [targets, hv] using ht
  · intro h
    have hvalues : Config.mapTyped (OptionType.spellTargets (substituteText dir)) o.values = o.values := by
      refine map_eq_self_iff.mpr fun f hf => Prod.ext rfl ?_
      obtain ⟨spec, hspec, hkey, -⟩ := ho.known f hf
      change typed _ f.1 f.2 = f.2
      rw [← hkey, typed_key hspec]
      cases htype : spec.type with
      | mapping =>
        have hget : o.values.get? (Text.of "paths") = some f.2 := by
          rw [← key_of_mapping spec hspec htype, hkey]
          exact Fields.get?_of_mem ho.distinct hf
        refine (hfixed f.2).mp fun t ht => h t ?_
        simpa [targets, hget] using ht
      | _ => rfl
    rw [Options.spellTargets, Options.mapTyped, hvalues]

end Targets

/-! ## Requests -/

section Requests

variable {r : Request} {layer layer' : Layer}

theorem conclude_spelled (h : Host) (read : Text → Option Text) (hspecs : layer'.mapSpecs (substituteText (normalize r.base)) =
      { layer.mapSpecs (substituteText (normalize r.base)) with options := layer'.options })
    (config : Fields) (dir : Text) (options : Options) (problems : List Problem) :
    conclude { h with text? := read } { r with config := config } layer' (options.spellTargets dir) problems =
      { conclude h r layer options problems with
        options := (conclude h r layer options problems).options.spellTargets dir
        raw := config } := by
  unfold conclude
  simp only [hspecs, outputDirectories_spellTargets, rootFiles, extensionGroups_spellTargets]
  rfl

/-- Layers that are the same once they are spelled out come to the same conclusion, but for targets. -/
theorem conclusion_spelled (h : Host) (read : Text → Option Text) (hbase : startsAtRoot r.base = true)
    (hspelled : layer'.spelled (substituteText r.base) (OptionType.spellPaths (substituteText r.base)) =
      layer.spelled (substituteText r.base) (OptionType.spell (substituteText r.base)))
    (config : Fields) (problems : List Problem) :
    (fun options => conclude { h with text? := read } { r with config := config } layer' options problems) <$>
        effectiveOptions (normalize r.base) none layer' =
      (fun options => { conclude h r layer options problems with
        options := (conclude h r layer options problems).options.spellTargets r.base
        raw := config }) <$> effectiveOptions (normalize r.base) none layer := by
  have hnormal := substituteText_normalize hbase
  have hoptions := congrArg Layer.options hspelled
  have hspecs : layer'.mapSpecs (substituteText (normalize r.base)) =
      { layer.mapSpecs (substituteText (normalize r.base)) with options := layer'.options } := by
    rw [hnormal]
    exact congrArg (fun l : Layer => { l with options := layer'.options }) hspelled
  rw [← hnormal] at hoptions
  rw [effectiveOptions_spelled hoptions, hnormal, Functor.map_map]
  exact congrArg (· <$> effectiveOptions (normalize r.base) none layer)
    (funext fun options => conclude_spelled h read hspecs config r.base options problems)

/-- Computations with outcomes that look alike go on alike, if what comes next looks at nothing else. -/
theorem bind_congr_of_map_eq {ε α β γ : Type} {x y : Except ε α} {f f' : α → β} {k k' : α → Except ε γ}
    (h : f <$> x = f' <$> y) (hk : ∀ a b, f a = f' b → k a = k' b) : x >>= k = y >>= k' := by
  cases x with
  | error e =>
    cases y with
    | error e' =>
      cases h
      rfl
    | ok b => cases h
  | ok a =>
    cases y with
    | error e' => cases h
    | ok b => exact hk a b (Except.ok.inj h)

/-- A request for a config that is spelled out, with every config that is opened on its behalf, has the same
outcome: the same failure, or the same problems and the same files, and the same options but for targets with
the template. Only they keep it where it is put in everywhere else. -/
theorem resolve_spellOut {h : Host} {read : Text → Option Text} (hbase : startsAtRoot r.base = true)
    (hexisting : r.existing = none) (hread : ReadsSpelled (substituteText r.base) h read r.config (normalize r.base) r.way) :
    resolve { h with text? := read } { r with config := spellOut (substituteText r.base) r.config } =
        (fun res => { res with
          options := res.options.spellTargets r.base
          raw := spellOut (substituteText r.base) r.config }) <$> resolve h r ∧
      ∀ res, resolve h r = .ok res → (res.options.spellTargets r.base = res.options ↔
        ∀ t ∈ res.options.targets, Text.startsWith t configDirTemplate = false) := by
  refine ⟨?_, fun res hres => Options.spellTargets_eq_self_iff hbase (settled_resolve hres)⟩
  obtain ⟨config, base, existing, fileName⟩ := r
  obtain rfl : existing = none := hexisting
  have hlayer := congrArg (StateT.run · []) (resolveLayer_spellOut (early_substituteText hbase) h.readableFiles hread)
  simp only [StateT.run_map] at hlayer
  unfold resolve
  simp only [map_bind, map_pure]
  refine bind_congr_of_map_eq hlayer fun l' l hl => ?_
  obtain ⟨hspelled, hproblems⟩ := Prod.mk.inj hl
  have hconclusion := conclusion_spelled h read hbase hspelled (spellOut (substituteText base) config) l.2
  rw [map_eq_pure_bind, map_eq_pure_bind] at hconclusion
  rw [show l'.2 = l.2 from hproblems]
  exact hconclusion

end Requests

/-- A library whose config leaves its paths to whoever extends it. -/
def templateLibrary : Host := Host.Memory.host
  { files := [(Text.of "/lib/base.json", some (Text.of
      "\x7b\"files\": [\"$\x7bconfigDir\x7d/a.ts\"], \"compilerOptions\": \x7b\"outDir\": \"$\x7bconfigDir\x7d/out\"\x7d\x7d"))] }

def templateSettings : Fields :=
  [(Text.of "files", .texts [Text.of "$\x7bconfigDir\x7d/a.ts"]),
   (Text.of "compilerOptions", .object [(Text.of "outDir", .text (Text.of "$\x7bconfigDir\x7d/out"))])]

def spelledSettings : Fields :=
  [(Text.of "files", .texts [Text.of "/proj/a.ts"]),
   (Text.of "compilerOptions", .object [(Text.of "outDir", .text (Text.of "/proj/out"))])]

/-- The same library for one directory. -/
def readLibrary (p : Text) : Option Text :=
  if p = Text.of "/lib/base.json" then
    some (Text.of "\x7b\"files\": [\"/proj/a.ts\"], \"compilerOptions\": \x7b\"outDir\": \"/proj/out\"\x7d\x7d")
  else templateLibrary.text? p

def extendingTemplates : Request where
  config := [(Text.of "extends", .text (Text.of "../lib/base.json"))]
  base := Text.of "/proj"

theorem load_templateLibrary : load templateLibrary.text? (Text.of "/lib/base.json") = .ok templateSettings := by cbv

theorem load_readLibrary : load readLibrary (Text.of "/lib/base.json") = .ok spelledSettings := by cbv

theorem spellOut_templateSettings : spellOut (substituteText (Text.of "/proj")) templateSettings = spelledSettings := rfl

theorem follow_templateLibrary : follow templateLibrary (Text.of "/proj") [] (Text.of "../lib/base.json") =
    .ok (Text.of "/lib/base.json", templateSettings) := by
  have hpath : extendsPath templateLibrary (Text.of "../lib/base.json") (Text.of "/proj") = .ok (Text.of "/lib/base.json") := rfl
  simp only [follow, hpath, load_templateLibrary]
  rfl

set_option maxRecDepth 4000 in
theorem readsSpelled_library : ReadsSpelled (substituteText (Text.of "/proj")) templateLibrary readLibrary
    extendingTemplates.config (Text.of "/proj") [] := by
  refine ⟨fun file hopens => ?_, fun p => ?_⟩
  · obtain rfl : file = Text.of "/lib/base.json" := by
      cases hopens with
      | entry he hp _ =>
        obtain rfl := List.mem_singleton.mp he
        rw [(follow_ok follow_templateLibrary).1] at hp
        exact (Except.ok.inj hp).symm
      | further he hf hopens =>
        obtain rfl := List.mem_singleton.mp he
        rw [follow_templateLibrary] at hf
        cases hf
        cases hopens with
        | entry he => cases he
        | further he => cases he
    rw [load_templateLibrary, load_readLibrary, ← spellOut_templateSettings]
    rfl
  · by_cases hp : p = Text.of "/lib/base.json"
    · subst hp
      cbv
    · rw [readLibrary, if_neg hp]

theorem resolve_spellOut_library :
    (startsAtRoot extendingTemplates.base = true ∧ extendingTemplates.existing = none ∧
      ReadsSpelled (substituteText extendingTemplates.base) templateLibrary readLibrary extendingTemplates.config
        (normalize extendingTemplates.base) extendingTemplates.way) ∧
      ∃ res, resolve templateLibrary extendingTemplates = .ok res ∧
        resolve { templateLibrary with text? := readLibrary } extendingTemplates =
          .ok { res with options := res.options.spellTargets extendingTemplates.base } ∧
        res.options.values.get? (Text.of "outDir") = some (.text (Text.of "/proj/out")) := by
  have houtDir : ⟨"outDir", .path⟩ ∈ optionSpecs := by decide
  have hnoLists : ∀ {fs : Fields}, (∀ key ∈ pathLists, key ∉ fs.map (·.1)) → ∀ key ∈ pathLists, fs.get? key ≠ some .null := by
    intro fs hfs key hkey
    rw [Fields.get?_eq_none_iff.mpr (hfs key hkey)]
    simp
  have hconfig : Regular extendingTemplates.config := ⟨by decide, by decide, hnoLists (by decide), by decide⟩
  have hsettings : Regular templateSettings := ⟨by decide, by decide, hnoLists (by decide), by decide⟩
  have hlists : Lists templateLibrary [Text.of "/lib/base.json"] := lists_memory _
  have hinherits : Inherits templateLibrary (Text.of "/proj") [] (validEntries extendingTemplates.config)
      (.config (directory (Text.of "/lib/base.json")) templateSettings .none .none) := .config follow_templateLibrary .nil .nil
  obtain ⟨layer, problems, hrun, hshows⟩ := resolveLayer_shows hlists hconfig hinherits ⟨hsettings, trivial, trivial⟩ rfl
  have hnone : ∀ o ∈ (none : Option Options), Settled o.values := by simp
  obtain ⟨options, hoptions, hget⟩ := effectiveOptions_of_settled hshows.settled hnone (Text.of "/proj")
  have hres := resolve_ok_iff.mpr ⟨layer, problems, options, hrun, hoptions, rfl⟩
  obtain ⟨hspelled, -⟩ := resolve_spellOut (r := extendingTemplates) (by rfl) (by rfl) readsSpelled_library
  rw [hres] at hspelled
  refine ⟨⟨rfl, rfl, readsSpelled_library⟩, _, hres, hspelled, ?_⟩
  have hvalue := hget (OptionSpec.key ⟨"outDir", .path⟩)
  rw [hshows.option, effectiveOption_known houtDir] at hvalue
  exact hvalue

/-- A config in which the template stands in a target alone. -/
def templateTargets : Request where
  config :=
    [(Text.of "files", .texts [Text.of "a.ts"]),
     (Text.of "compilerOptions",
       .object [(Text.of "paths", .object [(Text.of "@/*", .texts [Text.of "$\x7bconfigDir\x7d/src/*"])])])]
  base := Text.of "/proj"

def spelledTargets : Request :=
  { templateTargets with config := spellOut (substituteText templateTargets.base) templateTargets.config }

set_option maxRecDepth 10000 in
/-- The target keeps the template, which no longer means anything to whoever reads the options. -/
theorem resolve_templateTargets :
    ∃ res res', resolve (Host.Memory.host {}) templateTargets = .ok res ∧
      resolve (Host.Memory.host {}) spelledTargets = .ok res' ∧
      res.options.targets = [Text.of "$\x7bconfigDir\x7d/src/*"] ∧ res'.options.targets = [Text.of "/proj/src/*"] :=
  ⟨_, _, rfl, rfl, rfl, rfl⟩

end TsProject.Config
