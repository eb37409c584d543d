/-
  TsProject.Proofs.Config.Spelled — path settings with their template spelled out.

  A path setting that starts with the template can be written as the absolute path it
  stands for. Such a config is checked with the same outcome: the template never decides
  whether a value is valid, a path that holds it is left alone until it is put in, and a
  path that is spelled out stays where it is.

  - `substituteText_before_resolvePath`: it makes no difference whether the template is put in
    before a path is read against a directory or only after that.
  - `checkOptions_mapTyped`: options changed within their types are checked alike.
  - `convertOptions_spell`, `topLevel_spellOut`: so are the options and the settings of a
    config that is spelled out.
-/

import TsProject.Proofs.Config.Conversion

namespace TsProject.Config

open CodePoint TsProject.Path

/-! ## Texts -/

section Texts

variable {dir : Text}

/-- The path that a text with the template stands for starts at the root and is in normal form. -/
theorem substituteText_of_template (hdir : startsAtRoot dir = true) {t : Text}
    (ht : Text.startsWith t configDirTemplate = true) :
    startsAtRoot (substituteText dir t) = true ∧ normalize (substituteText dir t) = substituteText dir t := by
  have hstart : startsAtRoot (dir ++ slash :: Text.trimStart (· == slash) (t.drop configDirTemplate.length)) = true :=
    startsAtRoot_append hdir _
  rw [substituteText, if_pos ht]
  exact ⟨startsAtRoot_normalize hstart, normalize_normalize _⟩

theorem substituteText_of_not_template {t : Text} (ht : Text.startsWith t configDirTemplate = false) (dir : Text) :
    substituteText dir t = t := by
  rw [substituteText, ht, if_neg (by simp)]

theorem substituteText_eq_self_iff (hdir : startsAtRoot dir = true) {t : Text} :
    substituteText dir t = t ↔ Text.startsWith t configDirTemplate = false := by
  refine ⟨fun h => ?_, fun h => substituteText_of_not_template h dir⟩
  cases ht : Text.startsWith t configDirTemplate with
  | false => rfl
  | true =>
    have hstart := (substituteText_of_template hdir ht).1
    rw [h] at hstart
    rw [not_template_of_startsAtRoot hstart] at ht
    cases ht

theorem substituteText_substituteText (hdir : startsAtRoot dir = true) (t : Text) :
    substituteText dir (substituteText dir t) = substituteText dir t := by
  cases ht : Text.startsWith t configDirTemplate with
  | false => rw [substituteText_of_not_template ht, substituteText_of_not_template ht]
  | true => exact substituteText_of_not_template (not_template_of_startsAtRoot (substituteText_of_template hdir ht).1) dir

/-- The directory may as well be in normal form. -/
theorem substituteText_normalize (hdir : startsAtRoot dir = true) : substituteText (normalize dir) = substituteText dir := by
  have hbelow : ∀ rest, normalize (normalize dir ++ slash :: rest) = normalize (dir ++ slash :: rest) := by
    intro rest
    have hnames : rootedNames (normalize dir) = rootedNames dir := by
      rw [normalize_rooted (startsAtRoot_forwardSlashes hdir)]
      exact rootedNames_absolute fun n hn => isPlain_of_mem_rootedNames hn
    have hsplit : ∀ d, segments (forwardSlashes (d ++ slash :: rest)) =
        segments (forwardSlashes d) ++ segments (forwardSlashes rest) := by
      intro d
      have hcut : forwardSlashes (d ++ slash :: rest) = forwardSlashes d ++ slash :: forwardSlashes rest := by
        simp only [forwardSlashes, List.map_append, List.map_cons]
        rfl
      rw [hcut, segments_append_slash]
    rw [normalize_rooted (startsAtRoot_forwardSlashes (startsAtRoot_append (startsAtRoot_normalize hdir) _)),
      normalize_rooted (startsAtRoot_forwardSlashes (startsAtRoot_append hdir _))]
    refine congrArg absolute ?_
    calc rootedNames (normalize dir ++ slash :: rest)
        = fold true (fold true (segments (forwardSlashes (normalize dir))) ++ segments (forwardSlashes rest)) := by
          rw [fold_append_fold, ← hsplit]
          rfl
      _ = fold true (fold true (segments (forwardSlashes dir)) ++ segments (forwardSlashes rest)) :=
          congrArg (fun names => fold true (names ++ segments (forwardSlashes rest))) hnames
      _ = rootedNames (dir ++ slash :: rest) := by
          rw [fold_append_fold, ← hsplit]
          rfl
  funext t
  unfold substituteText
  rw [hbelow]

/-- It makes no difference whether the template is put in before a path is read against a directory. -/
theorem substituteText_before_resolvePath (hdir : startsAtRoot dir = true) (base t : Text) :
    substituteText dir (resolvePath base (substituteText dir t)) = substituteText dir (resolvePath base t) := by
  cases ht : Text.startsWith t configDirTemplate with
  | false => rw [substituteText_of_not_template ht]
  | true =>
    obtain ⟨hstart, hnormal⟩ := substituteText_of_template hdir ht
    have hstays : resolvePath base (substituteText dir t) = substituteText dir t := by
      rw [resolvePath, not_template_of_startsAtRoot hstart, if_neg (by simp),
        resolve_of_isRooted (isRooted_of_startsAtRoot hstart), hnormal]
    rw [hstays, substituteText_substituteText hdir, resolvePath, if_pos ht]

/-- Nor whether it is put in before a spec is anchored. -/
theorem substituteText_before_anchor (hdir : startsAtRoot dir = true) (d t : Text) :
    substituteText dir (Layer.anchor d (substituteText dir t)) = substituteText dir (Layer.anchor d t) := by
  cases ht : Text.startsWith t configDirTemplate with
  | false => rw [substituteText_of_not_template ht]
  | true =>
    have hrooted := isRooted_of_startsAtRoot (substituteText_of_template hdir ht).1
    have hstays : Layer.anchor d (substituteText dir t) = substituteText dir t := by
      rw [Layer.anchor, if_pos (by simp [hrooted])]
    rw [hstays, substituteText_substituteText hdir, Layer.anchor, if_pos (by simp [ht])]

/-- A substitution that may as well be made early: before a path is read against a directory, and before a
spec is anchored. -/
structure Early (σ : Text → Text) : Prop where
  again : ∀ t, σ (σ t) = σ t
  resolve : ∀ base t, σ (resolvePath base (σ t)) = σ (resolvePath base t)
  anchor : ∀ d t, σ (Layer.anchor d (σ t)) = σ (Layer.anchor d t)

theorem early_substituteText (hdir : startsAtRoot dir = true) : Early (substituteText dir) :=
  ⟨substituteText_substituteText hdir, substituteText_before_resolvePath hdir, substituteText_before_anchor hdir⟩

end Texts

/-! ## Values -/

def spellText (σ : Text → Text) : Value → Value
  | .text t => .text (σ t)
  | v => v

def spellTexts (σ : Text → Text) : Value → Value
  | .array items => .array (items.map (spellText σ))
  | v => v

def spellTargets (σ : Text → Text) : Value → Value
  | .object fields => .object (fields.map fun f => (f.1, spellTexts σ f.2))
  | v => v

namespace OptionType

/-- A value of an option that holds paths, with the paths spelled out. -/
def spellPaths (σ : Text → Text) : OptionType → Value → Value
  | .path => spellText σ
  | .paths => spellTexts σ
  | _ => id

/-- A value of an option that maps names to targets, with the targets spelled out. -/
def spellTargets (σ : Text → Text) : OptionType → Value → Value
  | .mapping => Config.spellTargets σ
  | _ => id

/-- A value with both spelled out. -/
def spell (σ : Text → Text) (type : OptionType) (v : Value) : Value := type.spellPaths σ (type.spellTargets σ v)

end OptionType

/-- A change of values that checking does not notice. -/
def PassesChecks (τ : OptionType → Value → Value) : Prop :=
  ∀ (type : OptionType) (v : Value), type.check (τ type v) = (type.check v).map (τ type)

theorem checkTextList_spellTexts (σ : Text → Text) (v : Value) :
    checkTextList (spellTexts σ v) = (checkTextList v).map (List.map σ) := by
  cases v with
  | array items =>
    change checkTexts (items.map (spellText σ)) = (checkTexts items).map _
    induction items with
    | nil => rfl
    | cons v items ih =>
      cases v with
      | text t =>
        rw [List.map_cons, spellText, checkTexts_text, checkTexts_text, ih]
        cases checkTexts items <;> rfl
      | _ => rfl
  | _ => rfl

theorem checkMapping_spellTexts (σ : Text → Text) (fields : Fields) :
    checkMapping (fields.map fun f => (f.1, spellTexts σ f.2)) = checkMapping fields := by
  induction fields with
  | nil => rfl
  | cons f fields ih =>
    have hstep : ∀ (g : Text × Value) (gs : Fields),
        checkMapping (g :: gs) = (checkTextList g.2).bind fun _ => checkMapping gs := by
      intro g gs
      change ((checkTextList g.2).map fun _ => ()).bind (fun _ => checkMapping gs) = _
      cases checkTextList g.2 <;> rfl
    rw [List.map_cons, hstep, hstep, checkTextList_spellTexts, ih]
    cases checkTextList f.2 <;> rfl

theorem passesChecks_spellPaths (σ : Text → Text) : PassesChecks (OptionType.spellPaths σ) := by
  intro type v
  cases type with
  | path => cases v <;> rfl
  | paths =>
    cases v with
    | array items =>
      change (checkTextList (spellTexts σ (.array items))).map Value.texts =
        ((checkTextList (.array items)).map Value.texts).map _
      rw [checkTextList_spellTexts]
      cases checkTextList (.array items) with
      | error fault => rfl
      | ok ts => simp [Except.map, OptionType.spellPaths, Value.texts, spellTexts, spellText]
    | _ => rfl
  | _ => exact (id_map _).symm

theorem passesChecks_spellTargets (σ : Text → Text) : PassesChecks (OptionType.spellTargets σ) := by
  intro type v
  cases type with
  | mapping =>
    cases v with
    | object fields =>
      simp only [OptionType.spellTargets, spellTargets, OptionType.check, checkMapping_spellTexts]
      cases checkMapping fields <;> rfl
    | _ => rfl
  | _ => exact (id_map _).symm

theorem passesChecks_spell (σ : Text → Text) : PassesChecks (OptionType.spell σ) := by
  intro type v
  simp only [OptionType.spell, passesChecks_spellPaths σ type, passesChecks_spellTargets σ type]
  cases type.check v <;> rfl

/-! ## Options -/

/-- The value of a key, changed as a value of its option. -/
def typed (τ : OptionType → Value → Value) (key : Text) (v : Value) : Value :=
  match knownSpec? key with
  | none => v
  | some o => τ o.type v

/-- Options with their values changed. -/
def mapTyped (τ : OptionType → Value → Value) (fs : Fields) : Fields := fs.map fun f => (f.1, typed τ f.1 f.2)

section Typed

variable {τ : OptionType → Value → Value}

theorem typed_key {o : OptionSpec} (ho : o ∈ optionSpecs) : typed τ o.key = τ o.type := by
  funext v
  rw [typed, knownSpec?_key ho]

theorem knownSpec?_configPath : knownSpec? configPathOption.key = none :=
  List.find?_eq_none.mpr fun _ ho => by simpa using configPath_not_known ho

theorem typed_configPath (v : Value) : typed τ configPathOption.key v = v := by
  rw [typed, knownSpec?_configPath]

theorem get?_mapTyped (fs : Fields) (key : Text) : (mapTyped τ fs).get? key = (fs.get? key).map (typed τ key) :=
  Fields.get?_map (typed τ) fs key

theorem keys_mapTyped (fs : Fields) : (mapTyped τ fs).map (·.1) = fs.map (·.1) := by simp [mapTyped]

/-- What one option gives, with the values changed. -/
def Checked.mapTyped (τ : OptionType → Value → Value) (c : Checked) : Checked := ⟨Config.mapTyped τ c.values, c.problems⟩

theorem checkOption_mapTyped (hτ : PassesChecks τ) (raw : Fields) {o : OptionSpec} (ho : o ∈ optionSpecs) :
    checkOption (mapTyped τ raw) o = (checkOption raw o).mapTyped τ := by
  unfold checkOption
  rw [get?_mapTyped, typed_key ho]
  cases raw.get? o.key with
  | none => rfl
  | some v =>
    simp only [Option.map_some, hτ o.type v]
    cases o.type.check v with
    | error fault => rfl
    | ok w => simp [Except.map, Checked.mapTyped, mapTyped, typed_key ho]

theorem checkOption_configPath_mapTyped (raw : Fields) :
    checkOption (mapTyped τ raw) configPathOption = checkOption raw configPathOption := by
  unfold checkOption
  rw [get?_mapTyped]
  cases raw.get? configPathOption.key with
  | none => rfl
  | some v => rw [Option.map_some, typed_configPath]

theorem checkedOptions_mapTyped (hτ : PassesChecks τ) (raw : Fields) :
    checkedOptions (mapTyped τ raw) = (checkedOptions raw).mapTyped τ := by
  have hknown : ∀ o ∈ optionSpecs, checkOption (mapTyped τ raw) o = (checkOption raw o).mapTyped τ :=
    fun o ho => checkOption_mapTyped hτ raw ho
  have hvalues : (optionSpecs.flatMap fun o => (checkOption (mapTyped τ raw) o).values) =
      mapTyped τ (optionSpecs.flatMap fun o => (checkOption raw o).values) := by
    change _ = List.map _ (List.flatMap _ _)
    rw [List.map_flatMap]
    exact List.flatMap_congr fun o ho => congrArg Checked.values (hknown o ho)
  have hproblems : (optionSpecs.flatMap fun o => (checkOption (mapTyped τ raw) o).problems) =
      optionSpecs.flatMap fun o => (checkOption raw o).problems :=
    List.flatMap_congr fun o ho => (congrArg Checked.problems (hknown o ho) :)
  simp only [checkedOptions, Checked.mapTyped, hvalues, hproblems, checkOption_configPath_mapTyped, keys_mapTyped]

/-- Options changed within their types are checked with the same outcome. -/
theorem checkOptions_mapTyped (hτ : PassesChecks τ) (raw : Fields) :
    checkOptions (mapTyped τ raw) = (checkOptions raw).map (Checked.mapTyped τ) := by
  have hkeys : (mapTyped τ raw).any (Text.hasSurrogate ·.1) = raw.any (Text.hasSurrogate ·.1) := by
    simp [mapTyped, List.any_map, Function.comp_def]
  rw [checkOptions_eq, checkOptions_eq, hkeys, checkedOptions_mapTyped hτ]
  split <;> rfl

def Options.mapTyped (τ : OptionType → Value → Value) (o : Options) : Options := { o with values := Config.mapTyped τ o.values }

theorem ofFields_mapTyped (hτ : PassesChecks τ) (raw : Fields) :
    Options.ofFields (mapTyped τ raw) = (Options.ofFields raw).map (Options.mapTyped τ) := by
  have hpath : (mapTyped τ raw).get? configPathOption.key = raw.get? configPathOption.key := by
    rw [get?_mapTyped]
    cases raw.get? configPathOption.key with
    | none => rfl
    | some v => rw [Option.map_some, typed_configPath]
  unfold Options.ofFields
  rw [checkOptions_mapTyped hτ, hpath]
  cases checkOptions raw with
  | error e => rfl
  | ok c =>
    change (if c.problems.isEmpty = true then _ else _) = Except.map _ (if c.problems.isEmpty = true then _ else _)
    split <;> rfl

theorem merge_mapTyped (fs gs : Fields) : (mapTyped τ fs).merge (mapTyped τ gs) = mapTyped τ (fs.merge gs) :=
  Fields.merge_map (typed τ) fs gs

end Typed

/-! ## Converting -/

section Converting

variable {σ : Text → Text}

/-- Paths that were spelled out before they are read against a directory, or not, are the same once they are
spelled out. -/
theorem OptionType.spellPaths_resolve (hσ : Early σ) (type : OptionType) (base : Text) (v : Value) :
    type.spellPaths σ <$> type.resolve base (type.spell σ v) = type.spell σ <$> type.resolve base v := by
  have hitem : ∀ item, spellText σ (resolvePathValue base (spellText σ item)) = spellText σ (resolvePathValue base item) := by
    intro item
    cases item with
    | text t => exact congrArg Value.text (hσ.resolve base t)
    | _ => rfl
  cases type with
  | path => exact congrArg Except.ok (hitem v)
  | paths =>
    cases v with
    | array items =>
      change Except.ok (Value.array (((items.map (spellText σ)).map (resolvePathValue base)).map (spellText σ))) =
        Except.ok (Value.array ((items.map (resolvePathValue base)).map (spellText σ)))
      simp only [List.map_map]
      exact congrArg (Except.ok ∘ Value.array) (List.map_congr_left fun item _ => hitem item)
    | _ => rfl
  | _ => rfl

/-- A field with its value changed. -/
def typedField (τ : OptionType → Value → Value) (f : Text × Value) : Text × Value := (f.1, typed τ f.1 f.2)

theorem resolveField_spell (hσ : Early σ) (base : Text) (f : Text × Value) :
    typedField (OptionType.spellPaths σ) <$> resolveField base (typedField (OptionType.spell σ) f) =
      typedField (OptionType.spell σ) <$> resolveField base f := by
  have hspec : optionSpec? f.1 = (knownSpec? f.1).or ([configPathOption].find? (·.key == f.1)) := List.find?_append
  cases hk : knownSpec? f.1 with
  | some o =>
    have htyped : ∀ τ v, typedField τ (f.1, v) = (f.1, τ o.type v) := fun τ v => by rw [typedField, typed, hk]
    have hresolve : ∀ v, resolveField base (f.1, v) = (fun w => (f.1, w)) <$> o.type.resolve base v := by
      intro v
      simp only [resolveField, hspec, hk, Option.some_or]
      rfl
    calc typedField (OptionType.spellPaths σ) <$> resolveField base (typedField (OptionType.spell σ) f)
        = (fun w => (f.1, w)) <$> o.type.spellPaths σ <$> o.type.resolve base (o.type.spell σ f.2) := by
          rw [htyped _ f.2, hresolve]
          simp only [Functor.map_map, htyped]
      _ = (fun w => (f.1, w)) <$> o.type.spell σ <$> o.type.resolve base f.2 := by rw [o.type.spellPaths_resolve hσ]
      _ = typedField (OptionType.spell σ) <$> resolveField base f := by
          rw [hresolve f.2]
          simp only [Functor.map_map, htyped]
  | none =>
    have htyped : ∀ τ v, typedField τ (f.1, v) = (f.1, v) := fun τ v => by rw [typedField, typed, hk]
    -- the path of the config is the one key that is known and yet no option
    have hresolve : resolveField base f = .ok f := by
      unfold resolveField
      rw [hspec, hk, Option.none_or]
      split
      · rfl
      · rename_i o ho
        obtain rfl : o = configPathOption := List.mem_singleton.mp (List.mem_of_find?_eq_some ho)
        rfl
    rw [htyped _ f.2, hresolve]
    exact congrArg Except.ok ((htyped _ f.2).trans (htyped _ f.2).symm)

/-- Options that are spelled out are converted with the same outcome, but for paths that are not spelled out yet. -/
theorem convertOptions_spell (hσ : Early σ) (raw : Fields) (base : Text) :
    Checked.mapTyped (OptionType.spellPaths σ) <$> convertOptions (mapTyped (OptionType.spell σ) raw) base =
      Checked.mapTyped (OptionType.spell σ) <$> convertOptions raw base := by
  have hvalues : ∀ fs : Fields,
      mapTyped (OptionType.spellPaths σ) <$> (mapTyped (OptionType.spell σ) fs).mapM (resolveField base) =
        mapTyped (OptionType.spell σ) <$> fs.mapM (resolveField base) := by
    intro fs
    calc mapTyped (OptionType.spellPaths σ) <$> (mapTyped (OptionType.spell σ) fs).mapM (resolveField base)
        = fs.mapM fun f => typedField (OptionType.spellPaths σ) <$> resolveField base (typedField (OptionType.spell σ) f) := by
          change List.map (typedField _) <$> (List.map (typedField _) fs).mapM (resolveField base) = _
          rw [map_mapM, List.mapM_map]
          rfl
      _ = fs.mapM fun f => typedField (OptionType.spell σ) <$> resolveField base f :=
          mapM_congr fun f _ => resolveField_spell hσ base f
      _ = mapTyped (OptionType.spell σ) <$> fs.mapM (resolveField base) := (map_mapM _ _ _).symm
  have hconvert : ∀ τ raw, Checked.mapTyped τ <$> convertOptions raw base = do
      let checked ← checkOptions raw
      let values ← mapTyped τ <$> checked.values.mapM (resolveField base)
      return { checked with values } := by
    intro τ raw
    simp only [convertOptions, map_bind, map_pure, bind_map_left]
    rfl
  rw [hconvert, hconvert, checkOptions_mapTyped (passesChecks_spell σ)]
  change Checked.mapTyped _ <$> checkOptions raw >>= _ = _
  rw [bind_map_left]
  refine bind_congr fun c => ?_
  rw [← hvalues]
  rfl

end Converting

/-! ## Settings -/

def spellOptions (σ : Text → Text) : Value → Value
  | .object fields => .object (mapTyped (OptionType.spell σ) fields)
  | v => v

def spellSetting (σ : Text → Text) (key : Text) (v : Value) : Value :=
  if [Text.of "files", Text.of "include", Text.of "exclude"].contains key then spellTexts σ v
  else if key = Text.of "compilerOptions" then spellOptions σ v
  else v

/-- A config with every path setting spelled out. -/
def spellOut (σ : Text → Text) (config : Fields) : Fields := config.map fun f => (f.1, spellSetting σ f.1 f.2)

/-- The settings of a config, spelled out. -/
def TopLevel.spell (σ : Text → Text) (top : TopLevel) : TopLevel where
  entries := top.entries
  files := top.files.map (List.map σ)
  includes := top.includes.map (List.map σ)
  excludes := top.excludes.map (List.map σ)
  options := mapTyped (OptionType.spell σ) top.options

section Settings

variable {α : Type} {config : Fields} {key : String} {check : Value → Except Fault α}

theorem setting_some {v : Value} (hv : config.get? (Text.of key) = some v) (hne : v ≠ .null) : setting config key check =
    match check v with
    | .ok a => (some a, [])
    | .error fault => (none, [fault.problem (Text.of key)]) := by
  unfold setting
  rw [hv]
  cases v <;> first | exact absurd rfl hne | rfl

/-- A setting whose value is changed so that the check notices nothing has its outcome changed alike. -/
theorem setting_map {g : Text → Value → Value} {φ : α → α} (hnull : ∀ v, g (Text.of key) v = .null ↔ v = .null)
    (hcheck : ∀ v, check (g (Text.of key) v) = φ <$> check v) :
    setting (config.map fun f => (f.1, g f.1 f.2)) key check =
      ((setting config key check).1.map φ, (setting config key check).2) := by
  have hget : Fields.get? (config.map fun f => (f.1, g f.1 f.2)) (Text.of key) =
      (config.get? (Text.of key)).map (g (Text.of key)) := Fields.get?_map g config _
  cases hv : config.get? (Text.of key) with
  | none => simp [setting, hget, hv]
  | some v =>
    rw [hv, Option.map_some] at hget
    by_cases hne : v = .null
    · rw [(hnull v).mpr hne] at hget
      simp [setting, hget, hv, hne]
    · rw [setting_some hget (mt (hnull v).mp hne), setting_some hv hne, hcheck]
      cases check v <;> rfl

end Settings

theorem spellTexts_eq_null_iff {σ : Text → Text} {v : Value} : spellTexts σ v = .null ↔ v = .null := by
  cases v <;> simp [spellTexts]

theorem setting_spellOut_list (σ : Text → Text) (config : Fields) {key : String}
    (hkey : [Text.of "files", Text.of "include", Text.of "exclude"].contains (Text.of key) = true) :
    setting (spellOut σ config) key checkTextList =
      ((setting config key checkTextList).1.map (List.map σ), (setting config key checkTextList).2) := by
  have hspell : ∀ v, spellSetting σ (Text.of key) v = spellTexts σ v := fun v => if_pos hkey
  refine setting_map (fun v => ?_) fun v => ?_
  · rw [hspell]
    exact spellTexts_eq_null_iff
  · rw [hspell]
    exact checkTextList_spellTexts σ v

theorem setting_spellOut_options (σ : Text → Text) (config : Fields) :
    setting (spellOut σ config) "compilerOptions" checkObject = ((setting config "compilerOptions" checkObject).1.map (mapTyped (OptionType.spell σ)),
      (setting config "compilerOptions" checkObject).2) := by
  have hspell : ∀ v, spellSetting σ (Text.of "compilerOptions") v = spellOptions σ v := fun _ => rfl
  refine setting_map (fun v => ?_) fun v => ?_
  · rw [hspell]
    cases v <;> simp [spellOptions]
  · rw [hspell]
    cases v <;> rfl

theorem setting_spellOut_extends (σ : Text → Text) (config : Fields) :
    setting (spellOut σ config) "extends" checkExtends = setting config "extends" checkExtends := by
  have hspell : ∀ v, spellSetting σ (Text.of "extends") v = v := fun _ => rfl
  have hcheck : ∀ v, checkExtends (spellSetting σ (Text.of "extends") v) = id <$> checkExtends v := by
    intro v
    rw [hspell, id_map]
  refine (setting_map (fun v => by rw [hspell]) hcheck).trans ?_
  rw [Option.map_id, id]

theorem validEntries_spellOut (σ : Text → Text) (config : Fields) : validEntries (spellOut σ config) = validEntries config := by
  rw [validEntries, setting_spellOut_extends, validEntries]

/-- A config that is spelled out has its settings spelled out, and the same problems. -/
theorem topLevel_spellOut (σ : Text → Text) (config : Fields) :
    topLevel (spellOut σ config) = (fun r => (r.1.spell σ, r.2)) <$> topLevel config := by
  have hkeys : (spellOut σ config).any (Text.hasSurrogate ·.1) = config.any (Text.hasSurrogate ·.1) := by
    simp [spellOut, List.any_map, Function.comp_def]
  unfold topLevel
  rw [hkeys, setting_spellOut_extends, setting_spellOut_options, setting_spellOut_list σ config (by decide),
    setting_spellOut_list σ config (by decide), setting_spellOut_list σ config (by decide)]
  split
  · rfl
  · rcases setting config "compilerOptions" checkObject with ⟨_ | options, _⟩ <;> rfl

end TsProject.Config
