/-
  TsProject.Proofs.Config.Conversion — converted options, converted again.

  Conversion puts options in the order of the table, words in lower case and paths in
  their resolved form. A path that is resolved starts at the root and is in normal form,
  so it does not matter any more against which directory it is read, and a second
  conversion has nothing left to do. A path that names a drive is the exception: it is
  taken as it is written, and `..` can take the drive away.

  - `resolvePath_resolvePath`: a resolved path stays where it is.
  - `checkedOptions_map`: checked values, changed within their types, are checked again
    without loss.
  - `convertOptions_fixed`: so converted options stay as they are, for every directory,
    and so they do as options that exist already.
-/

import TsProject.Proofs.Config.KeyWise
import TsProject.Proofs.Config.Totality
import TsProject.Proofs.Normal

namespace TsProject.Config

open TsProject.Path

/-! ## Paths -/

theorem not_template_of_startsAtRoot {p : Text} (hp : startsAtRoot p = true) : Text.startsWith p configDirTemplate = false := by
  obtain ⟨t, rfl⟩ := startsAtRoot_iff.mp hp
  rfl

theorem resolvePath_resolvePath {b₁ t : Text} (hb : startsAtRoot b₁ = true) (ht : ¬ IsDriveRooted t) (b₂ : Text) :
    resolvePath b₂ (resolvePath b₁ t) = resolvePath b₁ t := by
  by_cases htemplate : Text.startsWith t configDirTemplate = true
  · simp only [resolvePath, htemplate, if_true]
  · have hmoved : resolvePath b₁ t = Path.resolve t b₁ := by rw [resolvePath, if_neg htemplate]
    have hstart := startsAtRoot_resolve hb ht
    rw [hmoved, resolvePath, not_template_of_startsAtRoot hstart, if_neg (by simp),
      resolve_of_isRooted (isRooted_of_startsAtRoot hstart)]
    exact normalize_normalize _

/-- A path on a drive can lose it, and move again. -/
example : resolvePath (Text.of "/b") (resolvePath (Text.of "/a") (Text.of "c:/../x")) = Text.of "/b/x" := rfl

/-- The paths a value holds for an option of a type. -/
def OptionType.pathTexts : OptionType → Value → List Text
  | .path, .text t => [t]
  | .paths, .array items => items.filterMap Value.text?
  | _, _ => []

theorem OptionType.pathTexts_of_check {type : OptionType} {v w : Value} (h : type.check v = .ok w) :
    type.pathTexts w = type.pathTexts v := by
  obtain ⟨-, rfl⟩ := check_ok_iff.mp h
  cases type <;> cases v <;> rfl

theorem OptionType.resolved_resolved {type : OptionType} {v : Value} {b₁ : Text} (hb : startsAtRoot b₁ = true)
    (hv : ∀ t ∈ type.pathTexts v, ¬ IsDriveRooted t) (b₂ : Text) :
    type.resolved b₂ (type.resolved b₁ v) = type.resolved b₁ v := by
  fun_cases OptionType.resolved type b₁ v with
  | case1 v =>
    cases v with
    | text t => exact congrArg Value.text (resolvePath_resolvePath hb (hv t (by simp [pathTexts])) b₂)
    | _ => rfl
  | case2 items =>
    refine congrArg Value.array ?_
    rw [List.map_map]
    refine List.map_congr_left fun item hitem => ?_
    cases item with
    | text t =>
      have ht : t ∈ OptionType.paths.pathTexts (.array items) := List.mem_filterMap.mpr ⟨_, hitem, rfl⟩
      exact congrArg Value.text (resolvePath_resolvePath hb (hv t ht) b₂)
    | _ => rfl
  | case3 =>
    rename_i hpath hpaths
    cases type with
    | path => exact (hpath rfl).elim
    | paths => cases v with
      | array items => exact (hpaths items rfl rfl).elim
      | _ => rfl
    | _ => rfl

/-- No path among some options names a drive. -/
def NamesNoDrive (raw : Fields) : Prop :=
  ∀ o ∈ optionSpecs, ∀ v ∈ raw.get? o.key, ∀ t ∈ o.type.pathTexts v, ¬ IsDriveRooted t

/-! ## Options in order -/

variable {raw : Fields}

theorem values_checkedOptions_of_settled {fs : Fields} (h : Settled fs) : (checkedOptions fs).values =
    optionSpecs.flatMap fun o => ((fs.get? o.key).map fun v => (o.key, v)).toList := by
  refine List.flatMap_congr fun o ho => ?_
  rw [values_checkOption, (h.declared ho).2]

/-- Values that passed, each changed within its type, pass as they are. -/
theorem checkedOptions_map (raw : Fields) {g : Text → Value → Value}
    (hg : ∀ o ∈ optionSpecs, ∀ v, Keeps o.type v → Keeps o.type (g o.key v)) :
    checkedOptions ((checkedOptions raw).values.map fun f => (f.1, g f.1 f.2)) =
      { values := (checkedOptions raw).values.map fun f => (f.1, g f.1 f.2) } := by
  let fs : Fields := (checkedOptions raw).values.map fun f => (f.1, g f.1 f.2)
  have hsettled : Settled fs := (settled_checkedOptions raw).map hg
  have hvalues : (checkedOptions fs).values = fs := by
    rw [values_checkedOptions_of_settled hsettled]
    change _ = List.map _ (List.flatMap _ _)
    rw [List.map_flatMap]
    refine List.flatMap_congr fun o ho => ?_
    rw [Fields.get?_map, get?_checkedOptions, knownSpec?_key ho, values_checkOption]
    simp only [Option.bind_some]
    cases declared? raw o <;> rfl
  change checkedOptions fs = { values := fs }
  calc checkedOptions fs
      = ⟨(checkedOptions fs).values, (checkedOptions fs).problems⟩ := rfl
    _ = { values := fs } := by rw [hvalues, hsettled.problems]

/-! ## Converting again -/

/-- The values that conversion gives. -/
theorem convertOptions_ok_iff {base : Text} {c : Checked} : convertOptions raw base = .ok c ↔
    ((∀ f ∈ raw, Text.hasSurrogate f.1 = false) ∧ ∀ key ∈ pathLists, raw.get? key ≠ some .null) ∧
      c = ⟨(checkedOptions raw).values.map fun f => (f.1, resolvedAt base f.1 f.2), (checkedOptions raw).problems⟩ := by
  constructor
  · intro h
    have hkeys := validKeys_of_convertOptions h
    have hlists := lists_of_convertOptions h
    rw [convertOptions_regular hkeys hlists] at h
    exact ⟨⟨hkeys, hlists⟩, (Except.ok.inj h).symm⟩
  · rintro ⟨⟨hkeys, hlists⟩, rfl⟩
    exact convertOptions_regular hkeys hlists base

/-- A list of paths is null after conversion only if it was null before. -/
theorem get?_converted_ne_null (hlists : ∀ key ∈ pathLists, raw.get? key ≠ some .null) (base : Text) :
    ∀ key ∈ pathLists,
      Fields.get? ((checkedOptions raw).values.map fun f => (f.1, resolvedAt base f.1 f.2)) key ≠ some .null := by
  intro key hkey hnull
  obtain ⟨o, ho, rfl, htype⟩ := type_of_mem_pathLists key hkey
  rw [Fields.get?_map (resolvedAt base), get?_checkedOptions, get?_converted] at hnull
  obtain ⟨v, hv, hverdict⟩ := Option.bind_eq_some_iff.mp hnull
  have hkept : verdict base o.key v = .ok .null := by
    cases hr : verdict base o.key v with
    | error p => rw [hr] at hverdict; cases hverdict
    | ok w =>
      rw [hr] at hverdict
      rw [Option.some.inj hverdict]
  obtain ⟨o', ho', hkeys, haccepts, hvalue⟩ := verdict_ok_iff.mp hkept
  have hsame : o' = o := Option.some.inj ((knownSpec?_key ho').symm.trans ((congrArg knownSpec? hkeys).trans (knownSpec?_key ho)))
  subst hsame
  rw [htype] at haccepts hvalue
  cases haccepts with
  | null => exact hlists _ hkey hv
  | paths ts => cases hvalue

/-- Converted options are converted already, for every directory: no path moves, no word changes, and
nothing is refused. They are options as they are, and stay so where they exist before a layer that does not
set them; as the options of a layer they are set over any others. -/
theorem convertOptions_fixed {b₁ : Text} (hb : startsAtRoot b₁ = true) (hdrive : NamesNoDrive raw) {c : Checked}
    (hc : convertOptions raw b₁ = .ok c) (b₂ : Text) :
    convertOptions c.values b₂ = .ok { values := c.values } ∧
      Options.ofFields c.values = .ok { values := c.values } ∧
      (∀ layer : Layer, Settled layer.options →
        ∃ options, effectiveOptions b₂ (some { values := c.values }) layer = .ok options ∧
          ∀ key, layer.options.get? key = none → options.values.get? key = c.values.get? key) ∧
      ∀ existing : Option Options, (∀ o ∈ existing, Settled o.values) →
        ∃ options, effectiveOptions b₂ existing { options := c.values } = .ok options ∧
          ∀ key v, c.values.get? key = some v → options.values.get? key = some (substitute b₂ v) := by
  obtain ⟨⟨-, hlists⟩, rfl⟩ := convertOptions_ok_iff.mp hc
  have hkeeps : ∀ o ∈ optionSpecs, ∀ v, Keeps o.type v → Keeps o.type (resolvedAt b₁ o.key v) := by
    intro o ho v hv
    rw [resolvedAt_key ho]
    exact hv.resolved b₁
  have hsettled := (settled_checkedOptions raw).map hkeeps
  have hchecked := checkedOptions_map raw hkeeps
  have hlists' := get?_converted_ne_null hlists b₁
  have hfixed : ∀ f ∈ (checkedOptions raw).values,
      resolvedAt b₂ f.1 (resolvedAt b₁ f.1 f.2) = resolvedAt b₁ f.1 f.2 := by
    rintro ⟨key, w⟩ hf
    obtain ⟨o, ho, v, rfl, hv, hcheck⟩ := mem_checkedOptions hf
    rw [resolvedAt_key ho, resolvedAt_key ho]
    refine OptionType.resolved_resolved hb (fun t ht => hdrive o ho v hv t ?_) b₂
    rwa [← OptionType.pathTexts_of_check hcheck]
  simp only
  generalize hvalues : (checkedOptions raw).values.map (fun f => (f.1, resolvedAt b₁ f.1 f.2)) = values at *
  refine ⟨?_, ?_, fun layer hlayer => ?_, fun existing hexisting => ?_⟩
  · rw [convertOptions_regular hsettled.validKeys hlists', hchecked]
    have hsame : values.map (fun f => (f.1, resolvedAt b₂ f.1 f.2)) = values := by
      rw [← hvalues, List.map_map]
      exact List.map_congr_left fun f hf => Prod.ext rfl (hfixed f hf)
    rw [hsame]
  · rw [ofFields_eq_of_settled hsettled, hchecked]
  · have hexisting : ∀ o ∈ (some { values := values } : Option Options), Settled o.values :=
      fun o ho => Option.some.inj ho ▸ hsettled
    obtain ⟨options, hoptions, hget⟩ := effectiveOptions_of_settled hlayer hexisting b₂
    refine ⟨options, hoptions, fun key hkey => ?_⟩
    rw [hget, hkey]
    rfl
  · obtain ⟨options, hoptions, hget⟩ :=
      effectiveOptions_of_settled (l := { options := values }) hsettled hexisting b₂
    refine ⟨options, hoptions, fun key v hv => ?_⟩
    rw [hget, hv]
    rfl

/-- Options out of order: a word in capitals, paths of every kind, a null and a value of the wrong type. -/
def scatteredOptions : Fields :=
  [(Text.of "outDir", .text (Text.of "..\\out")),
   (Text.of "rootDirs", .texts [Text.of "src", Text.of "$\x7bconfigDir\x7d/gen", []]),
   (Text.of "target", .text (Text.of "ES2022")), (Text.of "composite", .text (Text.of "yes")), (Text.of "strict", .null)]

def convertedScattered : Checked where
  values :=
    [(Text.of "target", .text (Text.of "es2022")),
     (Text.of "rootDirs", .texts [Text.of "/proj/app/src", Text.of "$\x7bconfigDir\x7d/gen", Text.of "/proj/app"]),
     (Text.of "outDir", .text (Text.of "/proj/out")), (Text.of "strict", .null)]
  problems := [.wrongType (Text.of "composite") (Text.of "boolean")]

set_option maxRecDepth 10000 in
theorem convertOptions_fixed_scattered :
    (startsAtRoot (Text.of "/proj/app") = true ∧ NamesNoDrive scatteredOptions ∧
      convertOptions scatteredOptions (Text.of "/proj/app") = .ok convertedScattered) ∧
      convertOptions convertedScattered.values (Text.of "c:/other") = .ok { values := convertedScattered.values } ∧
      Options.ofFields convertedScattered.values = .ok { values := convertedScattered.values } := by
  have hdrive : NamesNoDrive scatteredOptions := by
    unfold NamesNoDrive
    decide
  have hconvert : convertOptions scatteredOptions (Text.of "/proj/app") = .ok convertedScattered := rfl
  obtain ⟨hagain, hoptions, -⟩ := convertOptions_fixed (by rfl) hdrive hconvert (Text.of "c:/other")
  exact ⟨⟨rfl, hdrive, hconvert⟩, hagain, hoptions⟩

end TsProject.Config
