/-
  TsProject.Proofs.Config.Validation — what checking the options of a config gives.

  A config validly declares an option when it sets it to a value that passes. Fields of
  values that pass unchanged are settled; they may be merged, and checking them again
  loses nothing.

  - `checkOptions_ok`: the values and the problems, option by option.
  - `convertOptions_regular`: what conversion gives where it cannot fail.
  - `ofFields_of_settled`: settled fields are options as they are.
-/

import TsProject.Config.Resolution
import TsProject.Proofs.Config.Kept
import TsProject.Proofs.Fields
import Mathlib.Data.List.Nodup

/-! ## Names -/

namespace TsProject.Text

theorem of_injective : Function.Injective Text.of := by
  intro a b hab
  have hchars : a.toList = b.toList := List.map_injective_iff.mpr (fun _ _ h => Char.toNat_inj.mp h) hab
  exact String.toList_inj.mp hchars

theorem hasSurrogate_of (s : String) : hasSurrogate (of s) = false := by
  unfold hasSurrogate of
  rw [List.any_map, List.any_eq_false]
  intro c _ hc
  have hbetween : 0xD800 ≤ c.toNat ∧ c.toNat ≤ 0xDFFF := by simpa [CodePoint.isSurrogate, CodePoint.isBetween] using hc
  rcases c.valid with hv | hv
  · exact Nat.not_lt.mpr hbetween.1 hv
  · exact Nat.not_lt.mpr hbetween.2 hv.1

end TsProject.Text

namespace TsProject.Config

open CodePoint

/-! ## The table -/

theorem nodup_names : ((optionSpecs ++ [configPathOption]).map OptionSpec.name).Nodup := by
  -- The bytes of a name, read as one number, are cheaper to compare than strings are.
  have hnumbers : (((optionSpecs ++ [configPathOption]).map OptionSpec.name).map fun s =>
      s.toByteArray.data.toList.foldl (fun n c => 256 * n + c.toNat) 0).Nodup := by
    decide +kernel
  exact hnumbers.of_map _

theorem nodup_keys : ((optionSpecs ++ [configPathOption]).map OptionSpec.key).Nodup := by
  have hkeys : (OptionSpec.key : OptionSpec → Text) = Text.of ∘ OptionSpec.name := rfl
  rw [hkeys, ← List.map_map]
  exact List.Nodup.map Text.of_injective nodup_names

theorem nodup_known : (optionSpecs.map OptionSpec.key).Nodup := by
  have hkeys := nodup_keys
  rw [List.map_append] at hkeys
  exact (List.nodup_append.mp hkeys).1

/-- The options that hold lists of paths, which cannot be set to null. -/
def pathLists : List Text := [Text.of "rootDirs", Text.of "typeRoots"]

theorem key_mem_pathLists : ∀ o ∈ optionSpecs, o.type = .paths → o.key ∈ pathLists := by decide

def knownSpec? (key : Text) : Option OptionSpec := optionSpecs.find? (·.key == key)

theorem find?_of_nodup {specs : List OptionSpec} (h : (specs.map OptionSpec.key).Nodup) {o : OptionSpec} (ho : o ∈ specs) :
    specs.find? (·.key == o.key) = some o := by
  induction specs with
  | nil => cases ho
  | cons x specs ih =>
    obtain ⟨hx, hspecs⟩ := List.nodup_cons.mp h
    rcases List.mem_cons.mp ho with rfl | ho
    · simp
    · have hne : x.key ≠ o.key := fun e => hx (e ▸ List.mem_map_of_mem ho)
      simpa [hne] using ih hspecs ho

theorem knownSpec?_key {o : OptionSpec} (ho : o ∈ optionSpecs) : knownSpec? o.key = some o :=
  find?_of_nodup nodup_known ho

theorem optionSpec?_key {o : OptionSpec} (ho : o ∈ optionSpecs) : optionSpec? o.key = some o :=
  find?_of_nodup nodup_keys (List.mem_append_left _ ho)

theorem knownSpec?_some {key : Text} {o : OptionSpec} (h : knownSpec? key = some o) : o ∈ optionSpecs ∧ o.key = key :=
  ⟨List.mem_of_find?_eq_some h, by simpa using List.find?_some h⟩

theorem configPath_not_known {o : OptionSpec} (ho : o ∈ optionSpecs) : o.key ≠ configPathOption.key := by
  have hkeys := nodup_keys
  rw [List.map_append] at hkeys
  exact (List.nodup_append.mp hkeys).2.2 _ (List.mem_map_of_mem ho) _ (by simp)

/-! ## Checking all options -/

theorem foldl_append_checked (l : List Checked) (c : Checked) :
    l.foldl Checked.append c = ⟨c.values ++ l.flatMap (·.values), c.problems ++ l.flatMap (·.problems)⟩ := by
  induction l generalizing c with
  | nil => simp
  | cons x l ih =>
    rw [List.foldl_cons, ih]
    simp [Checked.append]

theorem known_eq (raw : Fields) (specs : List OptionSpec) : (specs.map (checkOption raw)).foldl Checked.append {} =
    ⟨specs.flatMap (fun o => (checkOption raw o).values), specs.flatMap (fun o => (checkOption raw o).problems)⟩ := by
  rw [foldl_append_checked]
  simp [List.flatMap_map]

/-- What checking the options gives where no key is invalid. -/
def checkedOptions (raw : Fields) : Checked where
  values := optionSpecs.flatMap fun o => (checkOption raw o).values
  problems := optionSpecs.flatMap (fun o => (checkOption raw o).problems) ++
    (checkOption raw configPathOption).problems ++
    ((raw.map (·.1)).filter fun key => (optionSpec? key).isNone).map unknownProblem

theorem checkOptions_eq (raw : Fields) :
    checkOptions raw = if raw.any (Text.hasSurrogate ·.1) then .error .invalidKey else .ok (checkedOptions raw) := by
  rw [checkOptions, known_eq]
  rfl

theorem checkOptions_ok {raw : Fields} {c : Checked} (h : checkOptions raw = .ok c) : c = checkedOptions raw := by
  rw [checkOptions_eq] at h
  by_cases hk : raw.any (Text.hasSurrogate ·.1) = true
  · rw [if_pos hk] at h
    cases h
  · rw [if_neg hk] at h
    exact (Except.ok.inj h).symm

theorem validKeys_iff {fs : Fields} :
    (∀ f ∈ fs, Text.hasSurrogate f.1 = false) ↔ ¬ fs.any (Text.hasSurrogate ·.1) = true := by
  simp

theorem checkOptions_of_validKeys {raw : Fields} (h : ∀ f ∈ raw, Text.hasSurrogate f.1 = false) :
    checkOptions raw = .ok (checkedOptions raw) := by
  have hk := validKeys_iff.mp h
  rw [checkOptions_eq, if_neg hk]

/-- A problem with an option is about its type or its choices. -/
theorem problem_of_checkOption {raw : Fields} {o : OptionSpec} {p : Problem} (h : p ∈ (checkOption raw o).problems) :
    ∃ fault : Fault, p = fault.problem o.key := by
  unfold checkOption at h
  split at h
  · cases h
  · split at h
    · cases h
    · rename_i fault _
      exact ⟨fault, List.mem_singleton.mp h⟩

/-! ## Declared values -/

/-- The value a config validly gives an option. -/
def declared? (raw : Fields) (o : OptionSpec) : Option Value := (raw.get? o.key).bind fun v => (o.type.check v).toOption

theorem values_checkOption (raw : Fields) (o : OptionSpec) :
    (checkOption raw o).values = ((declared? raw o).map fun v => (o.key, v)).toList := by
  unfold checkOption declared?
  cases raw.get? o.key with
  | none => rfl
  | some v =>
    simp only [Option.bind_some]
    cases o.type.check v <;> rfl

theorem mem_checkedOptions {raw : Fields} {f : Text × Value} (h : f ∈ (checkedOptions raw).values) :
    ∃ o ∈ optionSpecs, ∃ v, f.1 = o.key ∧ raw.get? o.key = some v ∧ o.type.check v = .ok f.2 := by
  obtain ⟨o, ho, hf⟩ := List.mem_flatMap.mp h
  rw [values_checkOption, Option.mem_toList, Option.map_eq_some_iff] at hf
  obtain ⟨w, hw, rfl⟩ := hf
  obtain ⟨v, hv, hcheck⟩ := Option.bind_eq_some_iff.mp hw
  cases hc : o.type.check v with
  | error fault => rw [hc] at hcheck; cases hcheck
  | ok u =>
    rw [hc] at hcheck
    obtain rfl := Option.some.inj hcheck
    exact ⟨o, ho, v, rfl, hv, hc⟩

theorem get?_flatMap_values {specs : List OptionSpec} (h : (specs.map OptionSpec.key).Nodup) (raw : Fields) (key : Text) :
    Fields.get? (specs.flatMap fun o => (checkOption raw o).values) key =
      (specs.find? (·.key == key)).bind (declared? raw) := by
  induction specs with
  | nil => rfl
  | cons o specs ih =>
    obtain ⟨ho, hspecs⟩ := List.nodup_cons.mp h
    rw [List.flatMap_cons, Fields.get?_append, ih hspecs, values_checkOption]
    by_cases hk : o.key = key
    · -- no other option has the key
      have hnone : specs.find? (·.key == key) = none := by
        refine List.find?_eq_none.mpr fun x hx => ?_
        rw [beq_iff_eq]
        exact fun e => ho (hk.trans e.symm ▸ List.mem_map_of_mem hx)
      rw [hnone]
      simp only [List.find?_cons, hk, beq_self_eq_true, Option.bind_some]
      cases declared? raw o with
      | none => rfl
      | some v => simp [Fields.get?_cons]
    · have hfind : (o :: specs).find? (·.key == key) = specs.find? (·.key == key) := by simp [hk]
      rw [hfind]
      cases declared? raw o with
      | none => rfl
      | some v => simp [hk, Fields.get?]

theorem get?_checkedOptions (raw : Fields) (key : Text) :
    (checkedOptions raw).values.get? key = (knownSpec? key).bind (declared? raw) :=
  get?_flatMap_values nodup_known raw key

/-! ## Settled fields -/

/-- Options whose values pass unchanged, each once. -/
structure Settled (fs : Fields) : Prop where
  distinct : fs.Distinct
  known : ∀ f ∈ fs, ∃ o ∈ optionSpecs, o.key = f.1 ∧ Keeps o.type f.2

theorem settled_nil : Settled [] := ⟨List.nodup_nil, by simp⟩

theorem settled_checkedOptions (raw : Fields) : Settled (checkedOptions raw).values where
  distinct := by
    have hsub : ∀ specs : List OptionSpec,
        ((specs.flatMap fun o => (checkOption raw o).values).map (·.1)).Sublist (specs.map OptionSpec.key) := by
      intro specs
      induction specs with
      | nil => exact List.Sublist.refl _
      | cons o specs ih =>
        rw [List.flatMap_cons, List.map_append, values_checkOption]
        cases declared? raw o with
        | none => exact ih.cons _
        | some v => exact ih.cons_cons o.key
    exact nodup_known.sublist (hsub optionSpecs)
  known := by
    intro f hf
    obtain ⟨o, ho, v, hk, -, hc⟩ := mem_checkedOptions hf
    exact ⟨o, ho, hk.symm, keeps_of_check hc⟩

theorem Settled.merge {fs gs : Fields} (hf : Settled fs) (hg : Settled gs) : Settled (fs.merge gs) where
  distinct := Fields.distinct_merge hf.distinct gs
  known f h := (Fields.mem_merge h).elim (hf.known f) (hg.known f)

theorem Settled.map {fs : Fields} (h : Settled fs) {g : Text → Value → Value}
    (hg : ∀ o ∈ optionSpecs, ∀ v, Keeps o.type v → Keeps o.type (g o.key v)) :
    Settled (fs.map fun f => (f.1, g f.1 f.2)) where
  distinct := by
    have : (fs.map fun f => (f.1, g f.1 f.2)).map (·.1) = fs.map (·.1) := by simp
    rw [Fields.Distinct, this]
    exact h.distinct
  known := by
    intro f hf
    obtain ⟨f', hf', rfl⟩ := List.mem_map.mp hf
    obtain ⟨o, ho, hk, hv⟩ := h.known f' hf'
    exact ⟨o, ho, hk, hk ▸ hg o ho f'.2 hv⟩

theorem Settled.get? {fs : Fields} (h : Settled fs) {o : OptionSpec} (ho : o ∈ optionSpecs) {v : Value}
    (hv : fs.get? o.key = some v) : Keeps o.type v := by
  obtain ⟨o', ho', hk, hkeep⟩ := h.known _ (Fields.mem_of_get? hv)
  have : o' = o := Option.some.inj ((knownSpec?_key ho').symm.trans ((congrArg knownSpec? hk).trans (knownSpec?_key ho)))
  exact this ▸ hkeep

theorem Settled.validKeys {fs : Fields} (h : Settled fs) : ∀ f ∈ fs, Text.hasSurrogate f.1 = false := by
  intro f hf
  obtain ⟨o, ho, hk, -⟩ := h.known f hf
  exact hk ▸ Text.hasSurrogate_of o.name

/-- Every option that is set is declared with the value it has. -/
theorem Settled.declared {fs : Fields} (h : Settled fs) {o : OptionSpec} (ho : o ∈ optionSpecs) :
    (checkOption fs o).problems = [] ∧ declared? fs o = fs.get? o.key := by
  cases hv : fs.get? o.key with
  | none => simp [checkOption, declared?, hv]
  | some v =>
    have hc := check_of_keeps (h.get? ho hv)
    simp [checkOption, declared?, hv, hc, Except.toOption]

theorem Settled.get?_configPath {fs : Fields} (h : Settled fs) : fs.get? configPathOption.key = none := by
  refine Fields.get?_eq_none_iff.mpr fun hm => ?_
  obtain ⟨f, hf, hk⟩ := List.mem_map.mp hm
  obtain ⟨o, ho, hko, -⟩ := h.known f hf
  exact configPath_not_known ho (hko.trans hk)

theorem Settled.problems {fs : Fields} (h : Settled fs) : (checkedOptions fs).problems = [] := by
  have hpath : (checkOption fs configPathOption).problems = [] := by simp only [checkOption, h.get?_configPath]
  simp only [checkedOptions, hpath, List.append_eq_nil_iff, List.map_eq_nil_iff, List.filter_eq_nil_iff,
    List.flatMap_eq_nil_iff]
  refine ⟨⟨fun o ho => (h.declared ho).1, trivial⟩, fun key hkey => ?_⟩
  obtain ⟨f, hf, rfl⟩ := List.mem_map.mp hkey
  obtain ⟨o, ho, hk, -⟩ := h.known f hf
  rw [← hk, optionSpec?_key ho]
  simp

/-- Checking settled fields only puts them in the order of the table. -/
theorem ofFields_eq_of_settled {fs : Fields} (h : Settled fs) :
    Options.ofFields fs = .ok { values := (checkedOptions fs).values } := by
  unfold Options.ofFields
  rw [checkOptions_of_validKeys h.validKeys]
  change (if (checkedOptions fs).problems.isEmpty = true then _ else _) = _
  rw [h.problems, h.get?_configPath]
  rfl

/-- Settled fields are options as they are. -/
theorem ofFields_of_settled {fs : Fields} (h : Settled fs) :
    ∃ o, Options.ofFields fs = .ok o ∧ ∀ key, o.values.get? key = fs.get? key := by
  refine ⟨_, ofFields_eq_of_settled h, fun key => ?_⟩
  change (checkedOptions fs).values.get? key = _
  rw [get?_checkedOptions]
  cases hk : knownSpec? key with
  | none =>
    refine (Fields.get?_eq_none_iff.mpr fun hm => ?_).symm
    obtain ⟨f, hf, rfl⟩ := List.mem_map.mp hm
    obtain ⟨o, ho, hko, -⟩ := h.known f hf
    rw [← hko, knownSpec?_key ho] at hk
    cases hk
  | some o =>
    obtain ⟨ho, rfl⟩ := knownSpec?_some hk
    exact (h.declared ho).2

theorem settled_of_ofFields {raw : Fields} {o : Options} (h : Options.ofFields raw = .ok o) : Settled o.values := by
  unfold Options.ofFields at h
  cases hc : checkOptions raw with
  | error e => rw [hc] at h; cases h
  | ok checked =>
    rw [hc] at h
    change (if checked.problems.isEmpty = true then _ else _) = _ at h
    split at h
    · rw [← Except.ok.inj h]
      change Settled checked.values
      rw [checkOptions_ok hc]
      exact settled_checkedOptions raw
    · cases h

/-! ## Converting -/

theorem convertOptions_ok {raw : Fields} {base : Text} {c : Checked} (h : convertOptions raw base = .ok c) :
    c.problems = (checkedOptions raw).problems := by
  unfold convertOptions at h
  cases hc : checkOptions raw with
  | error e => rw [hc] at h; cases h
  | ok checked =>
    rw [hc] at h
    change (checked.values.mapM (resolveField base)).bind _ = _ at h
    cases hv : checked.values.mapM (resolveField base) with
    | error e => rw [hv] at h; cases h
    | ok values =>
      rw [hv] at h
      rw [← Except.ok.inj h, ← checkOptions_ok hc]

/-- The value of a known option with its paths read against a directory. -/
def resolvedAt (base key : Text) (v : Value) : Value :=
  match knownSpec? key with
  | none => v
  | some o => o.type.resolved base v

theorem resolvedAt_key {o : OptionSpec} (ho : o ∈ optionSpecs) (base : Text) (v : Value) :
    resolvedAt base o.key v = o.type.resolved base v := by
  rw [resolvedAt, knownSpec?_key ho]

theorem Keeps.resolve_eq {type : OptionType} {v : Value} (h : Keeps type v) (base : Text)
    (hnull : type = .paths → v ≠ .null) : type.resolve base v = .ok (type.resolved base v) := by
  cases h with
  | @null type =>
    cases type with
    | paths => exact absurd rfl (hnull rfl)
    | _ => rfl
  | _ => rfl

theorem mapM_ok {α β ε : Type} {f : α → Except ε β} {g : α → β} {l : List α} (h : ∀ a ∈ l, f a = .ok (g a)) :
    l.mapM f = .ok (l.map g) := by
  induction l with
  | nil => rfl
  | cons a l ih =>
    obtain ⟨ha, hl⟩ := List.forall_mem_cons.mp h
    rw [List.mapM_cons, ha, ih hl]
    rfl

/-- Conversion succeeds where keys are valid and no list of paths is null. -/
theorem convertOptions_regular {raw : Fields} (hkeys : ∀ f ∈ raw, Text.hasSurrogate f.1 = false)
    (hlists : ∀ key ∈ pathLists, raw.get? key ≠ some .null) (base : Text) : convertOptions raw base =
      .ok ⟨(checkedOptions raw).values.map fun f => (f.1, resolvedAt base f.1 f.2), (checkedOptions raw).problems⟩ := by
  have hfield : ∀ f ∈ (checkedOptions raw).values, resolveField base f = .ok (f.1, resolvedAt base f.1 f.2) := by
    rintro ⟨key, w⟩ hf
    obtain ⟨o, ho, v, rfl, hv, hc⟩ := mem_checkedOptions hf
    have hnull : o.type = .paths → w ≠ .null := by
      rintro ht rfl
      rw [ht] at hc
      -- a list that passes stays a list, so the value was null before
      cases v with
      | null => exact hlists _ (key_mem_pathLists o ho ht) hv
      | array items =>
        change (checkTexts items).map Value.texts = _ at hc
        cases hitems : checkTexts items <;> rw [hitems] at hc <;> cases hc
      | _ => cases hc
    simp only [resolveField, optionSpec?_key ho, (keeps_of_check hc).resolve_eq base hnull, resolvedAt_key ho]
    rfl
  unfold convertOptions
  rw [checkOptions_of_validKeys hkeys]
  change ((checkedOptions raw).values.mapM (resolveField base)).bind _ = _
  rw [mapM_ok hfield]
  rfl

/-! ## No options -/

theorem checkedOptions_nil : checkedOptions [] = {} := by
  have hnone : ∀ o, checkOption [] o = {} := fun _ => rfl
  simp [checkedOptions, hnone]

theorem convertOptions_nil (base : Text) : convertOptions [] base = .ok {} := by
  rw [convertOptions_regular (by simp) (fun _ _ => by simp [Fields.get?]), checkedOptions_nil]
  rfl

theorem ofFields_nil : Options.ofFields [] = .ok {} := by
  rw [Options.ofFields, checkOptions_of_validKeys (by simp), checkedOptions_nil]
  rfl

end TsProject.Config
