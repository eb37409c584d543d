/-
  TsProject.Proofs.Config.KeyWise — the options of a config are checked key by key.

  A key is kept or complained about, by its own value alone: a known option keeps a
  value of its type, in lower case where case does not matter and with its paths read
  against the directory; any other key draws one complaint.

  - `check_ok_iff`: which values an option accepts, and what it makes of them.
  - `filter_complaints`: a key draws one complaint or none.
  - `ofFields_dropRefused`: without the keys complained about, nothing is wrong.
  - `convertOptions_keywise`: all of it for a whole block of options.
-/

import TsProject.Proofs.Config.Validation

namespace TsProject.Config

open CodePoint

/-! ## Accepted values -/

/-- The values of a type, before letters are put in lower case. Null is a value of every type. -/
inductive Accepts : OptionType → Value → Prop
  | null {type : OptionType} : Accepts type .null
  | flag (b : Bool) : Accepts .flag (.bool b)
  | number (n : Int) : Accepts .number (.int n)
  | string (t : Text) : Accepts .string (.text t)
  | path (t : Text) : Accepts .path (.text t)
  | choice {words : List String} {t : Text} : Text.lower t ∈ words.map Text.of → Accepts (.choice words) (.text t)
  | strings (ts : List Text) : Accepts .strings (.texts ts)
  | paths (ts : List Text) : Accepts .paths (.texts ts)
  | libraries (ts : List Text) : Accepts .libraries (.texts ts)
  | mapping {fields : Fields} : (∀ f ∈ fields, ∃ ts, f.2 = .texts ts) → Accepts .mapping (.object fields)
  | objects {items : List Value} : (∀ v ∈ items, ∃ fields, v = .object fields) → Accepts .objects (.array items)

def lowerText : Value → Value
  | .text t => .text (Text.lower t)
  | v => v

/-- A value with the words whose case does not matter in lower case. -/
def OptionType.tidy (type : OptionType) (v : Value) : Value :=
  match type, v with
  | .choice _, v => lowerText v
  | .libraries, .array items => .array (items.map lowerText)
  | _, v => v

theorem checkTexts_ok_iff {items : List Value} {ts : List Text} : checkTexts items = .ok ts ↔ items = ts.map .text := by
  induction items generalizing ts with
  | nil =>
    constructor
    · intro h
      cases h
      rfl
    · intro h
      rw [List.map_eq_nil_iff.mp h.symm]
      rfl
  | cons v items ih =>
    cases v with
    | text t =>
      rw [checkTexts_text]
      constructor
      · intro h
        cases hi : checkTexts items with
        | error fault => rw [hi] at h; cases h
        | ok us =>
          rw [hi] at h
          cases h
          rw [ih.mp hi]
          rfl
      · intro h
        cases ts with
        | nil => cases h
        | cons u us =>
          obtain ⟨hu, hus⟩ := List.cons.inj h
          cases hu
          rw [ih.mpr hus]
          rfl
    | _ =>
      refine ⟨fun h => (by cases h), fun h => ?_⟩
      cases ts with
      | nil => cases h
      | cons u us => cases (List.cons.inj h).1

theorem checkTextList_ok_iff {v : Value} {ts : List Text} : checkTextList v = .ok ts ↔ v = .texts ts := by
  cases v with
  | array items =>
    change checkTexts items = _ ↔ _
    rw [checkTexts_ok_iff, Value.texts, Value.array.injEq]
  | _ => exact ⟨fun h => (by cases h), fun h => (by cases h)⟩

theorem map_ok_iff {α β ε : Type} {e : Except ε α} {f : α → β} {b : β} : e.map f = .ok b ↔ ∃ a, e = .ok a ∧ b = f a := by
  cases e with
  | error fault => exact ⟨fun h => (by cases h), fun ⟨_, h, _⟩ => (by cases h)⟩
  | ok a =>
    constructor
    · intro h
      cases h
      exact ⟨a, rfl, rfl⟩
    · rintro ⟨_, h, rfl⟩
      cases h
      rfl

theorem forM_ok_iff {α ε : Type} {f : α → Except ε Unit} {l : List α} : l.forM f = .ok () ↔ ∀ a ∈ l, f a = .ok () := by
  induction l with
  | nil => exact ⟨fun _ => by simp, fun _ => rfl⟩
  | cons a l ih =>
    rw [List.forall_mem_cons, ← ih]
    change (f a).bind (fun _ => l.forM f) = .ok () ↔ _
    cases f a with
    | error e => exact ⟨fun h => (by cases h), fun h => (by cases h.1)⟩
    | ok _ => exact ⟨fun h => ⟨rfl, h⟩, fun h => h.2⟩

theorem checkMapping_ok_iff {fields : Fields} : checkMapping fields = .ok () ↔ ∀ f ∈ fields, ∃ ts, f.2 = .texts ts := by
  rw [checkMapping, forM_ok_iff]
  refine forall₂_congr fun f _ => ?_
  change (checkTextList f.2).map (fun _ => ()) = .ok () ↔ _
  rw [map_ok_iff]
  simp only [checkTextList_ok_iff, and_true]

theorem map_lowerText_texts (ts : List Text) : (ts.map Value.text).map lowerText = (ts.map Text.lower).map .text := by
  simp [lowerText]

theorem check_of_accepts {type : OptionType} {v : Value} (h : Accepts type v) : type.check v = .ok (type.tidy v) := by
  cases h with
  | null => cases type <;> rfl
  | @choice words t hword =>
    have hsurrogate : Text.hasSurrogate (Text.lower t) = false := by
      obtain ⟨word, -, hw⟩ := List.mem_map.mp hword
      rw [← hw, Text.hasSurrogate_of]
    simp only [OptionType.check, hsurrogate, List.contains_iff_mem.mpr hword]
    rfl
  | strings ts => exact map_ok_iff.mpr ⟨ts, checkTextList_ok_iff.mpr rfl, rfl⟩
  | paths ts => exact map_ok_iff.mpr ⟨ts, checkTextList_ok_iff.mpr rfl, rfl⟩
  | libraries ts =>
    refine map_ok_iff.mpr ⟨ts, checkTextList_ok_iff.mpr rfl, ?_⟩
    simp only [OptionType.tidy, Value.texts, map_lowerText_texts]
  | mapping hfields => simp only [OptionType.check, checkMapping_ok_iff.mpr hfields]; rfl
  | objects hitems => simp only [OptionType.check, checkObjects_iff.mpr hitems]; rfl
  | _ => rfl

theorem accepts_of_check {type : OptionType} {v w : Value} (h : type.check v = .ok w) : Accepts type v := by
  have htexts : ∀ {f : List Text → Value}, (checkTextList v).map f = .ok w → ∃ ts, v = .texts ts := by
    intro f hf
    obtain ⟨ts, hts, -⟩ := map_ok_iff.mp hf
    exact ⟨ts, checkTextList_ok_iff.mp hts⟩
  fun_cases OptionType.check type v with
  | case1 => exact .null
  | case2 b => exact .flag b
  | case4 n => exact .number n
  | case6 t => exact .string t
  | case8 t => exact .path t
  | case11 words t word hs hword => exact .choice (List.contains_iff_mem.mp hword)
  | case14 v hnull =>
    simp only [OptionType.check] at h
    obtain ⟨ts, rfl⟩ := htexts h
    exact .strings ts
  | case15 v hnull =>
    simp only [OptionType.check] at h
    obtain ⟨ts, rfl⟩ := htexts h
    exact .paths ts
  | case16 v hnull =>
    simp only [OptionType.check] at h
    obtain ⟨ts, rfl⟩ := htexts h
    exact .libraries ts
  | case17 fields =>
    obtain ⟨_, hfields, -⟩ := map_ok_iff.mp h
    exact .mapping (checkMapping_ok_iff.mp hfields)
  | case19 items =>
    obtain ⟨_, hitems, -⟩ := map_ok_iff.mp h
    exact .objects (checkObjects_iff.mp hitems)
  | case10 words t word hs =>
    simp only [OptionType.check] at h
    rw [if_pos hs] at h
    cases h
  | case12 words t word hs hw =>
    simp only [OptionType.check] at h
    rw [if_neg hs, if_neg hw] at h
    cases h
  -- what is left is of another type
  | case3 => simp_all [OptionType.check]
  | case5 => simp_all [OptionType.check]
  | case7 => simp_all [OptionType.check]
  | case9 => simp_all [OptionType.check]
  | case13 => simp_all [OptionType.check]
  | case18 => simp_all [OptionType.check]
  | case20 => simp_all [OptionType.check]

/-- What an option accepts, and what it makes of it. -/
theorem check_ok_iff {type : OptionType} {v w : Value} : type.check v = .ok w ↔ Accepts type v ∧ w = type.tidy v := by
  constructor
  · intro h
    have haccepts := accepts_of_check h
    rw [check_of_accepts haccepts] at h
    exact ⟨haccepts, (Except.ok.inj h).symm⟩
  · rintro ⟨haccepts, rfl⟩
    exact check_of_accepts haccepts

/-! ## One key -/

/-- The value a key keeps: one that its option accepts, tidied and with its paths resolved. -/
def Kept (base key : Text) (v w : Value) : Prop :=
  ∃ o ∈ optionSpecs, o.key = key ∧ Accepts o.type v ∧ w = o.type.resolved base (o.type.tidy v)

/-- The problem with a key, if there is one. -/
def complaint? (key : Text) (v : Value) : Option Problem :=
  match knownSpec? key with
  | none => some (unknownProblem key)
  | some o =>
    match o.type.check v with
    | .ok _ => none
    | .error fault => some (fault.problem key)

/-- The option a problem is about. -/
def Problem.subject? : Problem → Option Text
  | .unknownOption name _ => some name
  | .wrongType option _ => some option
  | .notAChoice option _ => some option
  | _ => none

theorem Fault.subject_problem (key : Text) (fault : Fault) : (fault.problem key).subject? = some key := by
  cases fault <;> rfl

theorem subject_complaint {key : Text} {v : Value} {p : Problem} (h : complaint? key v = some p) :
    p.subject? = some key := by
  unfold complaint? at h
  split at h
  · cases h
    rfl
  · split at h
    · cases h
    · cases h
      exact Fault.subject_problem key _

theorem knownSpec?_of_not_mem {name : String} (h : name ∉ optionSpecs.map OptionSpec.name) :
    knownSpec? (Text.of name) = none := by
  refine List.find?_eq_none.mpr fun o ho hk => h ?_
  rw [← Text.of_injective (beq_iff_eq.mp hk)]
  exact List.mem_map_of_mem ho

theorem complaint?_key {o : OptionSpec} (ho : o ∈ optionSpecs) (v : Value) : complaint? o.key v =
    match o.type.check v with
    | .ok _ => none
    | .error fault => some (fault.problem o.key) := by
  simp only [complaint?, knownSpec?_key ho]

/-- What becomes of a key: the value it keeps, or the problem with it. -/
def verdict (base key : Text) (v : Value) : Except Problem Value :=
  match knownSpec? key with
  | none => .error (unknownProblem key)
  | some o =>
    match o.type.check v with
    | .ok w => .ok (o.type.resolved base w)
    | .error fault => .error (fault.problem key)

theorem verdict_unknown {key : Text} (h : knownSpec? key = none) (base : Text) (v : Value) :
    verdict base key v = .error (unknownProblem key) := by
  simp only [verdict, h]

theorem verdict_ok_iff {base key : Text} {v w : Value} : verdict base key v = .ok w ↔ Kept base key v w := by
  constructor
  · intro h
    cases hk : knownSpec? key with
    | none => simp [verdict, hk] at h
    | some o =>
      obtain ⟨ho, rfl⟩ := knownSpec?_some hk
      simp only [verdict, hk] at h
      split at h
      · rename_i u hu
        cases h
        obtain ⟨haccepts, rfl⟩ := check_ok_iff.mp hu
        exact ⟨o, ho, rfl, haccepts, rfl⟩
      · cases h
  · rintro ⟨o, ho, rfl, haccepts, rfl⟩
    simp only [verdict, knownSpec?_key ho, check_of_accepts haccepts]

theorem verdict_error_iff {base key : Text} {v : Value} {p : Problem} :
    verdict base key v = .error p ↔ complaint? key v = some p := by
  unfold verdict complaint?
  cases knownSpec? key with
  | none => simp
  | some o =>
    simp only
    cases o.type.check v <;> simp

theorem complaint?_of_verdict_ok {base key : Text} {v w : Value} (h : verdict base key v = .ok w) :
    complaint? key v = none := by
  cases hc : complaint? key v with
  | none => rfl
  | some p => rw [verdict_error_iff.mpr hc] at h; cases h

/-! ## All keys -/

variable {raw : Fields}

theorem get?_converted (raw : Fields) (base key : Text) :
    ((knownSpec? key).bind (declared? raw)).map (resolvedAt base key) =
      (raw.get? key).bind fun v => (verdict base key v).toOption := by
  cases hk : knownSpec? key with
  | none => cases raw.get? key <;> simp [verdict, hk, Except.toOption]
  | some o =>
    obtain ⟨ho, rfl⟩ := knownSpec?_some hk
    simp only [Option.bind_some, declared?]
    cases raw.get? o.key with
    | none => rfl
    | some v =>
      simp only [Option.bind_some, verdict, hk]
      cases o.type.check v with
      | error fault => rfl
      | ok w => exact congrArg some (resolvedAt_key ho base w)

/-- The complaints about known options in the order of the table, then those about other keys in the order
of the config. -/
def complaints (raw : Fields) : List Problem :=
  (optionSpecs.filterMap fun o => (raw.get? o.key).bind (complaint? o.key)) ++
    raw.filterMap fun f => if (knownSpec? f.1).isNone then complaint? f.1 f.2 else none

theorem problems_checkOption (raw : Fields) {o : OptionSpec} (ho : o ∈ optionSpecs) :
    (checkOption raw o).problems = ((raw.get? o.key).bind (complaint? o.key)).toList := by
  unfold checkOption
  cases raw.get? o.key with
  | none => rfl
  | some v =>
    simp only [Option.bind_some, complaint?_key ho]
    cases o.type.check v <;> rfl

theorem problems_checkedOptions (hpath : configPathOption.key ∉ raw.map (·.1)) :
    (checkedOptions raw).problems = complaints raw := by
  have hknown : optionSpecs.flatMap (fun o => (checkOption raw o).problems) =
      optionSpecs.filterMap fun o => (raw.get? o.key).bind (complaint? o.key) := by
    rw [List.filterMap_eq_flatMap_toList]
    exact List.flatMap_congr fun o ho => problems_checkOption raw ho
  have hconfigPath : (checkOption raw configPathOption).problems = [] := by
    simp only [checkOption, Fields.get?_eq_none_iff.mpr hpath]
  have hunknown : ∀ fs : Fields, configPathOption.key ∉ fs.map (·.1) →
      ((fs.map (·.1)).filter fun key => (optionSpec? key).isNone).map unknownProblem =
        fs.filterMap fun f => if (knownSpec? f.1).isNone then complaint? f.1 f.2 else none := by
    intro fs hfs
    induction fs with
    | nil => rfl
    | cons f fs ih =>
      rw [List.map_cons, List.mem_cons, not_or] at hfs
      have hspec : optionSpec? f.1 = knownSpec? f.1 := by
        simp [optionSpec?, knownSpec?, List.find?_append, hfs.1]
      rw [List.map_cons, List.filter_cons, List.filterMap_cons, hspec, ← ih hfs.2]
      cases hk : knownSpec? f.1 <;> simp [complaint?, hk]
  rw [checkedOptions, hknown, hconfigPath, hunknown raw hpath, List.append_nil, complaints]

/-- Problems about distinct subjects, seen by one of them. -/
theorem filter_subject {α : Type} (subject : α → Text) (problem? : α → Option Problem)
    (hp : ∀ a p, problem? a = some p → p.subject? = some (subject a)) {l : List α} (hl : (l.map subject).Nodup)
    (key : Text) : (l.filterMap problem?).filter (·.subject? == some key) =
      ((l.find? (subject · == key)).bind problem?).toList := by
  induction l with
  | nil => rfl
  | cons a l ih =>
    obtain ⟨ha, hl⟩ := List.nodup_cons.mp hl
    by_cases hk : subject a = key
    · have hnone : l.find? (subject · == key) = none := by
        refine List.find?_eq_none.mpr fun x hx => ?_
        rw [beq_iff_eq]
        exact fun e => ha (hk.trans e.symm ▸ List.mem_map_of_mem hx)
      have hrest := ih hl
      rw [hnone] at hrest
      cases hpa : problem? a with
      | none => simpa [hpa, hk] using hrest
      | some p => simpa [hpa, hk, hp a p hpa] using hrest
    · cases hpa : problem? a with
      | none => simpa [hpa, hk] using ih hl
      | some p => simpa [hpa, hk, hp a p hpa] using ih hl

/-- A key draws one complaint or none, and draws it by its own value. -/
theorem filter_complaints (hraw : raw.Distinct) (key : Text) :
    (complaints raw).filter (·.subject? == some key) = ((raw.get? key).bind (complaint? key)).toList := by
  have hknown := filter_subject OptionSpec.key (fun o => (raw.get? o.key).bind (complaint? o.key))
    (fun o p hp => (Option.bind_eq_some_iff.mp hp).elim fun _ h => subject_complaint h.2) nodup_known key
  have hunknown := filter_subject (fun f : Text × Value => f.1) (fun f =>
    if (knownSpec? f.1).isNone then complaint? f.1 f.2 else none)
    (fun f p hp => by
      split at hp
      · exact subject_complaint hp
      · cases hp) hraw key
  rw [complaints, List.filter_append, hknown, hunknown]
  cases hk : optionSpecs.find? (·.key == key) with
  | none =>
    have hkey : knownSpec? key = none := hk
    cases hf : raw.find? (·.1 == key) with
    | none => simp [Fields.get?, hf]
    | some f =>
      obtain rfl : f.1 = key := by simpa using List.find?_some hf
      simp [Fields.get?, hf, hkey]
  | some o =>
    obtain ⟨ho, rfl⟩ := knownSpec?_some hk
    cases hf : raw.find? (·.1 == o.key) with
    | none => simp
    | some f =>
      have hkey : f.1 = o.key := by simpa using List.find?_some hf
      simp [hkey, knownSpec?_key ho]

/-- The fields without those complained about. -/
def dropRefused (raw : Fields) : Fields := raw.filter fun f => (complaint? f.1 f.2).isNone

theorem complaint?_of_get?_dropRefused {key : Text} {v : Value} (h : (dropRefused raw).get? key = some v) :
    complaint? key v = none :=
  Option.isNone_iff_eq_none.mp (List.mem_filter.mp (Fields.mem_of_get? h)).2

theorem complaints_dropRefused (raw : Fields) : complaints (dropRefused raw) = [] := by
  refine List.append_eq_nil_iff.mpr ⟨List.filterMap_eq_nil_iff.mpr fun o _ => ?_, List.filterMap_eq_nil_iff.mpr fun f hf => ?_⟩
  · cases hv : (dropRefused raw).get? o.key with
    | none => rfl
    | some v => exact complaint?_of_get?_dropRefused hv
  · rw [Option.isNone_iff_eq_none.mp (List.mem_filter.mp hf).2, ite_self]

theorem declared?_dropRefused (hraw : raw.Distinct) {o : OptionSpec} (ho : o ∈ optionSpecs) :
    declared? (dropRefused raw) o = declared? raw o := by
  rw [declared?, declared?, dropRefused, Fields.get?_filter hraw]
  cases raw.get? o.key with
  | none => rfl
  | some v =>
    rw [Option.filter_some, complaint?_key ho]
    cases hc : o.type.check v with
    | error fault => simp [hc, Except.toOption]
    | ok w => rfl

/-- Without the keys complained about nothing is wrong, and the values are the same. -/
theorem ofFields_dropRefused (hraw : raw.Distinct) (hkeys : ∀ f ∈ raw, Text.hasSurrogate f.1 = false)
    (hpath : configPathOption.key ∉ raw.map (·.1)) :
    ∃ o, Options.ofFields (dropRefused raw) = .ok o ∧ o.values = (checkedOptions raw).values := by
  have hkeys' : ∀ f ∈ dropRefused raw, Text.hasSurrogate f.1 = false := fun f hf => hkeys f (List.mem_filter.mp hf).1
  have hpath' : configPathOption.key ∉ (dropRefused raw).map (·.1) := fun hm =>
    hpath ((List.filter_sublist.map _).subset hm)
  have hproblems : (checkedOptions (dropRefused raw)).problems = [] := by
    rw [problems_checkedOptions hpath', complaints_dropRefused]
  have hvalues : (checkedOptions (dropRefused raw)).values = (checkedOptions raw).values := by
    simp only [checkedOptions]
    refine List.flatMap_congr fun o ho => ?_
    rw [values_checkOption, values_checkOption, declared?_dropRefused hraw ho]
  refine ⟨⟨(checkedOptions raw).values, ((dropRefused raw).get? configPathOption.key).bind Value.text?⟩, ?_, rfl⟩
  unfold Options.ofFields
  rw [checkOptions_of_validKeys hkeys']
  change (if (checkedOptions (dropRefused raw)).problems.isEmpty = true then _ else _) = _
  rw [hproblems, hvalues]
  rfl

/-- Converting the options of a config succeeds. What becomes of a key hangs on its own value alone: it
keeps the value its option accepts, tidied and with its paths resolved, or draws one complaint, and without
the keys complained about nothing is wrong. The complaints about known options come in the order of the
table, those about other keys behind them in the order of the config. -/
theorem convertOptions_keywise (hraw : raw.Distinct) (hkeys : ∀ f ∈ raw, Text.hasSurrogate f.1 = false)
    (hpath : configPathOption.key ∉ raw.map (·.1)) (hlists : ∀ key ∈ pathLists, raw.get? key ≠ some .null)
    (base : Text) : ∃ c, convertOptions raw base = .ok c ∧
      (∀ f ∈ raw, ∀ w, verdict base f.1 f.2 = .ok w → Kept base f.1 f.2 w ∧ c.values.get? f.1 = some w ∧
        c.problems.filter (·.subject? == some f.1) = []) ∧
      (∀ f ∈ raw, ∀ p, verdict base f.1 f.2 = .error p → (∀ w, ¬ Kept base f.1 f.2 w) ∧ c.values.get? f.1 = none ∧
        c.problems.filter (·.subject? == some f.1) = [p]) ∧
      (∀ key, raw.get? key = none → c.values.get? key = none) ∧
      (∃ o, Options.ofFields (dropRefused raw) = .ok o ∧
        c.values = o.values.map fun f => (f.1, resolvedAt base f.1 f.2)) ∧
      c.problems = (optionSpecs.filterMap fun o => (raw.get? o.key).bind (complaint? o.key)) ++
        raw.filterMap fun f => if (knownSpec? f.1).isNone then complaint? f.1 f.2 else none := by
  obtain ⟨o, ho, hvalues⟩ := ofFields_dropRefused hraw hkeys hpath
  let c : Checked := ⟨(checkedOptions raw).values.map fun f => (f.1, resolvedAt base f.1 f.2), (checkedOptions raw).problems⟩
  have hget : ∀ key, c.values.get? key = (raw.get? key).bind fun v => (verdict base key v).toOption := by
    intro key
    rw [← get?_converted, ← get?_checkedOptions]
    exact Fields.get?_map (resolvedAt base) _ key
  have hfilter : ∀ key, c.problems.filter (·.subject? == some key) = ((raw.get? key).bind (complaint? key)).toList := by
    intro key
    rw [← filter_complaints hraw, ← problems_checkedOptions hpath]
  refine ⟨c, convertOptions_regular hkeys hlists base, fun f hf w hw => ?_, fun f hf p hp => ?_, fun key hkey => ?_,
    ⟨o, ho, by rw [hvalues]⟩, problems_checkedOptions hpath⟩
  · rw [hget, hfilter, Fields.get?_of_mem hraw hf, Option.bind_some, Option.bind_some, hw, complaint?_of_verdict_ok hw]
    exact ⟨verdict_ok_iff.mp hw, rfl, rfl⟩
  · rw [hget, hfilter, Fields.get?_of_mem hraw hf, Option.bind_some, Option.bind_some, hp, verdict_error_iff.mp hp]
    refine ⟨fun w hw => ?_, rfl, rfl⟩
    rw [verdict_ok_iff.mpr hw] at hp
    cases hp
  · rw [hget, hkey]
    rfl

/-- A word in capitals, a path, a value of the wrong type and an unknown key. -/
def mixedOptions : Fields :=
  [(Text.of "target", .text (Text.of "ES2020")), (Text.of "composite", .text (Text.of "yes")),
   (Text.of "composit", .bool true), (Text.of "tsBuildInfoFile", .text (Text.of "../info"))]

theorem convertOptions_keywise_mixed :
    (mixedOptions.Distinct ∧ (∀ f ∈ mixedOptions, Text.hasSurrogate f.1 = false) ∧
      configPathOption.key ∉ mixedOptions.map (·.1) ∧ ∀ key ∈ pathLists, mixedOptions.get? key ≠ some .null) ∧
      ∃ c, convertOptions mixedOptions (Text.of "/proj/app") = .ok c ∧
        c.values.get? (Text.of "target") = some (.text (Text.of "es2020")) ∧
        c.values.get? (Text.of "tsBuildInfoFile") = some (.text (Text.of "/proj/info")) ∧
        c.values.get? (Text.of "composite") = none ∧
        c.problems.filter (·.subject? == some (Text.of "composite")) =
          [.wrongType (Text.of "composite") (Text.of "boolean")] ∧
        c.problems.filter (·.subject? == some (Text.of "composit")) = [unknownProblem (Text.of "composit")] := by
  have hraw : mixedOptions.Distinct := by unfold Fields.Distinct; decide
  have hkeys : ∀ f ∈ mixedOptions, Text.hasSurrogate f.1 = false := by decide
  have hpath : configPathOption.key ∉ mixedOptions.map (·.1) := by decide
  have hlists : ∀ key ∈ pathLists, mixedOptions.get? key ≠ some .null := by
    intro key hkey
    have habsent : ∀ key ∈ pathLists, key ∉ mixedOptions.map (·.1) := by decide
    rw [Fields.get?_eq_none_iff.mpr (habsent key hkey)]
    simp
  obtain ⟨c, hc, hkept, hrefused, -⟩ := convertOptions_keywise hraw hkeys hpath hlists (Text.of "/proj/app")
  have htarget := hkept (Text.of "target", .text (Text.of "ES2020")) (by simp [mixedOptions])
    (.text (Text.of "es2020")) rfl
  have hcomposite := hrefused (Text.of "composite", .text (Text.of "yes")) (by simp [mixedOptions])
    (.wrongType (Text.of "composite") (Text.of "boolean")) rfl
  have hunknown := hrefused (Text.of "composit", .bool true) (by simp [mixedOptions]) (unknownProblem (Text.of "composit"))
    (verdict_unknown (knownSpec?_of_not_mem (by decide +kernel)) _ _)
  have hinfo := hkept (Text.of "tsBuildInfoFile", .text (Text.of "../info")) (by simp [mixedOptions])
    (.text (Text.of "/proj/info")) rfl
  exact ⟨⟨hraw, hkeys, hpath, hlists⟩, c, hc, htarget.2.1, hinfo.2.1, hcomposite.2.1, hcomposite.2.2, hunknown.2.2⟩

end TsProject.Config
