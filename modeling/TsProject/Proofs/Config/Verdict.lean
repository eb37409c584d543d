/-
  TsProject.Proofs.Config.Verdict — which specs are refused, as written and once anchored.

  A spec is refused for where `**` stands among its components and for a `..` behind it.
  Anchoring a spec takes every `..` out of it and drops what stands behind its last name, so
  the verdict on an anchored spec may differ. It is the same for a spec that is steady: that
  has no `..` behind `**`, and ends in `**` if it leads there.

  - `endsIn_of_trailingRecursion`: a spec that is refused for `**` at its end.
  - `names_of_recursionThenParent`: a spec that is refused for a `..` behind `**`.
  - `Steady.code_eq`: a steady spec is judged the same once it is anchored.
-/

import TsProject.Config.Specs
import TsProject.Proofs.Glob.Includes
import TsProject.Proofs.Stem
import Mathlib

namespace TsProject.Config

open CodePoint TsProject.Path Pattern Glob

/-! ## Components -/

/-- A component starts behind the text. -/
def EndsAtSlash (s : Text) : Prop := s = [] ∨ ∃ s', s = s' ++ [slash]

theorem mem_behindSlashes {spec rest : Text} :
    rest ∈ componentStarts.behindSlashes spec ↔ ∃ s, spec = s ++ slash :: rest := by
  induction spec with
  | nil => simp [componentStarts.behindSlashes]
  | cons c spec ih =>
    have hcons : (∃ s, c :: spec = s ++ slash :: rest) ↔ (c = slash ∧ spec = rest) ∨ ∃ s, spec = s ++ slash :: rest := by
      constructor
      · rintro ⟨s, hs⟩
        cases s with
        | nil => exact Or.inl (List.cons.inj hs)
        | cons x s => exact Or.inr ⟨s, (List.cons.inj hs).2⟩
      · rintro (⟨rfl, rfl⟩ | ⟨s, rfl⟩)
        · exact ⟨[], rfl⟩
        · exact ⟨c :: s, rfl⟩
    rw [hcons, ← ih, componentStarts.behindSlashes]
    by_cases hc : c = slash
    · simp [hc, eq_comm]
    · simp [hc]

theorem mem_componentStarts {spec rest : Text} :
    rest ∈ componentStarts spec ↔ ∃ s, spec = s ++ rest ∧ EndsAtSlash s := by
  rw [componentStarts, List.mem_cons, mem_behindSlashes]
  constructor
  · rintro (rfl | ⟨s, rfl⟩)
    · exact ⟨[], rfl, Or.inl rfl⟩
    · exact ⟨s ++ [slash], by simp, Or.inr ⟨s, rfl⟩⟩
  · rintro ⟨s, rfl, rfl | ⟨s, rfl⟩⟩
    · exact Or.inl rfl
    · exact Or.inr ⟨s, by simp⟩

theorem hasAtComponent_iff {p : Pattern} {spec : Text} : hasAtComponent p spec = true ↔
    ∃ s rest r, spec = s ++ rest ∧ EndsAtSlash s ∧ Leaves exact p rest r := by
  simp only [hasAtComponent, List.any_eq_true, mem_componentStarts, isMatch_iff]
  constructor
  · rintro ⟨rest, ⟨s, rfl, hs⟩, r, hr⟩
    exact ⟨s, rest, r, rfl, hs, hr⟩
  · rintro ⟨s, rest, r, rfl, hs, hr⟩
    exact ⟨rest, ⟨s, rfl, hs⟩, r, hr⟩

theorem names_append_name {s n t : Text} (hs : EndsAtSlash s) (hn : IsName n) (ht : t = [] ∨ t = [slash]) :
    names (s ++ n ++ t) = names s ++ [n] := by
  have hnt : names (n ++ t) = [n] := by
    rcases ht with rfl | rfl
    · rw [List.append_nil, names_of_isName hn]
    · rw [names_append_slash, names_of_isName hn]
      rfl
  rcases hs with rfl | ⟨s, rfl⟩
  · exact hnt
  · have hslash : names (s ++ [slash]) = names s := by
      rw [names_append_slash]
      exact List.append_nil _
    rw [hslash, List.append_assoc, List.append_assoc, List.singleton_append, names_append_slash, hnt]

/-- The text ends in a component with the given name, a slash behind it left aside. -/
def EndsIn (p n : Text) : Prop := ∃ s t, p = s ++ n ++ t ∧ EndsAtSlash s ∧ (t = [] ∨ t = [slash])

theorem EndsIn.getLast? {p n : Text} (h : EndsIn p n) (hn : IsName n) : (names p).getLast? = some n := by
  obtain ⟨s, t, rfl, hs, ht⟩ := h
  rw [names_append_name hs hn ht, List.getLast?_concat]

/-! ## Verdicts -/

/-- Names with a line feed at the end, where the end of a text is found already before it: they pass for `**`
and for `..`, or for no name at all. -/
def brokenNames : List Text := [Text.of "**\n", Text.of "..\n", Text.of "\n"]

theorem leaves_trailingRecursion {rest r : Text} (h : Leaves exact trailingRecursion rest r) :
    ∃ t, rest = recursive ++ t ∧ (t = [] ∨ t = [slash] ∨ t = [lineFeed] ∨ t = [slash, lineFeed]) := by
  obtain ⟨m, hstars, m', hslash, rfl, hend⟩ := h
  obtain ⟨w, rfl, hw⟩ := (leaves_literal _ _ _).mp hstars
  obtain rfl := spells_exact.mp hw
  refine ⟨m, rfl, ?_⟩
  rcases hslash with ⟨x, rfl, hx⟩ | rfl
  · obtain rfl := exact_iff.mp hx
    rcases hend with rfl | rfl <;> simp
  · rcases hend with rfl | rfl <;> simp

/-- A spec that is refused for `**` at its end has that for its last name, or a broken one. -/
theorem endsIn_of_trailingRecursion {p : Text} (h : hasAtComponent trailingRecursion p = true) :
    ∃ n, EndsIn p n ∧ (n = recursive ∨ n ∈ brokenNames) := by
  obtain ⟨s, rest, r, rfl, hs, hr⟩ := hasAtComponent_iff.mp h
  obtain ⟨t, rfl, rfl | rfl | rfl | rfl⟩ := leaves_trailingRecursion hr
  · exact ⟨recursive, ⟨s, [], by simp, hs, Or.inl rfl⟩, Or.inl rfl⟩
  · exact ⟨recursive, ⟨s, [slash], by simp, hs, Or.inr rfl⟩, Or.inl rfl⟩
  · exact ⟨Text.of "**\n", ⟨s, [], by rw [List.append_nil]; rfl, hs, Or.inl rfl⟩, Or.inr (by decide)⟩
  · exact ⟨Text.of "\n", ⟨s ++ recursive ++ [slash], [], by simp; rfl, Or.inr ⟨_, rfl⟩, Or.inl rfl⟩, Or.inr (by decide)⟩

theorem EndsIn.trailingRecursion {p : Text} (h : EndsIn p recursive) : hasAtComponent trailingRecursion p = true := by
  obtain ⟨s, t, rfl, hs, ht⟩ := h
  refine hasAtComponent_iff.mpr ⟨s, recursive ++ t, [], by rw [List.append_assoc], hs, t, ?_, [], ?_, rfl, Or.inl rfl⟩
  · exact (leaves_literal _ _ _).mpr ⟨recursive, rfl, spells_exact.mpr rfl⟩
  · rcases ht with rfl | rfl
    · exact Or.inr rfl
    · exact Or.inl ⟨slash, rfl, exact_iff.mpr rfl⟩

/-- A spec that is refused for a `..` behind `**` has it among its names, or ends in a broken one. -/
theorem names_of_recursionThenParent {p : Text} (h : hasAtComponent recursionThenParent p = true) :
    dotDotSegment ∈ names p ∨ EndsIn p (Text.of "..\n") := by
  obtain ⟨s, rest, r, rfl, -, m, hstars, m', hmiddle, m'', hdots, hend⟩ := hasAtComponent_iff.mp h
  obtain ⟨w, rfl, hw⟩ := (leaves_literal _ _ _).mp hstars
  obtain ⟨d, rfl, hd⟩ := (leaves_literal _ _ _).mp hdots
  obtain rfl := spells_exact.mp hw
  obtain rfl := spells_exact.mp hd
  -- what stands before the `..` ends in a slash
  have hbefore : ∃ y, s ++ (Text.of "**/" ++ m) = y ++ slash :: (dotDotSegment ++ m'') := by
    rcases hmiddle with ⟨mid, hmany, x, rfl, hx⟩ | rfl
    · obtain rfl := exact_iff.mp hx
      have hsuffix : slash :: (Text.of ".." ++ m'') <:+ m :=
        @Leaves.suffix exact (.repeated .many .anyInLine) _ _ hmany
      obtain ⟨u, rfl⟩ := hsuffix
      exact ⟨s ++ Text.of "**/" ++ u, by simp only [List.append_assoc]; rfl⟩
    · exact ⟨s ++ recursive, by simp only [List.append_assoc]; rfl⟩
  obtain ⟨y, hy⟩ := hbefore
  rw [hy]
  have hdotdot : IsName dotDotSegment := by decide
  rcases hend with ⟨rfl, rfl | rfl⟩ | ⟨x, rfl, hx⟩
  · left
    rw [List.append_nil, names_append_slash, names_of_isName hdotdot]
    exact List.mem_append_right _ (List.mem_singleton_self _)
  · exact Or.inr ⟨y ++ [slash], [], by simp; rfl, Or.inr ⟨y, rfl⟩, Or.inl rfl⟩
  · left
    obtain rfl := exact_iff.mp hx
    rw [names_append_slash, names_append_slash, names_of_isName hdotdot]
    exact List.mem_append_right _ (List.mem_append_left _ (List.mem_singleton_self _))

/-- A path in normal form has no `..`, nor a name that passes for one unless that is its last. -/
theorem not_recursionThenParent_absolute {ns : List Text} (hns : ∀ n ∈ ns, IsPlain n)
    (hlast : ∀ n ∈ ns.getLast?, n ≠ Text.of "..\n") : hasAtComponent recursionThenParent (absolute ns) = false := by
  have hnames : names (absolute ns) = ns := names_absolute fun n hn => (hns n hn).name
  rw [Bool.eq_false_iff]
  intro hparent
  rcases names_of_recursionThenParent hparent with hmem | hends
  · rw [hnames] at hmem
    exact (hns _ hmem).noDotDot rfl
  · have hbroken := hends.getLast? (by decide)
    rw [hnames] at hbroken
    exact hlast _ hbroken rfl

/-! ## Anchored specs -/

/-- A relative spec that is judged the same once it is anchored: it is not refused for a `..` behind `**`,
and an include that leads to a `**` has that for its last name as written. -/
structure Steady (isInclude : Bool) (base spec : Text) : Prop where
  nonempty : spec ≠ []
  climbsNowhere : specProblem? isInclude spec ≠ some (.parentAfterRecursion spec)
  unbroken : ∀ n ∈ (names (Path.resolve spec base)).getLast?, n ∉ brokenNames
  ends : isInclude = true → (names (Path.resolve spec base)).getLast? = some recursive → EndsIn spec recursive

/-- The last name of a spec is its last name wherever it is anchored. -/
theorem EndsIn.resolve {base spec n : Text} (h : EndsIn spec n) (hn : IsPlain n) (hbase : startsAtRoot base = true)
    (hspec : isRooted spec = false) : EndsIn (Path.resolve spec base) n := by
  obtain ⟨s, t, rfl, hs, ht⟩ := h
  have hs' : EndsAtSlash (forwardSlashes s) := by
    rcases hs with rfl | ⟨s, rfl⟩
    · exact Or.inl rfl
    · exact Or.inr ⟨forwardSlashes s, forwardSlashes_append s [slash]⟩
  have ht' : forwardSlashes t = [] ∨ forwardSlashes t = [slash] := by
    rcases ht with rfl | rfl
    · exact Or.inl rfl
    · exact Or.inr rfl
  have hsegments : segments (forwardSlashes (s ++ n ++ t)) = segments (forwardSlashes s) ++ [n] := by
    rw [forwardSlashes_append, forwardSlashes_append, forwardSlashes_of_not_mem hn.noBackslash, segments_eq_names,
      names_append_name hs' hn.name ht', List.filter_append, segments_eq_names]
    simp [hn.noDot]
  rw [resolve_relative (startsAtRoot_forwardSlashes hbase) hspec, hsegments, ← List.append_assoc,
    fold_append true _ (List.mem_singleton.not.mpr (Ne.symm hn.noDotDot)), absolute_of_ne_nil (by simp), below_append]
  exact ⟨below (fold true (segments (forwardSlashes base) ++ segments (forwardSlashes s))) ++ [slash], [], by simp,
    Or.inr ⟨_, rfl⟩, Or.inl rfl⟩

theorem isPlain_recursive_or_broken {n : Text} (hn : n = recursive ∨ n ∈ brokenNames) : IsPlain n := by
  have hall : ∀ m ∈ recursive :: brokenNames, IsName m ∧ m ≠ dotSegment ∧ m ≠ dotDotSegment ∧ backslash ∉ m := by decide
  obtain ⟨hname, hdot, hdotDot, hbackslash⟩ := hall n (List.mem_cons.mpr hn)
  exact ⟨hname, hdot, hdotDot, hbackslash⟩

/-- Whether `**` stands at its end is read off a steady include and off the anchored one alike. -/
theorem Steady.trailingRecursion_eq {base spec : Text} (hs : Steady true base spec) (hbase : startsAtRoot base = true)
    (hspec : isRooted spec = false) :
    hasAtComponent trailingRecursion (Path.resolve spec base) = hasAtComponent trailingRecursion spec := by
  rw [Bool.eq_iff_iff]
  constructor
  · intro h
    obtain ⟨n, hends, hn⟩ := endsIn_of_trailingRecursion h
    have hlast := hends.getLast? (isPlain_recursive_or_broken hn).name
    obtain rfl := hn.resolve_right (hs.unbroken n hlast)
    exact (hs.ends rfl hlast).trailingRecursion
  · intro h
    obtain ⟨n, hends, hn⟩ := endsIn_of_trailingRecursion h
    have hplain := isPlain_recursive_or_broken hn
    have hends' := hends.resolve hplain hbase hspec
    obtain rfl := hn.resolve_right (hs.unbroken n (hends'.getLast? hplain.name))
    exact hends'.trailingRecursion

/-- An anchored spec has no `..` left. -/
theorem Steady.not_recursionThenParent {isInclude : Bool} {base spec : Text} (hs : Steady isInclude base spec)
    (hbase : startsAtRoot base = true) (hspec : isRooted spec = false) :
    hasAtComponent recursionThenParent (Path.resolve spec base) = false := by
  obtain ⟨ms, hms, hplain⟩ := exists_resolve_eq_absolute hbase (p := spec) fun hdrive => by simp [hdrive.1] at hspec
  rw [hms]
  refine not_recursionThenParent_absolute hplain ?_
  rintro n hn rfl
  rw [← names_absolute fun n hn => (hplain n hn).name, ← hms] at hn
  exact hs.unbroken _ hn (by decide)

/-- A steady spec is judged the same once it is anchored. -/
theorem Steady.code_eq {isInclude : Bool} {base spec : Text} (hs : Steady isInclude base spec)
    (hbase : startsAtRoot base = true) (hspec : isRooted spec = false) :
    (specProblem? isInclude (Path.resolve spec base)).map Problem.code = (specProblem? isInclude spec).map Problem.code := by
  have htrailing : (isInclude && hasAtComponent trailingRecursion (Path.resolve spec base)) =
      (isInclude && hasAtComponent trailingRecursion spec) := by
    cases isInclude with
    | false => rfl
    | true => rw [hs.trailingRecursion_eq hbase hspec]
  simp only [specProblem?, htrailing, hs.not_recursionThenParent hbase hspec]
  cases hends : isInclude && hasAtComponent trailingRecursion spec with
  | true => rfl
  | false =>
    -- nothing is wrong with the spec as written
    have hwritten : hasAtComponent recursionThenParent spec = false := by
      rw [Bool.eq_false_iff]
      intro hparent
      exact hs.climbsNowhere (by simp only [specProblem?, hends, hparent]; rfl)
    rw [hwritten]
    rfl

end TsProject.Config
