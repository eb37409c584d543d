/-
  TsProject.Proofs.Config.Recursion — the accepted includes that select nothing.

  An include that leads to a `**` has no pattern and selects nothing, and the verdict on specs
  is to refuse it. But the verdict is on the spec as written, and the pattern is made of the
  names that are left of it. A `**` that is the last of those is the last name written, or one
  before a `..` at the end. The latter is refused, and so is the former at the very end or
  before a single slash. Where more follows it that names nothing, the include is accepted.

  - `exists_of_segments_eq`: a path is cut at any of its segments.
  - `getLast?_fold`: where the last name that is left of a path is written.
  - `ofSpec?_eq_none_of_accepted`: an accepted include has no pattern only if it ends idly, and
    then it has none.
-/

import TsProject.Proofs.Config.Verdict
import TsProject.Proofs.Glob.Drive
import TsProject.Proofs.Glob.Segments

namespace TsProject.Config

open CodePoint TsProject.Path Pattern Glob Text

variable {base spec : Text}

/-! ## Cutting a path at a segment -/

theorem join_append_cons (before after : List Text) (n : Text) :
    Text.join [slash] (before ++ n :: after) = trail before ++ n ++ below after := by
  induction before with
  | nil => exact join_eq_below n after
  | cons m before ih =>
    rw [List.cons_append, join_cons _ _ (List.append_ne_nil_of_right_ne_nil before (List.cons_ne_nil n after)), ih, trail_cons]
    simp only [List.append_assoc, List.cons_append, List.nil_append]

theorem splitOn_trail {ns : List Text} (h : ∀ n ∈ ns, slash ∉ n) : splitOn slash (trail ns) = ns ++ [[]] := by
  induction ns with
  | nil => rfl
  | cons n ns ih =>
    obtain ⟨hn, hns⟩ := List.forall_mem_cons.mp h
    rw [trail_cons, splitOn_append_sep, splitOn_of_not_mem hn, ih hns]
    rfl

theorem endsAtSlash_trail (ns : List Text) : EndsAtSlash (trail ns) := by
  cases ns using List.reverseRecOn with
  | nil => exact Or.inl rfl
  | append_singleton ns n => exact Or.inr ⟨trail ns ++ n, by simp⟩

/-- A path is cut at any of its segments. -/
theorem exists_of_segments_eq {p n : Text} {before after : List Text} (h : segments p = before ++ n :: after) :
    ∃ s t, p = s ++ n ++ t ∧ EndsAtSlash s ∧ AtBoundary t ∧ segments s = before ∧ segments t = after := by
  obtain ⟨front, rest, hpieces, hfront, hrest⟩ := List.filter_eq_append_iff.mp h
  obtain ⟨idle, back, rfl, hidle, -, hback⟩ := List.filter_eq_cons_iff.mp hrest
  have hslash : ∀ piece ∈ front ++ (idle ++ n :: back), slash ∉ piece := by
    intro piece hpiece
    rw [← hpieces] at hpiece
    exact not_mem_of_mem_splitOn hpiece
  have hp : p = trail (front ++ idle) ++ n ++ below back := by
    rw [← join_append_cons, List.append_assoc, ← hpieces, join_splitOn]
  refine ⟨_, _, hp, endsAtSlash_trail _, atBoundary_below back, ?_, ?_⟩
  · rw [segments, splitOn_trail, List.filter_append, List.filter_append, hfront, List.filter_eq_nil_iff.mpr hidle]
    · simp
    · intro piece hpiece
      apply hslash
      rcases List.mem_append.mp hpiece with hpiece | hpiece
      · exact List.mem_append_left _ hpiece
      · exact List.mem_append_right _ (List.mem_append_left _ hpiece)
  · have hback' : ∀ piece ∈ back, slash ∉ piece := fun piece hpiece =>
      hslash piece (List.mem_append_right _ (List.mem_append_right _ (List.mem_cons_of_mem n hpiece)))
    have hcut : splitOn slash (below back) = [] :: back := splitOn_below List.not_mem_nil hback'
    rw [segments, hcut, List.filter_cons_of_neg (by simp), hback]

/-! ## The last name that is left -/

theorem mem_of_mem_fold {b : Bool} {l : List Text} {x : Text} (h : x ∈ fold b l) (hx : x ≠ dotDotSegment) : x ∈ l := by
  cases b with
  | true => exact (mem_fold h).1
  | false =>
    obtain ⟨k, ns, hfold, -, hns⟩ := fold_false l
    rw [hfold] at h
    rcases List.mem_append.mp h with h | h
    · exact absurd (List.eq_of_mem_replicate h) hx
    · exact hns x h

/-- The last name that is left is the last one written, or one before a `..` at the end. -/
theorem getLast?_fold {b : Bool} {l : List Text} {x : Text} (h : (fold b l).getLast? = some x) (hx : x ≠ dotDotSegment) :
    l.getLast? = some x ∨ (l.getLast? = some dotDotSegment ∧ x ∈ l) := by
  cases l using List.reverseRecOn with
  | nil => cases h
  | append_singleton l n =>
    by_cases hn : n = dotDotSegment
    · right
      exact ⟨by rw [List.getLast?_concat, hn], mem_of_mem_fold (List.mem_of_getLast? h) hx⟩
    · left
      have hdots : dotDotSegment ∉ [n] := fun h => hn (List.mem_singleton.mp h).symm
      rw [fold_append b l hdots, List.getLast?_concat] at h
      rw [List.getLast?_concat, h]

/-- An include without a pattern leads to a `**`. -/
theorem getLast?_of_ofSpec?_eq_none {u : Usage} (h : ofSpec? u base spec = none) :
    (names (Path.resolve spec base)).getLast? = some recursive := by
  obtain ⟨first, rest, hroot, -, hnames⟩ := exists_root spec base
  simp only [ofSpec?, hroot, ite_eq_left_iff, reduceCtorEq, imp_false, not_not] at h
  rw [hnames]
  cases hlast : rest.getLast? with
  | none =>
    -- the root ends in a slash
    have hrecursive : first ++ [slash] = recursive := by simpa [hlast] using h.2
    have hends := congrArg List.getLast? hrecursive
    simp [recursive] at hends
  | some last =>
    rw [List.getLast?_append, hlast]
    simpa [hlast] using h.2

theorem recursive_not_mem_segments (hwild : hasWildcard base = false) : recursive ∉ segments (forwardSlashes base) := by
  intro hmem
  have hstar : asterisk ∈ forwardSlashes base :=
    (mem_pieces_iff.mp ⟨recursive, (List.mem_filter.mp hmem).1, List.mem_cons_self⟩).1
  obtain ⟨c, hc, heq⟩ := List.mem_map.mp hstar
  have hwildcard : isWildcard c = true := by
    split at heq
    · cases heq
    · rw [heq]
      decide
  exact absurd hwildcard (List.any_eq_false.mp hwild c hc)

/-- Below a directory without wildcards an include leads to a `**` only if one is written, at its end or before a `..` there. -/
theorem getLast?_segments (hbase : startsAtRoot base = true) (hwild : hasWildcard base = false)
    (h : (names (Path.resolve spec base)).getLast? = some recursive) :
    (segments (forwardSlashes spec)).getLast? = some recursive ∨
      ((segments (forwardSlashes spec)).getLast? = some dotDotSegment ∧ recursive ∈ segments (forwardSlashes spec)) := by
  have hne : recursive ≠ dotDotSegment := by decide
  cases hrooted : isRooted spec with
  | true =>
    rw [resolve_of_isRooted hrooted] at h
    cases hstart : startsAtRoot (forwardSlashes spec) with
    | true =>
      rw [normalize_rooted hstart, names_absolute fun n hn => (isPlain_of_mem_rootedNames hn).name] at h
      exact getLast?_fold h hne
    | false =>
      have hspec : spec ≠ [] := by
        rintro rfl
        cases hrooted
      rw [normalize_unrooted hspec hstart] at h
      split at h
      · exact absurd h (by decide)
      · rw [names_join fun n hn => (mem_fold_segments (b := false) (p := spec) (n := n) hn).1] at h
        exact getLast?_fold h hne
  | false =>
    have hname : ∀ n ∈ fold true (segments (forwardSlashes base) ++ segments (forwardSlashes spec)), IsName n := by
      intro n hn
      rcases List.mem_append.mp (mem_fold hn).1 with hn | hn
      · exact (mem_segments hn).1
      · exact (mem_segments hn).1
    rw [resolve_relative (startsAtRoot_forwardSlashes hbase) hrooted, names_absolute hname] at h
    have hbelow : recursive ∉ segments (forwardSlashes base) := recursive_not_mem_segments hwild
    cases hsegments : segments (forwardSlashes spec) using List.reverseRecOn with
    | nil =>
      rw [hsegments, List.append_nil] at h
      exact absurd (mem_fold (List.mem_of_getLast? h)).1 hbelow
    | append_singleton front n =>
      rcases getLast?_fold h hne with hlast | ⟨hlast, hmem⟩
      · left
        rw [hsegments, List.getLast?_append_of_ne_nil _ (by simp)] at hlast
        exact hlast
      · right
        rw [hsegments, List.getLast?_append_of_ne_nil _ (by simp)] at hlast
        refine ⟨hlast, ?_⟩
        rw [hsegments] at hmem
        exact (List.mem_append.mp hmem).resolve_left hbelow

/-! ## What is accepted -/

theorem specProblem?_eq_none_iff : specProblem? true spec = none ↔
    hasAtComponent trailingRecursion spec ≠ true ∧ hasAtComponent recursionThenParent spec ≠ true := by
  unfold specProblem?
  rw [Bool.true_and]
  split
  · rename_i htrailing
    simp [htrailing]
  · rename_i htrailing
    split
    · rename_i hparent
      simp [hparent]
    · rename_i hparent
      simp [htrailing, hparent]

/-- Behind a `**` only slashes and dots follow that name nothing, and more than a slash. -/
def EndsIdly (spec : Text) : Prop :=
  ∃ s t, spec = s ++ recursive ++ slash :: t ∧ EndsAtSlash s ∧ t ≠ [] ∧ segments t = []

theorem endsIn_or_endsIdly {p : Text} (h : (segments p).getLast? = some recursive) : EndsIn p recursive ∨ EndsIdly p := by
  obtain ⟨front, hfront⟩ := List.getLast?_eq_some_iff.mp h
  obtain ⟨s, t, rfl, hs, ht, -, hidle⟩ := exists_of_segments_eq hfront
  cases t with
  | nil => exact Or.inl ⟨s, [], rfl, hs, Or.inl rfl⟩
  | cons c t =>
    obtain rfl := ht c rfl
    by_cases hne : t = []
    · exact Or.inl ⟨s, [slash], by rw [hne], hs, Or.inr rfl⟩
    · have hslash : segments (slash :: t) = segments t := segments_append_slash [] t
      exact Or.inr ⟨s, t, rfl, hs, hne, hslash ▸ hidle⟩

theorem leaves_line {w : Text} (hw : lineFeed ∉ w) (r : Text) : Leaves exact (.repeated .many .anyInLine) (w ++ r) r := by
  induction w with
  | nil => exact .refl
  | cons c w ih =>
    obtain ⟨hc, hw⟩ := List.ne_and_not_mem_of_not_mem_cons hw
    exact .head ⟨c, rfl, Ne.symm hc⟩ (ih hw)

/-- A `..` at the end of a line is refused behind a `**`. -/
theorem hasAtComponent_recursionThenParent {p : Text} (h : (segments p).getLast? = some dotDotSegment)
    (hmem : recursive ∈ segments p) (hline : lineFeed ∉ p) : hasAtComponent recursionThenParent p = true := by
  obtain ⟨front, hfront⟩ := List.getLast?_eq_some_iff.mp h
  obtain ⟨u, t, rfl, hu, ht, hfront', -⟩ := exists_of_segments_eq hfront
  have hmem' : recursive ∈ segments u := by
    rw [hfront, ← hfront'] at hmem
    exact (List.mem_append.mp hmem).resolve_right (by decide)
  obtain ⟨before, after, hsplit⟩ := List.append_of_mem hmem'
  obtain ⟨s, v, rfl, hs, hv, -, -⟩ := exists_of_segments_eq hsplit
  -- between the two stand a slash, and perhaps more that ends in one
  have hbetween : ∃ w, v = slash :: w ∧ EndsAtSlash w := by
    obtain ⟨u, hu⟩ := hu.resolve_left (by simp [recursive])
    cases v with
    | nil =>
      have hlast := congrArg List.getLast? hu
      simp [recursive] at hlast
    | cons c w =>
      obtain rfl := hv c rfl
      refine ⟨w, rfl, ?_⟩
      cases w using List.reverseRecOn with
      | nil => exact Or.inl rfl
      | append_singleton w c =>
        have hlast := congrArg List.getLast? hu
        rw [← List.cons_append, ← List.append_assoc, List.getLast?_concat, List.getLast?_concat] at hlast
        exact Or.inr ⟨w, by rw [Option.some.inj hlast]⟩
  obtain ⟨w, rfl, hw⟩ := hbetween
  have hmiddle : Leaves exact (.repeated .optional (.group (.seq (.repeated .many .anyInLine) (.char slash))))
      (w ++ (dotDotSegment ++ t)) (dotDotSegment ++ t) := by
    rcases hw with rfl | ⟨w, rfl⟩
    · exact Or.inr rfl
    · left
      rw [List.append_assoc]
      exact ⟨_, leaves_line (fun h => hline (by simp [h])) _, slash, rfl, exact_iff.mpr rfl⟩
  have hend : ∃ r, Leaves exact (.either .atEnd (.char slash)) t r := by
    cases t with
    | nil => exact ⟨[], Or.inl ⟨rfl, Or.inl rfl⟩⟩
    | cons c t => exact ⟨t, Or.inr ⟨c, rfl, exact_iff.mpr (ht c rfl).symm⟩⟩
  obtain ⟨r, hend⟩ := hend
  refine hasAtComponent_iff.mpr ⟨s, Text.of "**/" ++ (w ++ (dotDotSegment ++ t)), r, ?_, hs, ?_⟩
  · simp only [List.append_assoc]
    rfl
  · exact ⟨_, (leaves_literal _ _ _).mpr ⟨_, rfl, spells_exact.mpr rfl⟩, _, hmiddle, _,
      (leaves_literal _ _ _).mpr ⟨_, rfl, spells_exact.mpr rfl⟩, hend⟩

theorem EndsIdly.exists_segments {p : Text} (h : EndsIdly p) : ∃ before, segments p = before ++ [recursive] := by
  obtain ⟨s, t, rfl, hs, -, hidle⟩ := h
  refine ⟨segments s, ?_⟩
  rw [segments_append_slash, hidle, List.append_nil, segments_eq_names, segments_eq_names, ← List.append_nil (s ++ recursive),
    names_append_name hs (by decide) (Or.inl rfl), List.filter_append]
  rfl

theorem EndsIdly.ofSpec?_eq_none (h : EndsIdly (forwardSlashes spec)) (hbase : startsAtRoot base = true)
    (hdrive : ¬ IsDriveRooted spec) : ofSpec? .files base spec = none := by
  obtain ⟨before, hbefore⟩ := h.exists_segments
  have hname : ∀ n ∈ before, IsName n := fun n hn => (mem_segments (hbefore ▸ List.mem_append_left _ hn)).1
  have hresolve : ∃ front, Path.resolve spec base = absolute (fold true (front ++ [recursive])) ∧ ∀ n ∈ front, IsName n := by
    cases hrooted : isRooted spec with
    | true =>
      have hstart : startsAtRoot (forwardSlashes spec) = true := by
        by_contra hstart
        exact hdrive ⟨hrooted, Bool.eq_false_iff.mpr hstart⟩
      exact ⟨before, by rw [resolve_of_startsAtRoot hstart, normalize_rooted hstart, rootedNames, hbefore], hname⟩
    | false =>
      refine ⟨segments (forwardSlashes base) ++ before, ?_, ?_⟩
      · rw [resolve_relative (startsAtRoot_forwardSlashes hbase) hrooted, hbefore, List.append_assoc]
      · exact List.forall_mem_append.mpr ⟨fun n hn => (mem_segments hn).1, hname⟩
  obtain ⟨front, hfront, hname⟩ := hresolve
  have hdots : dotDotSegment ∉ [recursive] := by decide
  rw [fold_append true front hdots] at hfront
  have hnames : names (Path.resolve spec base) = fold true front ++ [recursive] := by
    rw [hfront, names_absolute]
    exact List.forall_mem_append.mpr ⟨fun n hn => hname n (mem_fold hn).1, List.forall_mem_singleton.mpr (by decide)⟩
  rw [ofSpec?_eq (hfront ▸ startsAtRoot_absolute _), hnames, List.getLast?_concat, if_pos ⟨by decide, rfl⟩]

/-- An include that is accepted, with its slashes forward and each `..` on the same line as what is before it, has a pattern
unless it ends idly. Then it has none, unless it may climb above a drive. -/
theorem ofSpec?_eq_none_of_accepted (hbase : startsAtRoot base = true) (hwild : hasWildcard base = false)
    (haccepted : specProblem? true (forwardSlashes spec) = none)
    (hline : dotDotSegment ∈ segments (forwardSlashes spec) → lineFeed ∉ spec) :
    ((ofSpec? .files base spec).isSome = true ∨ EndsIdly (forwardSlashes spec)) ∧
      (¬ IsDriveRooted spec → EndsIdly (forwardSlashes spec) → ofSpec? .files base spec = none) := by
  refine ⟨?_, fun hdrive hidle => hidle.ofSpec?_eq_none hbase hdrive⟩
  cases hnone : ofSpec? .files base spec with
  | some p => exact Or.inl rfl
  | none =>
    right
    obtain ⟨htrailing, hparent⟩ := specProblem?_eq_none_iff.mp haccepted
    rcases getLast?_segments hbase hwild (getLast?_of_ofSpec?_eq_none hnone) with hlast | ⟨hlast, hmem⟩
    · rcases endsIn_or_endsIdly hlast with hends | hidle
      · exact absurd hends.trailingRecursion htrailing
      · exact hidle
    · have hline' : lineFeed ∉ forwardSlashes spec := by
        intro hlf
        obtain ⟨c, hc, heq⟩ := List.mem_map.mp hlf
        split at heq
        · cases heq
        · exact hline (List.mem_of_getLast? hlast) (heq ▸ hc)
      exact absurd (hasAtComponent_recursionThenParent hlast hmem hline') hparent

theorem ofSpec?_eq_none_of_accepted_backslashes :
    let base := Text.of "/proj"
    let spec := Text.of "lib/../src\\**\\*.ts"
    startsAtRoot base = true ∧ hasWildcard base = false ∧ specProblem? true (forwardSlashes spec) = none ∧
      (dotDotSegment ∈ segments (forwardSlashes spec) → lineFeed ∉ spec) ∧ (ofSpec? .files base spec).isSome = true := by
  intro base spec
  have hbase : startsAtRoot base = true := by decide
  have haccepted : specProblem? true (forwardSlashes spec) = none := by decide
  have hline : lineFeed ∉ spec := by decide
  have hidle : ¬ EndsIdly (forwardSlashes spec) := by
    intro h
    obtain ⟨before, hbefore⟩ := h.exists_segments
    have hlast : (segments (forwardSlashes spec)).getLast? ≠ some recursive := by decide
    rw [hbefore, List.getLast?_concat] at hlast
    exact hlast rfl
  have hspec := ofSpec?_eq_none_of_accepted hbase (by decide) haccepted fun _ => hline
  exact ⟨hbase, by decide, haccepted, fun _ => hline, hspec.1.resolve_right hidle⟩

/-- Two slashes behind a `**` hide it from the verdict. -/
theorem ofSpec?_twoSlashes :
    let base := Text.of "/proj"
    let spec := Text.of "src/**//"
    startsAtRoot base = true ∧ hasWildcard base = false ∧ specProblem? true spec = none ∧
      (names (Path.resolve spec base)).getLast? = some recursive ∧ ofSpec? .files base spec = none := by
  decide

end TsProject.Config
