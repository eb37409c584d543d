/-
  TsProject.Proofs.Glob.Includes — the paths an include matches, said of characters.

  A component without wildcards takes the segment it spells. One with wildcards takes a
  segment that is no package folder and fits it: `?` stands for one character and `*` for
  a run of them, which holds no dot of an ending `.min.js` of the path. The wildcard a
  component starts with stands for no dot at the start of the segment; a second one behind
  it may, where the first is a `*` that stands for nothing (`*?*`). A `**` goes through
  segments that are neither hidden nor package folders.

  - `takes_iff`: the pattern of a component takes exactly such segments.
  - `isMatch_iff_aligned`: an include that does not end in `**` matches exactly the paths
    whose segments its components align with.
-/

import TsProject.Glob.Cover
import TsProject.Proofs.Glob.Alignment

namespace TsProject.Glob

open CodePoint Pattern TsProject.Path Relation

/-! ## What a component stands for -/

def minified : Text := Text.of "min.js"

/-- A `*` may stand for these characters when `rest` follows them in their segment: no dot in them is
that of an ending `.min.js`, where the segment is the last. -/
def IsRun (last : Bool) (w rest : Text) : Prop :=
  ∀ u v, w = u ++ dot :: v → ¬ (last = true ∧ v ++ rest = minified)

/-- A piece of a component beside a piece of a segment; `first` where both start. -/
inductive Fits (last : Bool) : Bool → Text → Text → Prop
  | done {first : Bool} : Fits last first [] []
  | char {first : Bool} {x : CodePoint} {c s : Text} : isWildcard x = false → Fits last false c s →
      Fits last first (x :: c) (x :: s)
  | one {first : Bool} {x : CodePoint} {c s : Text} : (first = true → x ≠ dot) → Fits last false c s →
      Fits last first (question :: c) (x :: s)
  | run {first : Bool} {w c s : Text} : (first = true → w.head? ≠ some dot) → IsRun last w s → Fits last false c s →
      Fits last first (asterisk :: c) (w ++ s)

/-- The segments a component other than `**` takes. -/
def TakesSegment (c seg : Text) (after : List Text) : Prop :=
  if c.any isWildcard then seg ∉ packageFolders ∧ Fits after.isEmpty true c seg else seg = c

/-- The segments a `**` goes through. -/
def IsOpen (seg : Text) : Prop := seg.head? ≠ some dot ∧ seg ∉ packageFolders

/-! ## Runs -/

abbrev exact : CodePoint → CodePoint → Bool := sameOn true

theorem exact_iff {a b : CodePoint} : exact a b = true ↔ a = b := by simp [exact, sameOn]

theorem exact_false_iff {a b : CodePoint} : exact a b = false ↔ a ≠ b := by simp [exact, sameOn]

theorem spells_exact {word s : Text} : Spells exact word s ↔ s = word := by
  have : Spells exact word s ↔ List.Forall₂ (· = ·) word s := by simp only [Spells, exact_iff]
  rw [this, List.forall₂_eq_eq_eq, eq_comm]

theorem isPackageFolder_exact {seg : Text} : IsPackageFolder exact seg ↔ seg ∈ packageFolders := by
  simp [IsPackageFolder, spells_exact]

/-- One round of a `*`: a character that is no dot, a dot that `min.js` does not follow, or nothing. -/
theorem leaves_round {s r : Text} (hlf : lineFeed ∉ s) :
    Leaves exact (.group (.either (.noneOf [dot, slash]) (.repeated .optional (.group (.seq (.char dot)
      (.notAhead (.seq (literal minified) .atEnd))))))) s r ↔
      (∃ x, s = x :: r ∧ x ≠ dot ∧ x ≠ slash) ∨ (s = dot :: r ∧ r ≠ minified) ∨ r = s := by
  have hahead : ∀ m, lineFeed ∉ m → ((∀ t, ¬ Leaves exact (.seq (literal minified) .atEnd) m t) ↔ m ≠ minified) := by
    intro m hm
    rw [← not_exists, leaves_atEnd hm, leaves_literal]
    simp [spells_exact]
  have hclass : ∀ x, (∀ c ∈ [dot, slash], exact c x = false) ↔ x ≠ dot ∧ x ≠ slash := by
    intro x
    simp only [List.forall_mem_cons, exact_false_iff, List.not_mem_nil, false_imp_iff, implies_true, and_true, ne_comm]
  refine or_congr (exists_congr fun x => and_congr_right fun _ => hclass x) (or_congr_left ?_)
  constructor
  · rintro ⟨m, ⟨x, rfl, hx⟩, rfl, hno⟩
    rw [exact_iff] at hx
    subst hx
    exact ⟨rfl, (hahead _ fun h => hlf (List.mem_cons_of_mem _ h)).mp hno⟩
  · rintro ⟨rfl, hne⟩
    exact ⟨r, ⟨dot, rfl, exact_iff.mpr rfl⟩, rfl, (hahead r fun h => hlf (List.mem_cons_of_mem _ h)).mpr hne⟩

/-- A run of an include takes characters other than slashes, and no dot that `min.js` follows to the end. -/
theorem leaves_run {s r : Text} (hlf : lineFeed ∉ s) :
    Leaves exact (run .files) s r ↔
      ∃ w, s = w ++ r ∧ slash ∉ w ∧ ∀ u v, w = u ++ dot :: v → v ++ r ≠ minified := by
  constructor
  · intro h
    change ReflTransGen _ s r at h
    induction h using ReflTransGen.head_induction_on with
    | refl => exact ⟨[], rfl, by simp, fun u v h => by simp at h⟩
    | @head s m h _ ih =>
      have hsuf : m <:+ s := h.suffix
      obtain ⟨w, rfl, hw, hdot⟩ := ih fun hm => hlf (hsuf.subset hm)
      rcases (leaves_round hlf).mp h with ⟨x, rfl, hx, hx'⟩ | ⟨rfl, hne⟩ | rfl
      · refine ⟨x :: w, rfl, by simp [hw, Ne.symm hx'], fun u v he => ?_⟩
        cases u with
        | nil => exact absurd (List.cons.inj he).1 hx
        | cons y u => exact hdot u v (List.cons.inj he).2
      · refine ⟨dot :: w, rfl, by simp [hw, show slash ≠ dot by decide], fun u v he => ?_⟩
        cases u with
        | nil => exact (List.cons.inj he).2 ▸ hne
        | cons y u => exact hdot u v (List.cons.inj he).2
      · exact ⟨w, rfl, hw, hdot⟩
  · rintro ⟨w, rfl, hw, hdot⟩
    change ReflTransGen _ (w ++ r) r
    induction w with
    | nil => exact .refl
    | cons x w ih =>
      simp only [List.mem_cons, not_or] at hw
      have ih := ih (fun hm => hlf (List.mem_cons_of_mem _ hm)) hw.2 fun u v he => hdot (x :: u) v (by rw [he]; rfl)
      refine .head ((leaves_round hlf).mpr ?_) ih
      by_cases hx : x = dot
      · subst hx
        exact Or.inr (Or.inl ⟨rfl, hdot [] w rfl⟩)
      · exact Or.inl ⟨x, rfl, hx, fun e => hw.1 e.symm⟩

theorem append_below_eq_minified {s : Text} {after : List Text} :
    s ++ below after = minified ↔ after.isEmpty = true ∧ s = minified := by
  cases after with
  | nil => simp
  | cons n ns =>
    simp only [List.isEmpty_cons, Bool.false_eq_true, false_and, iff_false]
    intro h
    have : slash ∈ minified := by rw [← h]; simp
    exact absurd this (by decide)

theorem isRun_iff {w s : Text} {after : List Text} :
    IsRun after.isEmpty w s ↔ ∀ u v, w = u ++ dot :: v → v ++ (s ++ below after) ≠ minified := by
  simp only [IsRun, ne_eq, ← List.append_assoc, append_below_eq_minified]

theorem isRun_cons {last : Bool} {x : CodePoint} {w s : Text} (hx : x ≠ dot) :
    IsRun last (x :: w) s ↔ IsRun last w s := by
  constructor
  · intro h u v he
    exact h (x :: u) v (by rw [he]; rfl)
  · intro h u v he
    cases u with
    | nil => exact absurd (List.cons.inj he).1 hx
    | cons _ u => exact h u v (List.cons.inj he).2

/-! ## Within one segment -/

/-- The rest of a segment that others follow, on one line. -/
structure Inside (s : Text) (after : List Text) : Prop where
  noSlash : slash ∉ s
  noLineFeed : lineFeed ∉ s ++ below after

theorem Inside.right {w v : Text} {after : List Text} (h : Inside (w ++ v) after) : Inside v after where
  noSlash hm := h.noSlash (List.mem_append_right _ hm)
  noLineFeed hm := h.noLineFeed (by rw [List.append_assoc]; exact List.mem_append_right _ hm)

/-- Two patterns that take the rest of a segment between them share it out. -/
theorem leaves_seq_inside {p q : Pattern} {s : Text} {after : List Text} :
    Leaves exact (.seq p q) (s ++ below after) (below after) ↔ ∃ w v, s = w ++ v ∧
      Leaves exact p (w ++ (v ++ below after)) (v ++ below after) ∧ Leaves exact q (v ++ below after) (below after) := by
  constructor
  · rintro ⟨m, h1, h2⟩
    obtain ⟨v, rfl⟩ := h2.suffix
    obtain ⟨w, hw⟩ := h1.suffix
    rw [← List.append_assoc] at hw
    obtain rfl := List.append_cancel_right hw
    rw [List.append_assoc] at h1
    exact ⟨w, v, rfl, h1, h2⟩
  · rintro ⟨w, v, rfl, h1, h2⟩
    rw [List.append_assoc]
    exact ⟨_, h1, h2⟩

theorem leaves_char_append {x : CodePoint} {w r : Text} : Leaves exact (.char x) (w ++ r) r ↔ w = [x] := by
  constructor
  · rintro ⟨y, hy, hxy⟩
    obtain rfl := exact_iff.mp hxy
    exact List.append_cancel_right (show w ++ r = [x] ++ r from hy)
  · rintro rfl
    exact ⟨x, rfl, exact_iff.mpr rfl⟩

theorem leaves_noneOf_append {cs : List CodePoint} {w r : Text} :
    Leaves exact (.noneOf cs) (w ++ r) r ↔ ∃ y, w = [y] ∧ y ∉ cs := by
  constructor
  · rintro ⟨y, hy, hcs⟩
    exact ⟨y, List.append_cancel_right (show w ++ r = [y] ++ r from hy), fun hm => exact_false_iff.mp (hcs y hm) rfl⟩
  · rintro ⟨y, rfl, hy⟩
    exact ⟨y, rfl, fun c hc => exact_false_iff.mpr fun e => hy (e ▸ hc)⟩

theorem leaves_run_inside {w v : Text} {after : List Text} (h : Inside (w ++ v) after) :
    Leaves exact (run .files) (w ++ (v ++ below after)) (v ++ below after) ↔ IsRun after.isEmpty w v := by
  have hlf := h.noLineFeed
  rw [List.append_assoc] at hlf
  rw [leaves_run hlf, isRun_iff]
  constructor
  · rintro ⟨w', hw, -, hdot⟩
    obtain rfl := List.append_cancel_right hw
    exact hdot
  · exact fun hdot => ⟨w, rfl, fun hm => h.noSlash (List.mem_append_left _ hm), hdot⟩

/-- At the start of a segment a `*` takes a run that does not start with a dot. -/
theorem leaves_visible_run {w v : Text} {after : List Text} (h : Inside (w ++ v) after) :
    Leaves exact (.repeated .optional (.group (.seq (.noneOf [dot, slash]) (run .files)))) (w ++ (v ++ below after))
      (v ++ below after) ↔ w.head? ≠ some dot ∧ IsRun after.isEmpty w v := by
  cases w with
  | nil => exact ⟨fun _ => ⟨by simp, fun u x he => by simp at he⟩, fun _ => Or.inr rfl⟩
  | cons y w =>
    have hw : Inside (w ++ v) after := h.right (w := [y])
    have hy : y ≠ slash := fun e => h.noSlash (e ▸ List.mem_cons_self)
    constructor
    · rintro (⟨m, ⟨x, hx, hcs⟩, hrun⟩ | he)
      · obtain ⟨rfl, rfl⟩ := List.cons.inj hx
        have hdot : y ≠ dot := fun e => exact_false_iff.mp (hcs dot List.mem_cons_self) e.symm
        exact ⟨fun e => hdot (Option.some.inj e), (isRun_cons hdot).mpr ((leaves_run_inside hw).mp hrun)⟩
      · have := congrArg List.length he
        simp at this
        omega
    · rintro ⟨hhead, hrun⟩
      have hdot : y ≠ dot := fun e => hhead (congrArg some e)
      refine Or.inl ⟨w ++ (v ++ below after), ⟨y, rfl, ?_⟩, (leaves_run_inside hw).mpr ((isRun_cons hdot).mp hrun)⟩
      simp only [List.forall_mem_cons, exact_false_iff]
      exact ⟨hdot.symm, hy.symm, by simp⟩

/-! ## Components -/

theorem isWildcard_iff {x : CodePoint} : isWildcard x = true ↔ x = asterisk ∨ x = question := by simp [isWildcard]

theorem spelled_of_noWildcard (u : Usage) {c : Text} (h : c.any isWildcard = false) : spelled u c = literal c := by
  induction c with
  | nil => rfl
  | cons x c ih =>
    obtain ⟨hx, hc⟩ := Bool.or_eq_false_iff.mp (List.any_cons ▸ h)
    have hne : ¬ (x = asterisk ∨ x = question) := by
      rw [← isWildcard_iff, hx]
      exact Bool.false_ne_true
    have hpiece : piece u x = .char x := by
      rw [piece, if_neg fun e => hne (Or.inl e), if_neg fun e => hne (Or.inr e)]
    change Pattern.seq (piece u x) (spelled u c) = .seq (.char x) (literal c)
    rw [hpiece, ih hc]

/-- The spelled part of a component takes what fits it, and stops where the segment does. -/
theorem leaves_spelled {c s : Text} {after : List Text} (hs : Inside s after) :
    Leaves exact (spelled .files c) (s ++ below after) (below after) ↔ Fits after.isEmpty false c s := by
  induction c generalizing s with
  | nil =>
    constructor
    · intro h
      obtain rfl : s = [] := by simpa using (show below after = s ++ below after from h)
      exact .done
    · intro h
      cases h
      rfl
  | cons x c ih =>
    change Leaves exact (.seq (piece .files x) (spelled .files c)) _ _ ↔ _
    rw [leaves_seq_inside]
    by_cases hast : x = asterisk
    · subst hast
      constructor
      · rintro ⟨w, v, rfl, h1, h2⟩
        exact .run (fun h => by cases h) ((leaves_run_inside hs).mp h1) ((ih hs.right).mp h2)
      · intro h
        cases h with
        | char hx => exact absurd hx (by decide)
        | run _ hrun h => exact ⟨_, _, rfl, (leaves_run_inside hs).mpr hrun, (ih hs.right).mpr h⟩
    · by_cases hq : x = question
      · subst hq
        constructor
        · rintro ⟨w, v, rfl, h1, h2⟩
          obtain ⟨y, rfl, -⟩ := leaves_noneOf_append.mp h1
          exact .one (fun h => by cases h) ((ih hs.right).mp h2)
        · intro h
          cases h with
          | char hx => exact absurd hx (by decide)
          | @one _ y _ v _ h =>
            have hy : y ∉ [slash] := fun hm => hs.noSlash (List.mem_singleton.mp hm ▸ List.mem_cons_self)
            exact ⟨[y], v, rfl, leaves_noneOf_append.mpr ⟨y, rfl, hy⟩, (ih (hs.right (w := [y]))).mpr h⟩
      · have hp : piece .files x = .char x := by simp [piece, hast, hq]
        have hx : isWildcard x = false := by
          rw [← Bool.not_eq_true, isWildcard_iff]
          exact fun h => h.elim hast hq
        rw [hp]
        constructor
        · rintro ⟨w, v, rfl, h1, h2⟩
          obtain rfl := leaves_char_append.mp h1
          exact .char hx ((ih hs.right).mp h2)
        · intro h
          cases h with
          | @char _ _ _ v _ h => exact ⟨[x], v, rfl, leaves_char_append.mpr rfl, (ih (hs.right (w := [x]))).mpr h⟩
          | one => exact absurd rfl hq
          | run => exact absurd rfl hast

theorem fits_first_iff {last : Bool} {c s : Text} (hc : ∀ x ∈ c.head?, isWildcard x = false) :
    Fits last true c s ↔ Fits last false c s := by
  constructor
  · intro h
    cases h with
    | done => exact .done
    | char hx h => exact .char hx h
    | one => exact absurd (hc question rfl) (by decide)
    | run => exact absurd (hc asterisk rfl) (by decide)
  · intro h
    cases h with
    | done => exact .done
    | char hx h => exact .char hx h
    | one => exact absurd (hc question rfl) (by decide)
    | run => exact absurd (hc asterisk rfl) (by decide)

theorem leaves_visible {c s : Text} {after : List Text} (hs : Inside s after) :
    Leaves exact (visible .files c) (s ++ below after) (below after) ↔ Fits after.isEmpty true c s := by
  unfold visible
  split
  · rw [leaves_seq_inside]
    constructor
    · rintro ⟨w, v, rfl, h1, h2⟩
      obtain ⟨hhead, hrun⟩ := (leaves_visible_run hs).mp h1
      exact .run (fun _ => hhead) hrun ((leaves_spelled hs.right).mp h2)
    · intro h
      cases h with
      | char hx => exact absurd hx (by decide)
      | run hhead hrun h =>
        exact ⟨_, _, rfl, (leaves_visible_run hs).mpr ⟨hhead rfl, hrun⟩, (leaves_spelled hs.right).mpr h⟩
  · rw [leaves_seq_inside]
    constructor
    · rintro ⟨w, v, rfl, h1, h2⟩
      obtain ⟨y, rfl, hy⟩ := leaves_noneOf_append.mp h1
      exact .one (fun _ e => hy (e ▸ List.mem_cons_self)) ((leaves_spelled hs.right).mp h2)
    · intro h
      cases h with
      | char hx => exact absurd hx (by decide)
      | @one _ y _ v hfirst h =>
        have hslash : y ≠ slash := fun e => hs.noSlash (e ▸ List.mem_cons_self)
        have hy : y ∉ [dot, slash] := by simp [hfirst rfl, hslash]
        exact ⟨[y], v, rfl, leaves_noneOf_append.mpr ⟨y, rfl, hy⟩, (leaves_spelled (hs.right (w := [y]))).mpr h⟩
  · rename_i hast hq
    have hhead : ∀ x ∈ c.head?, isWildcard x = false := by
      intro x hx
      obtain ⟨c', rfl⟩ := List.head?_eq_some_iff.mp hx
      rw [← Bool.not_eq_true, isWildcard_iff]
      rintro (rfl | rfl)
      · exact hast c' rfl
      · exact hq c' rfl
    rw [leaves_spelled hs, fits_first_iff hhead]

theorem fits_of_noWildcard {last first : Bool} {c s : Text} (hc : c.any isWildcard = false) :
    Fits last first c s ↔ s = c := by
  induction c generalizing first s with
  | nil =>
    constructor
    · intro h; cases h; rfl
    · rintro rfl; exact .done
  | cons x c ih =>
    obtain ⟨hx, hc⟩ := Bool.or_eq_false_iff.mp (List.any_cons ▸ hc)
    constructor
    · intro h
      cases h with
      | char _ h => rw [(ih hc).mp h]
      | one => exact absurd hx (by decide)
      | run => exact absurd hx (by decide)
    · rintro rfl
      exact .char hx ((ih hc).mpr rfl)

theorem noWildcard_of_isPlain {c : Text} (h : isPlain c = true) : c.any isWildcard = false := by
  rw [List.any_eq_false]
  intro x hx hw
  have hm : isMeta x = false := by simpa [isPlain] using List.all_eq_true.mp h x hx
  rcases isWildcard_iff.mp hw with rfl | rfl
  · exact absurd hm (by decide)
  · exact absurd hm (by decide)

theorem isPlain_packageFolders : ∀ f ∈ packageFolders, isPlain f = true := by decide

/-- The pattern of a component takes exactly the segments the component stands for. -/
theorem takes_iff {c seg : Text} {after : List Text} (hs : IsEntryName seg) (ha : ∀ n ∈ after, IsEntryName n) :
    Takes exact .files c seg after ↔ TakesSegment c seg after := by
  have hlf : lineFeed ∉ seg ++ below after := fun hm =>
    (List.mem_append.mp hm).elim hs.noLineFeed (lineFeed_not_mem_below ha)
  have hvis := leaves_visible (c := c) ⟨hs.name.2, hlf⟩
  unfold Takes TakesSegment componentPattern
  by_cases hp : isPlain c = true
  · simp only [hp, if_true]
    rw [hvis, noWildcard_of_isPlain hp, fits_of_noWildcard (noWildcard_of_isPlain hp)]
    simp
  · have hseq : Leaves exact (.seq notPackageFolder (visible .files c)) (seg ++ below after) (below after) ↔
        seg ∉ packageFolders ∧ Fits after.isEmpty true c seg := by
      rw [← hvis, ← isPackageFolder_exact]
      constructor
      · rintro ⟨m, h1, h2⟩
        obtain ⟨rfl, hpkg⟩ := (leaves_notPackageFolder delimits_exact hs.name.2 (atBoundary_below _) hlf m).mp h1
        exact ⟨hpkg, h2⟩
      · rintro ⟨hpkg, h2⟩
        exact ⟨_, (leaves_notPackageFolder delimits_exact hs.name.2 (atBoundary_below _) hlf _).mpr ⟨rfl, hpkg⟩, h2⟩
    simp only [hp, Bool.false_eq_true, if_false, hseq]
    cases hw : c.any isWildcard with
    | true => simp
    | false =>
      rw [fits_of_noWildcard hw]
      simp only [Bool.false_eq_true, if_false, and_iff_right_iff_imp]
      rintro rfl hmem
      exact hp (isPlain_packageFolders seg hmem)

/-! ## Includes -/

theorem aligned_exact_iff {cs segs : List Text} (hs : ∀ n ∈ segs, IsEntryName n) :
    Aligned (Enterable exact) (Takes exact .files) cs segs ↔ Aligned IsOpen TakesSegment cs segs := by
  have he : ∀ seg, Enterable exact seg ↔ IsOpen seg := fun seg => and_congr_right' (not_congr isPackageFolder_exact)
  have ht : ∀ c seg after, seg :: after <:+ segs → (Takes exact .files c seg after ↔ TakesSegment c seg after) :=
    fun c seg after hsuf => takes_iff (hs seg (hsuf.subset List.mem_cons_self))
      fun n hn => hs n (hsuf.subset (List.mem_cons_of_mem _ hn))
  exact ⟨.mono (fun seg _ => (he seg).mp) fun c _ _ seg after hsuf => (ht c seg after hsuf).mp,
    .mono (fun seg _ => (he seg).mpr) fun c _ _ seg after hsuf => (ht c seg after hsuf).mpr⟩

/-- An include that does not end in `**` has a pattern, and it matches exactly the paths whose segments
the components of the spec align with. The root is no such path: all it could have is an empty segment. -/
theorem isMatch_iff_aligned {spec base : Text} (hbase : Path.startsAtRoot base = true) (hspec : ¬ IsDriveRooted spec)
    (hlast : (names (resolve spec base)).getLast? ≠ some recursive) {segs : List Text} (hne : segs ≠ [])
    (hs : ∀ seg ∈ segs, IsEntryName seg) :
    ∃ p, ofInclude? base spec = some p ∧
      (p.isMatch true (absolute segs) = true ↔ Aligned IsOpen TakesSegment (specComponents spec base) segs) := by
  obtain ⟨ns, hns, -⟩ := exists_resolve_eq_absolute hbase hspec
  have hr : startsAtRoot (resolve spec base) = true := hns ▸ startsAtRoot_absolute ns
  have hsome : ∃ p, ofInclude? base spec = some p := by
    rw [ofInclude?, ofSpec?_eq hr, if_neg fun h => hlast h.2]
    exact ⟨_, rfl⟩
  obtain ⟨p, hp⟩ := hsome
  refine ⟨p, hp, ?_⟩
  rw [absolute_of_ne_nil hne, isMatch_ofInclude delimits_exact hr hp hs, aligned_exact_iff hs]

/-- A `**` goes into a folder, but not into a hidden one. -/
theorem isMatch_iff_aligned_typescript :
    let base := Text.of "/proj"
    let spec := Text.of "src/**/*.ts"
    let segs := [Text.of "proj", Text.of "src", Text.of "lib", Text.of "a.ts"]
    let hidden := [Text.of "proj", Text.of "src", Text.of ".lib", Text.of "a.ts"]
    (Path.startsAtRoot base = true ∧ ¬ IsDriveRooted spec ∧ (names (resolve spec base)).getLast? ≠ some recursive ∧
      (segs ≠ [] ∧ ∀ seg ∈ segs, IsEntryName seg) ∧ hidden ≠ [] ∧ ∀ seg ∈ hidden, IsEntryName seg) ∧
      ∃ p, ofInclude? base spec = some p ∧
        (p.isMatch true (absolute segs) = true ∧ Aligned IsOpen TakesSegment (specComponents spec base) segs) ∧
        p.isMatch true (absolute hidden) = false ∧ ¬ Aligned IsOpen TakesSegment (specComponents spec base) hidden := by
  intro base spec segs hidden
  have hbase : Path.startsAtRoot base = true := by decide
  have hspec : ¬ IsDriveRooted spec := by decide
  have hlast : (names (resolve spec base)).getLast? ≠ some recursive := by decide
  have hentries : (∀ seg ∈ segs, IsEntryName seg) ∧ ∀ seg ∈ hidden, IsEntryName seg := by decide
  obtain ⟨p, hp, hsegs⟩ := isMatch_iff_aligned hbase hspec hlast (List.cons_ne_nil _ _) hentries.1
  obtain ⟨q, hq, hhidden⟩ := isMatch_iff_aligned hbase hspec hlast (List.cons_ne_nil _ _) hentries.2
  obtain rfl : p = q := Option.some.inj (hp.symm.trans hq)
  have hmatches : (ofInclude? base spec).any (·.isMatch true (absolute segs)) = true := by decide +kernel
  have hrefuses : (ofInclude? base spec).any (·.isMatch true (absolute hidden)) = false := by decide +kernel
  rw [hp] at hmatches hrefuses
  replace hrefuses : p.isMatch true (absolute hidden) = false := hrefuses
  refine ⟨⟨hbase, hspec, hlast, ⟨List.cons_ne_nil _ _, hentries.1⟩, List.cons_ne_nil _ _, hentries.2⟩, p, hp,
    ⟨hmatches, hsegs.mp hmatches⟩, hrefuses, fun haligned => ?_⟩
  rw [hhidden.mpr haligned] at hrefuses
  cases hrefuses

end TsProject.Glob
