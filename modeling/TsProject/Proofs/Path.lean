/-
  TsProject.Proofs.Path — absolute paths as lists of names.

  An absolute path is a list of names, each behind a slash; the root has none.
  Normalization and resolution give such paths, and every path the library takes
  apart (`names`, `parent`, `entry`) is taken apart at its names.

  - `normalize_rooted` / `resolve_relative`: a path that starts at the root, or is read
    in a directory that does, normalizes to the absolute path of its folded segments.
  - `names_absolute`: names without slashes are read back.
  - `segment_inj`: where a piece without slashes ends at a slash or at the end of the
    text, the text determines it.
-/

import TsProject.Path
import Mathlib.Data.List.Infix

namespace TsProject

open CodePoint

/-! ## Splitting -/

namespace Text

theorem splitOn_ne_nil (sep : CodePoint) (s : Text) : splitOn sep s ≠ [] := by
  induction s with
  | nil => simp [splitOn]
  | cons c s ih =>
    simp only [splitOn]
    split
    · simp
    · split <;> simp

theorem splitOn_append_sep (sep : CodePoint) (s t : Text) :
    splitOn sep (s ++ sep :: t) = splitOn sep s ++ splitOn sep t := by
  induction s with
  | nil => simp [splitOn]
  | cons c s ih =>
    by_cases hc : c = sep
    · simp [splitOn, hc, ih]
    · cases hs : splitOn sep s with
      | nil => exact absurd hs (splitOn_ne_nil sep s)
      | cons piece pieces => simp [splitOn, hc, ih, hs]

theorem splitOn_of_not_mem {sep : CodePoint} {s : Text} (h : sep ∉ s) : splitOn sep s = [s] := by
  induction s with
  | nil => rfl
  | cons c s ih =>
    have hc : c ≠ sep := fun e => h (e ▸ List.mem_cons_self)
    simp [splitOn, hc, ih (fun hs => h (List.mem_cons_of_mem _ hs))]

/-- The pieces hold what is not a separator. -/
theorem mem_pieces_iff {sep c : CodePoint} {s : Text} : (∃ piece ∈ splitOn sep s, c ∈ piece) ↔ c ∈ s ∧ c ≠ sep := by
  induction s with
  | nil => simp [splitOn]
  | cons x s ih =>
    rw [splitOn]
    by_cases hx : x = sep
    · rw [if_pos hx, List.exists_mem_cons_iff, ih, List.mem_cons]
      constructor
      · rintro (hc | ⟨hc, hne⟩)
        · cases hc
        · exact ⟨Or.inr hc, hne⟩
      · rintro ⟨rfl | hc, hne⟩
        · exact absurd hx hne
        · exact Or.inr ⟨hc, hne⟩
    · rw [if_neg hx]
      cases hs : splitOn sep s with
      | nil => exact absurd hs (splitOn_ne_nil sep s)
      | cons piece pieces =>
        rw [hs, List.exists_mem_cons_iff] at ih
        simp only []
        rw [List.exists_mem_cons_iff, List.mem_cons, List.mem_cons, or_assoc, ih]
        constructor
        · rintro (rfl | ⟨hc, hne⟩)
          · exact ⟨Or.inl rfl, hx⟩
          · exact ⟨Or.inr hc, hne⟩
        · rintro ⟨hc | hc, hne⟩
          · exact Or.inl hc
          · exact Or.inr ⟨hc, hne⟩

theorem not_mem_of_mem_splitOn {sep : CodePoint} {s piece : Text} (h : piece ∈ splitOn sep s) : sep ∉ piece :=
  fun hc => (mem_pieces_iff.mp ⟨piece, h, hc⟩).2 rfl

/-- A text is cut at the last separator in it. -/
theorem exists_last {sep : CodePoint} {s : Text} (h : sep ∈ s) : ∃ t u, s = t ++ sep :: u ∧ sep ∉ u := by
  obtain ⟨u, t, hsplit, hu⟩ := List.eq_append_cons_of_mem (List.mem_reverse.mpr h)
  refine ⟨t.reverse, u.reverse, ?_, fun hm => hu (List.mem_reverse.mp hm)⟩
  rw [← List.reverse_reverse s, hsplit]
  simp

theorem throughLast_append (sep : CodePoint) (s : Text) {t : Text} (h : sep ∉ t) :
    throughLast sep (s ++ sep :: t) = s ++ [sep] := by
  have ht : ∀ x ∈ t.reverse, (x != sep) = true := by
    intro x hx
    exact bne_iff_ne.mpr fun e => h (e ▸ List.mem_reverse.mp hx)
  simp [throughLast, List.dropWhile_append_of_pos ht]

theorem afterLast_append (sep : CodePoint) (s : Text) {t : Text} (h : sep ∉ t) : afterLast sep (s ++ sep :: t) = t := by
  have ht : ∀ x ∈ t.reverse, (x != sep) = true := by
    intro x hx
    exact bne_iff_ne.mpr fun e => h (e ▸ List.mem_reverse.mp hx)
  simp [afterLast, List.takeWhile_append_of_pos ht]

theorem afterLast_of_not_mem {sep : CodePoint} {s : Text} (h : sep ∉ s) : afterLast sep s = s := by
  have hs : ∀ x ∈ s.reverse, (x != sep) = true := by
    intro x hx
    exact bne_iff_ne.mpr fun e => h (e ▸ List.mem_reverse.mp hx)
  rw [afterLast, ← List.append_nil s.reverse, List.takeWhile_append_of_pos hs]
  simp

theorem trimEnd_concat (p : CodePoint → Bool) (s : Text) (c : CodePoint) :
    trimEnd p (s ++ [c]) = if p c then trimEnd p s else s ++ [c] := by
  rw [trimEnd, List.reverse_append, List.reverse_singleton, List.singleton_append, List.dropWhile_cons]
  split
  · rfl
  · rw [List.reverse_cons, List.reverse_reverse]

/-- Trimming cuts off the longest end whose code points all satisfy the test. -/
theorem exists_trimEnd (p : CodePoint → Bool) (s : Text) :
    ∃ t, s = trimEnd p s ++ t ∧ (∀ c ∈ t, p c = true) ∧ ∀ c ∈ (trimEnd p s).getLast?, p c = false := by
  refine ⟨(s.reverse.takeWhile p).reverse, ?_, ?_, ?_⟩
  · rw [trimEnd, ← List.reverse_append, List.takeWhile_append_dropWhile, List.reverse_reverse]
  · intro c hc
    exact List.all_eq_true.mp List.all_takeWhile c (List.mem_reverse.mp hc)
  · intro c hc
    have hhead := List.head?_dropWhile_not p s.reverse
    rw [trimEnd, List.getLast?_reverse] at hc
    rwa [Option.mem_def.mp hc] at hhead

theorem trimEnd_prefix (p : CodePoint → Bool) (s : Text) : trimEnd p s <+: s := by
  obtain ⟨t, ht, -⟩ := exists_trimEnd p s
  exact ⟨t, ht.symm⟩

theorem trimEnd_append_of_not (p : CodePoint → Bool) (s t : Text) (hs : ∀ c ∈ s.getLast?, p c = false)
    (ht : ∀ c ∈ t, p c = true) : trimEnd p (s ++ t) = s := by
  have ht' : ∀ c ∈ t.reverse, p c = true := fun c hc => ht c (List.mem_reverse.mp hc)
  rw [trimEnd, List.reverse_append, List.dropWhile_append_of_pos ht']
  cases hr : s.reverse with
  | nil => simpa using hr.symm
  | cons c r =>
    have hc : p c = false := hs c (by rw [List.getLast?_eq_head?_reverse, hr]; rfl)
    rw [List.dropWhile_cons_of_neg (by simp [hc]), ← hr, List.reverse_reverse]

end Text

namespace Path

/-! ## Names -/

/-- What an entry of a directory may be called. -/
def IsName (n : Text) : Prop := n ≠ [] ∧ slash ∉ n

instance (n : Text) : Decidable (IsName n) := inferInstanceAs (Decidable (_ ∧ _))

/-- A name that normalization leaves alone. -/
structure IsPlain (n : Text) : Prop where
  name : IsName n
  noDot : n ≠ dotSegment
  noDotDot : n ≠ dotDotSegment
  noBackslash : backslash ∉ n

instance (n : Text) : Decidable (IsPlain n) :=
  decidable_of_iff (IsName n ∧ n ≠ dotSegment ∧ n ≠ dotDotSegment ∧ backslash ∉ n)
    ⟨fun h => ⟨h.1, h.2.1, h.2.2.1, h.2.2.2⟩, fun h => ⟨h.name, h.noDot, h.noDotDot, h.noBackslash⟩⟩

/-- The names, each behind a slash. -/
def below (ns : List Text) : Text := ns.flatMap fun n => slash :: n

/-- The absolute path with the given names. -/
def absolute (ns : List Text) : Text := if ns.isEmpty then [slash] else below ns

@[simp] theorem below_nil : below [] = [] := rfl
@[simp] theorem below_cons (n : Text) (ns : List Text) : below (n :: ns) = slash :: (n ++ below ns) := rfl
@[simp] theorem below_append (ms ns : List Text) : below (ms ++ ns) = below ms ++ below ns := by simp [below]
@[simp] theorem absolute_nil : absolute [] = [slash] := rfl

theorem absolute_of_ne_nil {ns : List Text} (h : ns ≠ []) : absolute ns = below ns := by
  simp [absolute, h]

theorem absolute_cons (ns : List Text) : ∃ t, absolute ns = slash :: t := by
  cases ns with
  | nil => exact ⟨[], rfl⟩
  | cons n ns => exact ⟨n ++ below ns, rfl⟩

theorem names_append_slash (s t : Text) : names (s ++ slash :: t) = names s ++ names t := by
  simp [names, Text.splitOn_append_sep]

theorem names_of_isName {n : Text} (h : IsName n) : names n = [n] := by
  simp [names, Text.splitOn_of_not_mem h.2, h.1]

theorem isName_of_mem_names {p n : Text} (h : n ∈ names p) : IsName n := by
  simp only [names, List.mem_filter, Bool.not_eq_true', List.isEmpty_eq_false_iff] at h
  exact ⟨h.2, Text.not_mem_of_mem_splitOn h.1⟩

theorem names_below {ns : List Text} (h : ∀ n ∈ ns, IsName n) : names (below ns) = ns := by
  induction ns with
  | nil => rfl
  | cons n ns ih =>
    have hn := names_of_isName (h n List.mem_cons_self)
    have ih := ih fun m hm => h m (List.mem_cons_of_mem _ hm)
    -- a name is read back whether or not a slash follows
    have hrest : names (n ++ below ns) = n :: ns := by
      cases ns with
      | nil => simpa using hn
      | cons m ms =>
        rw [below_cons, names_append_slash, hn]
        rw [below_cons] at ih
        have : names (slash :: (m ++ below ms)) = names (m ++ below ms) := names_append_slash [] _
        rw [← this, ih]; rfl
    calc names (below (n :: ns)) = names (n ++ below ns) := names_append_slash [] _
      _ = n :: ns := hrest

theorem names_absolute {ns : List Text} (h : ∀ n ∈ ns, IsName n) : names (absolute ns) = ns := by
  cases ns with
  | nil => rfl
  | cons n ns => exact names_below h

theorem absolute_inj {ms ns : List Text} (hm : ∀ n ∈ ms, IsName n) (hn : ∀ n ∈ ns, IsName n)
    (h : absolute ms = absolute ns) : ms = ns := by
  rw [← names_absolute hm, h, names_absolute hn]

theorem slash_join (ns : List Text) : slash :: Text.join [slash] ns = absolute ns := by
  induction ns with
  | nil => rfl
  | cons n ns ih =>
    cases ns with
    | nil => simp [Text.join, absolute]
    | cons m ms =>
      have : absolute (n :: m :: ms) = slash :: (n ++ absolute (m :: ms)) := rfl
      rw [this, ← ih]
      simp [Text.join]

theorem names_join {ns : List Text} (h : ∀ n ∈ ns, IsName n) : names (Text.join [slash] ns) = ns := by
  have hjoin : names (Text.join [slash] ns) = names (slash :: Text.join [slash] ns) := (names_append_slash [] _).symm
  rw [hjoin, slash_join, names_absolute h]

/-! ## Where a name ends -/

/-- The text is at its end or at a slash. -/
def AtBoundary (t : Text) : Prop := ∀ c ∈ t.head?, c = slash

theorem atBoundary_nil : AtBoundary [] := by simp [AtBoundary]

theorem atBoundary_slash (t : Text) : AtBoundary (slash :: t) := by simp [AtBoundary]

theorem atBoundary_below (ns : List Text) : AtBoundary (below ns) := by
  cases ns with
  | nil => exact atBoundary_nil
  | cons n ns => exact atBoundary_slash _

theorem segment_inj {a b u v : Text} (ha : slash ∉ a) (hb : slash ∉ b) (hu : AtBoundary u) (hv : AtBoundary v)
    (h : a ++ u = b ++ v) : a = b ∧ u = v := by
  induction a generalizing b with
  | nil =>
    cases b with
    | nil => exact ⟨rfl, h⟩
    | cons x b =>
      have hx : x = slash := hu x (by rw [show u = x :: (b ++ v) from h]; rfl)
      exact absurd (hx ▸ List.mem_cons_self) hb
  | cons x a ih =>
    cases b with
    | nil =>
      have hx : x = slash := hv x (by rw [show v = x :: (a ++ u) from h.symm]; rfl)
      exact absurd (hx ▸ List.mem_cons_self) ha
    | cons y b =>
      obtain ⟨rfl, h'⟩ := List.cons.inj h
      obtain ⟨rfl, huv⟩ := ih (fun m => ha (List.mem_cons_of_mem _ m)) (fun m => hb (List.mem_cons_of_mem _ m)) h'
      exact ⟨rfl, huv⟩

/-! ## Normalization -/

@[simp] theorem forwardSlashes_forwardSlashes (p : Text) : forwardSlashes (forwardSlashes p) = forwardSlashes p := by
  simp only [forwardSlashes, List.map_map]
  refine List.map_congr_left fun c _ => ?_
  by_cases h : c = backslash <;> simp [h]

theorem backslash_not_mem_forwardSlashes (p : Text) : backslash ∉ forwardSlashes p := by
  intro h
  obtain ⟨c, -, hc⟩ := List.mem_map.mp h
  split at hc
  · cases hc
  · contradiction

theorem forwardSlashes_of_not_mem {p : Text} (h : backslash ∉ p) : forwardSlashes p = p := by
  refine (List.map_congr_left fun c hc => ?_).trans (List.map_id p)
  have hne : c ≠ backslash := fun e => h (e ▸ hc)
  exact if_neg hne

@[simp] theorem forwardSlashes_append (s t : Text) : forwardSlashes (s ++ t) = forwardSlashes s ++ forwardSlashes t :=
  List.map_append

@[simp] theorem forwardSlashes_slash (s : Text) : forwardSlashes (slash :: s) = slash :: forwardSlashes s := rfl

theorem startsAtRoot_iff {p : Text} : startsAtRoot p = true ↔ ∃ t, p = slash :: t := by
  unfold startsAtRoot
  split
  · rename_i t
    exact ⟨fun _ => ⟨t, rfl⟩, fun _ => rfl⟩
  · rename_i h
    exact ⟨fun h => (Bool.false_ne_true h).elim, fun ⟨t, ht⟩ => absurd ht (h t)⟩

/-- Whether a path starts at the root shows at its start. -/
theorem startsAtRoot_of_start {p q : Text} (hp : p ≠ []) (h : p <+: q) : startsAtRoot q = startsAtRoot p := by
  obtain ⟨c, p, rfl⟩ := List.exists_cons_of_ne_nil hp
  obtain ⟨t, rfl⟩ := h
  rw [Bool.eq_iff_iff, startsAtRoot_iff, startsAtRoot_iff]
  constructor
  · intro ⟨u, hu⟩
    exact ⟨p, by rw [(List.cons.inj hu).1]⟩
  · intro ⟨u, hu⟩
    exact ⟨p ++ t, by rw [(List.cons.inj hu).1, List.cons_append]⟩

theorem startsAtRoot_of_isName {n : Text} (hn : IsName n) : startsAtRoot n = false := by
  rw [Bool.eq_false_iff]
  intro hroot
  obtain ⟨t, rfl⟩ := startsAtRoot_iff.mp hroot
  exact hn.2 List.mem_cons_self

theorem segments_append_slash (s t : Text) : segments (s ++ slash :: t) = segments s ++ segments t := by
  simp [segments, Text.splitOn_append_sep]

theorem segments_eq_names (p : Text) : segments p = (names p).filter (· != dotSegment) := by
  rw [segments, names, List.filter_filter]
  exact List.filter_congr fun n _ => Bool.and_comm _ _

theorem mem_segments {p n : Text} (h : n ∈ segments p) : IsName n ∧ n ≠ dotSegment := by
  simp only [segments, List.mem_filter, Bool.and_eq_true, Bool.not_eq_true', List.isEmpty_eq_false_iff,
    bne_iff_ne] at h
  exact ⟨⟨h.2.1, Text.not_mem_of_mem_splitOn h.1⟩, h.2.2⟩

theorem backslash_not_mem_segment {p n : Text} (hp : backslash ∉ p) (h : n ∈ segments p) : backslash ∉ n := by
  intro hb
  exact hp (Text.mem_pieces_iff.mp ⟨n, (List.mem_filter.mp h).1, hb⟩).1

/-- Below the root the stack holds no `..`. -/
theorem foldl_push_mem (l stack : List Text) (hs : dotDotSegment ∉ stack) :
    dotDotSegment ∉ l.foldl (push true) stack ∧ ∀ n ∈ l.foldl (push true) stack, n ∈ stack ∨ n ∈ l := by
  induction l generalizing stack with
  | nil => exact ⟨hs, fun n hn => Or.inl hn⟩
  | cons x l ih =>
    have hpush : dotDotSegment ∉ push true stack x ∧ ∀ n ∈ push true stack x, n ∈ stack ∨ n = x := by
      unfold push
      split
      · cases stack with
        | nil => simp
        | cons top rest =>
          have htop : top ≠ dotDotSegment := fun e => hs (e ▸ List.mem_cons_self)
          simp only [htop, if_false]
          exact ⟨fun h => hs (List.mem_cons_of_mem _ h), fun n hn => Or.inl (List.mem_cons_of_mem _ hn)⟩
      · rename_i hx
        exact ⟨fun h => (List.mem_cons.mp h).elim (fun e => hx e.symm) hs,
          fun n hn => (List.mem_cons.mp hn).elim Or.inr Or.inl⟩
    obtain ⟨h1, h2⟩ := ih (push true stack x) hpush.1
    refine ⟨h1, fun n hn => ?_⟩
    rcases h2 n hn with h | h
    · rcases hpush.2 n h with h | rfl
      · exact Or.inl h
      · exact Or.inr List.mem_cons_self
    · exact Or.inr (List.mem_cons_of_mem _ h)

theorem mem_fold {l : List Text} {n : Text} (h : n ∈ fold true l) : n ∈ l ∧ n ≠ dotDotSegment := by
  obtain ⟨h1, h2⟩ := foldl_push_mem l [] (by simp)
  have h := List.mem_reverse.mp h
  exact ⟨(h2 n h).resolve_left (by simp), fun e => h1 (e ▸ h)⟩

theorem foldl_push_of_not_mem (b : Bool) (l stack : List Text) (h : dotDotSegment ∉ l) :
    l.foldl (push b) stack = l.reverse ++ stack := by
  induction l generalizing stack with
  | nil => rfl
  | cons x l ih =>
    have hx : x ≠ dotDotSegment := fun e => h (e ▸ List.mem_cons_self)
    simp only [List.foldl_cons]
    rw [ih _ fun hl => h (List.mem_cons_of_mem _ hl)]
    simp [push, hx]

theorem fold_of_not_mem (b : Bool) {l : List Text} (h : dotDotSegment ∉ l) : fold b l = l := by
  simp [fold, foldl_push_of_not_mem b l [] h]

/-- What a `..` takes away may be taken away at once. -/
theorem fold_append_fold (l l' : List Text) : fold true (fold true l ++ l') = fold true (l ++ l') := by
  have hdots : dotDotSegment ∉ fold true l := fun h => (mem_fold h).2 rfl
  have hstack : (fold true l).foldl (push true) [] = l.foldl (push true) [] := by
    rw [foldl_push_of_not_mem true _ [] hdots, List.append_nil, fold, List.reverse_reverse]
  rw [fold, List.foldl_append, hstack, ← List.foldl_append]
  rfl

/-- The names of a path that starts at the root, once it is normalized. -/
def rootedNames (p : Text) : List Text := fold true (segments (forwardSlashes p))

theorem isPlain_of_mem_rootedNames {p n : Text} (h : n ∈ rootedNames p) : IsPlain n := by
  obtain ⟨h1, h2⟩ := mem_fold h
  obtain ⟨h3, h4⟩ := mem_segments h1
  exact ⟨h3, h4, h2, backslash_not_mem_segment (backslash_not_mem_forwardSlashes p) h1⟩

theorem normalize_rooted {p : Text} (h : startsAtRoot (forwardSlashes p) = true) :
    normalize p = absolute (rootedNames p) := by
  have hp : p ≠ [] := by rintro rfl; cases h
  simp only [normalize, List.isEmpty_iff, hp, if_false, simplify, h, if_true, slash_join, rootedNames]

theorem segments_below {ns : List Text} (h : ∀ n ∈ ns, IsName n ∧ n ≠ dotSegment) : segments (below ns) = ns := by
  rw [segments_eq_names, names_below fun n hn => (h n hn).1]
  exact List.filter_eq_self.mpr fun n hn => bne_iff_ne.mpr (h n hn).2

theorem backslash_not_mem_below {ns : List Text} (h : ∀ n ∈ ns, backslash ∉ n) : backslash ∉ below ns := by
  intro hb
  obtain ⟨n, hn, hb⟩ := List.mem_flatMap.mp hb
  rcases List.mem_cons.mp hb with hb | hb
  · cases hb
  · exact h n hn hb

theorem segments_absolute {ns : List Text} (h : ∀ n ∈ ns, IsPlain n) : segments (forwardSlashes (absolute ns)) = ns := by
  cases hns : ns with
  | nil => rfl
  | cons m ms =>
    rw [← hns, absolute_of_ne_nil (by simp [hns]),
      forwardSlashes_of_not_mem (backslash_not_mem_below fun n hn => (h n hn).noBackslash),
      segments_below fun n hn => ⟨(h n hn).name, (h n hn).noDot⟩]

theorem rootedNames_absolute {ns : List Text} (h : ∀ n ∈ ns, IsPlain n) : rootedNames (absolute ns) = ns := by
  rw [rootedNames, segments_absolute h]
  exact fold_of_not_mem true fun hd => (h _ hd).noDotDot rfl

theorem startsAtRoot_absolute (ns : List Text) : startsAtRoot (absolute ns) = true := by
  obtain ⟨t, ht⟩ := absolute_cons ns
  rw [ht]; rfl

theorem startsAtRoot_forwardSlashes {p : Text} (h : startsAtRoot p = true) : startsAtRoot (forwardSlashes p) = true := by
  obtain ⟨t, rfl⟩ := startsAtRoot_iff.mp h
  rfl

theorem normalize_absolute {ns : List Text} (h : ∀ n ∈ ns, IsPlain n) : normalize (absolute ns) = absolute ns := by
  rw [normalize_rooted (startsAtRoot_forwardSlashes (startsAtRoot_absolute ns)), rootedNames_absolute h]

/-- A normalized path that starts at the root is the absolute path of plain names. -/
theorem eq_absolute_of_normalize {p : Text} (hp : startsAtRoot p = true) (hn : normalize p = p) :
    ∃ ns, p = absolute ns ∧ ∀ n ∈ ns, IsPlain n :=
  ⟨rootedNames p, hn.symm.trans (normalize_rooted (startsAtRoot_forwardSlashes hp)), fun _ => isPlain_of_mem_rootedNames⟩

/-! ## Resolution -/

theorem startsAtRoot_of_isRooted_false {p : Text} (h : isRooted p = false) : startsAtRoot (forwardSlashes p) = false := by
  cases hs : startsAtRoot (forwardSlashes p) with
  | false => rfl
  | true =>
    obtain ⟨t, ht⟩ := startsAtRoot_iff.mp hs
    simp [isRooted, ht] at h

theorem isRooted_of_startsAtRoot {p : Text} (hp : startsAtRoot p = true) : isRooted p = true := by
  obtain ⟨t, rfl⟩ := startsAtRoot_iff.mp hp
  rfl

theorem isRooted_of_start {p q : Text} (hp : isRooted p = true) (h : p <+: q) : isRooted q = true := by
  obtain ⟨t, ht⟩ := List.IsPrefix.map (fun c => if c = backslash then slash else c) h
  unfold isRooted forwardSlashes at hp ⊢
  rw [← ht]
  split at hp
  · rename_i heq
    rw [heq]
    rfl
  · rename_i heq
    rw [heq]
    split
    · rfl
    · rfl
    · rename_i h
      exact absurd rfl (h _ _)
  · cases hp

theorem isRooted_forwardSlashes (p : Text) : isRooted (forwardSlashes p) = isRooted p := by
  simp [isRooted]

theorem segments_join {directory p : Text} (h : startsAtRoot directory = true) (hp : startsAtRoot p = false) :
    startsAtRoot (join directory p) = true ∧ segments (join directory p) = segments directory ++ segments p := by
  obtain ⟨t, rfl⟩ := startsAtRoot_iff.mp h
  simp only [join, hp, List.isEmpty_cons, Bool.false_or, Bool.false_eq_true, if_false]
  split
  · rename_i he
    -- the slash at the end of the directory is the one between the two
    obtain ⟨d, hd⟩ := List.isSuffixOf_iff_suffix.mp he
    refine ⟨rfl, ?_⟩
    have h1 : slash :: t ++ p = d ++ slash :: p := by rw [← hd]; simp
    have h2 : slash :: t = d ++ slash :: [] := hd.symm
    rw [h1, h2, segments_append_slash, segments_append_slash]
    simp [segments, Text.splitOn]
  · exact ⟨rfl, segments_append_slash _ _⟩

theorem forwardSlashes_join (directory p : Text) :
    forwardSlashes (join (forwardSlashes directory) (forwardSlashes p)) = join (forwardSlashes directory) (forwardSlashes p) := by
  apply forwardSlashes_of_not_mem
  have := backslash_not_mem_forwardSlashes p
  have := backslash_not_mem_forwardSlashes directory
  have : backslash ≠ slash := by decide
  unfold join
  split
  · assumption
  · split <;> simp_all

/-- A relative path read in a directory that starts at the root. -/
theorem resolve_relative {p d : Text} (hd : startsAtRoot (forwardSlashes d) = true) (hp : isRooted p = false) :
    resolve p d = absolute (fold true (segments (forwardSlashes d) ++ segments (forwardSlashes p))) := by
  obtain ⟨h1, h2⟩ := segments_join hd (startsAtRoot_of_isRooted_false hp)
  have hj := forwardSlashes_join d p
  simp only [resolve, isRooted_forwardSlashes, hp, Bool.false_eq_true, if_false]
  rw [normalize_rooted (by rw [hj]; exact h1), rootedNames, hj, h2]

theorem resolve_of_startsAtRoot {p : Text} (hp : startsAtRoot (forwardSlashes p) = true) (d : Text) :
    resolve p d = normalize p := by
  obtain ⟨t, ht⟩ := startsAtRoot_iff.mp hp
  have hr : isRooted (forwardSlashes p) = true := by simp [isRooted, ht]
  simp only [resolve, hr, if_true]
  rw [normalize_rooted hp, normalize_rooted (by rw [forwardSlashes_forwardSlashes]; exact hp)]
  simp [rootedNames]

/-- The path starts with a drive, not at the root. -/
def IsDriveRooted (p : Text) : Prop := isRooted p = true ∧ startsAtRoot (forwardSlashes p) = false

instance (p : Text) : Decidable (IsDriveRooted p) := inferInstanceAs (Decidable (_ ∧ _))

theorem isPlain_of_mem_fold {d p n : Text} (h : n ∈ fold true (segments (forwardSlashes d) ++ segments (forwardSlashes p))) :
    IsPlain n := by
  obtain ⟨h1, h2⟩ := mem_fold h
  rcases List.mem_append.mp h1 with h1 | h1
  · obtain ⟨h3, h4⟩ := mem_segments h1
    exact ⟨h3, h4, h2, backslash_not_mem_segment (backslash_not_mem_forwardSlashes d) h1⟩
  · obtain ⟨h3, h4⟩ := mem_segments h1
    exact ⟨h3, h4, h2, backslash_not_mem_segment (backslash_not_mem_forwardSlashes p) h1⟩

/-- A path without a drive, read in a directory that starts at the root, gives an absolute path of plain names. -/
theorem exists_resolve_eq_absolute {p d : Text} (hd : startsAtRoot d = true) (hp : ¬ IsDriveRooted p) :
    ∃ ns, resolve p d = absolute ns ∧ ∀ n ∈ ns, IsPlain n := by
  have hd := startsAtRoot_forwardSlashes hd
  cases hr : isRooted p with
  | false => exact ⟨_, resolve_relative hd hr, fun _ => isPlain_of_mem_fold⟩
  | true =>
    have hs : startsAtRoot (forwardSlashes p) = true := by
      cases hs : startsAtRoot (forwardSlashes p) with
      | true => rfl
      | false => exact absurd ⟨hr, hs⟩ hp
    exact ⟨rootedNames p, by rw [resolve_of_startsAtRoot hs, normalize_rooted hs], fun _ => isPlain_of_mem_rootedNames⟩

/-! ## Parents and entries -/

theorem getLast?_below_ne_slash {ns : List Text} (h : ∀ n ∈ ns, IsName n) : ∀ c ∈ (below ns).getLast?, c ≠ slash := by
  intro c hc
  cases hns : ns.reverse with
  | nil => rw [List.reverse_eq_nil_iff.mp hns] at hc; cases hc
  | cons n ms =>
    have he : ns = ms.reverse ++ [n] := by rw [← List.reverse_reverse ns, hns]; simp
    have hn := h n (by rw [he]; simp)
    rw [he, below_append, below_cons, below_nil, List.append_nil, List.getLast?_append_cons] at hc
    obtain ⟨a, s, hs⟩ := List.exists_cons_of_ne_nil hn.1
    rw [hs, List.getLast?_cons_cons, ← hs] at hc
    exact fun e => hn.2 (e ▸ List.mem_of_getLast? hc)

theorem entry_absolute {ns : List Text} (h : ∀ n ∈ ns, IsName n) (n : Text) :
    entry (absolute ns) n = absolute (ns ++ [n]) := by
  cases hns : ns with
  | nil => simp [entry, absolute, Text.endsWith]
  | cons m ms =>
    have hne : ns ≠ [] := by simp [hns]
    have hend : Text.endsWith (below ns) [slash] = false := by
      cases he : Text.endsWith (below ns) [slash] with
      | false => rfl
      | true =>
        obtain ⟨d, hd⟩ := List.isSuffixOf_iff_suffix.mp he
        exact absurd rfl (getLast?_below_ne_slash h slash (by rw [← hd]; simp))
    have hemp : (below ns).isEmpty = false := by simp [hns]
    rw [← hns, absolute_of_ne_nil hne, absolute_of_ne_nil (by simp)]
    simp [entry, hend, hemp]

theorem parent_absolute {ns : List Text} (h : ∀ n ∈ ns, IsName n) : parent (absolute ns) = absolute ns.dropLast := by
  cases hns : ns.reverse with
  | nil => rw [List.reverse_eq_nil_iff.mp hns]; rfl
  | cons n ms =>
    have he : ns = ms.reverse ++ [n] := by rw [← List.reverse_reverse ns, hns]; simp
    have hn := h n (by rw [he]; simp)
    have hms : ∀ m ∈ ms.reverse, IsName m := fun m hm => h m (by rw [he]; exact List.mem_append_left _ hm)
    have hthrough : Text.throughLast slash (absolute ns) = below ms.reverse ++ [slash] := by
      rw [he, absolute_of_ne_nil (by simp), below_append, below_cons, below_nil, List.append_nil,
        Text.throughLast_append _ _ hn.2]
    simp only [parent, hthrough]
    rw [he, List.dropLast_concat]
    cases hm : ms.reverse with
    | nil => rfl
    | cons m rest =>
      obtain ⟨c, s, hc⟩ := List.exists_cons_of_ne_nil (hms m (by rw [hm]; simp)).1
      have hcs : c ≠ slash := fun e => (hms m (by rw [hm]; simp)).2 (by rw [hc, e]; exact List.mem_cons_self)
      have hall : (below (m :: rest) ++ [slash]).all (· == slash) = false := by simp [hc, hcs]
      rw [if_neg (by rw [hall]; exact Bool.false_ne_true), absolute_of_ne_nil (by simp), ← hm]
      refine Text.trimEnd_append_of_not _ _ _ (fun c hc => ?_) (by simp)
      simpa using getLast?_below_ne_slash hms c hc

theorem directory_rooted {p : Text} (hp : startsAtRoot (forwardSlashes p) = true) :
    directory p = absolute (rootedNames p).dropLast := by
  rw [directory, normalize_rooted hp, parent_absolute fun n hn => (isPlain_of_mem_rootedNames hn).name]

theorem startsAtRoot_normalize {p : Text} (hp : startsAtRoot p = true) : startsAtRoot (normalize p) = true := by
  rw [normalize_rooted (startsAtRoot_forwardSlashes hp)]
  exact startsAtRoot_absolute _

theorem startsAtRoot_directory {p : Text} (hp : startsAtRoot p = true) : startsAtRoot (directory p) = true := by
  rw [directory_rooted (startsAtRoot_forwardSlashes hp)]
  exact startsAtRoot_absolute _

end Path

end TsProject
