/-
  TsProject.Proofs.Normal — paths cut at their slashes, and paths in normal form.

  A path is its pieces: cutting and joining undo each other. Lower case maps a path piece
  by piece, since a slash ends every context in which a letter is mapped. A path is in
  normal form when normalization leaves it alone; if it is rooted besides, it is a root,
  the root directory or a drive, with plain names below it.

  - `splitOn_lower`: lower case keeps the pieces apart.
  - `normalize_normalize`: what is normalized is in normal form.
  - `IsNormal`: rooted paths in normal form, and the names they are made of.
-/

import TsProject.Proofs.Case
import TsProject.Proofs.Path

namespace TsProject

open CodePoint

/-! ## Pieces -/

namespace Text

theorem join_cons (sep p : Text) {ps : List Text} (hps : ps ≠ []) : join sep (p :: ps) = p ++ sep ++ join sep ps := by
  cases ps with
  | nil => exact absurd rfl hps
  | cons q qs => rfl

theorem join_splitOn (sep : CodePoint) (s : Text) : join [sep] (splitOn sep s) = s := by
  induction s with
  | nil => rfl
  | cons c s ih =>
    by_cases hc : c = sep
    · rw [splitOn, if_pos hc, join_cons _ _ (splitOn_ne_nil sep s), ih, hc]
      rfl
    · rw [splitOn, if_neg hc]
      cases hs : splitOn sep s with
      | nil => exact absurd hs (splitOn_ne_nil sep s)
      | cons piece pieces =>
        rw [hs] at ih
        rw [← ih]
        cases pieces with
        | nil => rfl
        | cons q qs => rfl

theorem splitOn_join {sep : CodePoint} {ps : List Text} (hps : ps ≠ []) (h : ∀ p ∈ ps, sep ∉ p) :
    splitOn sep (join [sep] ps) = ps := by
  induction ps with
  | nil => exact absurd rfl hps
  | cons p ps ih =>
    obtain ⟨hp, hrest⟩ := List.forall_mem_cons.mp h
    cases ps with
    | nil => exact splitOn_of_not_mem hp
    | cons q qs =>
      have hne : q :: qs ≠ [] := List.cons_ne_nil q qs
      rw [join_cons _ _ hne, List.append_assoc, List.singleton_append, splitOn_append_sep, splitOn_of_not_mem hp,
        ih hne hrest]
      rfl

theorem join_concat (sep p : Text) {ps : List Text} (hps : ps ≠ []) : join sep (ps ++ [p]) = join sep ps ++ sep ++ p := by
  induction ps with
  | nil => exact absurd rfl hps
  | cons q ps ih =>
    cases ps with
    | nil => rfl
    | cons r rs =>
      have hne : r :: rs ≠ [] := List.cons_ne_nil r rs
      rw [List.cons_append, join_cons sep q (List.append_ne_nil_of_left_ne_nil hne [p]), ih hne, join_cons sep q hne]
      simp only [List.append_assoc]

/-! ## Lower case -/

theorem startsCased_append_slash (s t : Text) : startsCased (s ++ slash :: t) = startsCased s := by
  have hslash : isCaseIgnorable slash = false ∧ isCased slash = false := by decide +kernel
  rw [startsCased, startsCased, List.dropWhile_append]
  cases hs : s.dropWhile isCaseIgnorable with
  | nil => simp [hslash.1, hslash.2]
  | cons c rest => rfl

/-- What stands before a slash does not show in what is behind it. -/
theorem lowerAfter_behind_slash (b before s : Text) : lowerAfter (b ++ slash :: before) s = lowerAfter b s := by
  induction s generalizing b with
  | nil => rfl
  | cons c s ih =>
    have hrest := ih (c :: b)
    rw [List.cons_append] at hrest
    simp only [lowerAfter, startsCased_append_slash, hrest]

theorem lowerAfter_append_slash (before s t : Text) :
    lowerAfter before (s ++ slash :: t) = lowerAfter before s ++ slash :: lower t := by
  induction s generalizing before with
  | nil =>
    have hbehind := lowerAfter_behind_slash [] before t
    rw [List.nil_append] at hbehind
    change slash :: lowerAfter (slash :: before) t = slash :: lowerAfter [] t
    rw [hbehind]
  | cons c s ih =>
    simp only [List.cons_append, lowerAfter, startsCased_append_slash, ih, List.append_assoc]

theorem lower_append_slash (s t : Text) : lower (s ++ slash :: t) = lower s ++ slash :: lower t :=
  lowerAfter_append_slash [] s t

/-- A code point of ASCII that is no letter: a slash, a dot, a colon and the like. -/
def isCaseless (c : CodePoint) : Bool := isAscii c && !isAsciiLetter c

theorem lowerPoint_of_caseless : ∀ c < 0x80, isCaseless (lowerPoint c) = true ∨ isCaseless c = true → lowerPoint c = c := by
  decide +kernel

theorem lowerPoint_eq_caseless_iff {x : CodePoint} (hx : isCaseless x = true) (c : CodePoint) : lowerPoint c = x ↔ c = x := by
  have hascii : isAscii x = true := (Bool.and_eq_true_iff.mp hx).1
  constructor
  · intro hc
    have hi : x ≠ 0x69 := by
      rintro rfl
      cases hx
    have hk : x ≠ 0x6B := by
      rintro rfl
      cases hx
    rw [← hc] at hascii hx hi hk
    have hlt : c < 0x80 := of_decide_eq_true (isAscii_of_lowerPoint hascii hi hk)
    rw [← hc, lowerPoint_of_caseless c hlt (Or.inl hx)]
  · intro hc
    subst hc
    exact lowerPoint_of_caseless c (of_decide_eq_true hascii) (Or.inr hx)

/-- Lower case neither makes nor loses a caseless code point. -/
theorem mem_lower_iff {x : CodePoint} (hx : isCaseless x = true) (s : Text) : x ∈ lower s ↔ x ∈ s := by
  have hne : ∀ y, isCaseless y = false → x ≠ y := by
    intro y hy hxy
    rw [hxy, hy] at hx
    cases hx
  have hall : ∀ before, x ∈ lowerAfter before s ↔ x ∈ s := by
    induction s with
    | nil => exact fun _ => Iff.rfl
    | cons c s ih =>
      intro before
      rw [lowerAfter, List.mem_append, ih, List.mem_cons]
      apply or_congr_left
      by_cases h130 : c = 0x130
      · simp [h130, hne 0x130 rfl, hne 0x69 rfl, hne 0x307 rfl]
      · by_cases h3A3 : c = 0x3A3
        · rw [if_neg h130, if_pos h3A3, h3A3]
          split
          · simp [hne 0x3A3 rfl, hne 0x3C2 rfl]
          · simp [hne 0x3A3 rfl, hne 0x3C3 rfl]
        · rw [if_neg h130, if_neg h3A3, List.mem_singleton]
          exact eq_comm.trans ((lowerPoint_eq_caseless_iff hx c).trans eq_comm)
  exact hall []

theorem lower_eq_nil_iff {s : Text} : lower s = [] ↔ s = [] := by
  constructor
  · intro h
    cases s with
    | nil => rfl
    | cons c s =>
      obtain ⟨start, last, hcons, -⟩ := lowerAfter_cons [] c s
      rw [lower, hcons] at h
      simp at h
  · rintro rfl
    rfl

/-- What is caseless in lower case was so before. -/
theorem eq_of_lower_eq {s t : Text} (ht : ∀ c ∈ t, isCaseless c = true) (h : lower s = t) : s = t := by
  have hascii : ∀ c ∈ lower s, isAscii c = true := by
    intro c hc
    rw [h] at hc
    exact (Bool.and_eq_true_iff.mp (ht c hc)).1
  have hmap : s.map lowerPoint = t := (lowerAfter_eq_map hascii).symm.trans h
  rw [← hmap]
  refine (List.map_id s).symm.trans (List.map_congr_left fun c hc => ?_)
  have himage : lowerPoint c ∈ t := by
    rw [← hmap]
    exact List.mem_map_of_mem hc
  exact (lowerPoint_eq_caseless_iff (ht _ himage) c).mp rfl

theorem lower_join {ps : List Text} : lower (join [slash] ps) = join [slash] (ps.map lower) := by
  induction ps with
  | nil => rfl
  | cons p ps ih =>
    cases ps with
    | nil => rfl
    | cons q qs =>
      have hne : (q :: qs).map lower ≠ [] := List.cons_ne_nil _ _
      have hjoin : join [slash] ((p :: q :: qs).map lower) = lower p ++ [slash] ++ join [slash] ((q :: qs).map lower) :=
        join_cons _ _ hne
      rw [hjoin, join_cons _ _ (List.cons_ne_nil q qs), List.append_assoc, List.singleton_append, lower_append_slash, ih,
        List.append_assoc, List.singleton_append]

/-- Lower case maps a path piece by piece. -/
theorem splitOn_lower (s : Text) : splitOn slash (lower s) = (splitOn slash s).map lower := by
  have hpieces : ∀ p ∈ (splitOn slash s).map lower, slash ∉ p := by
    intro p hp
    obtain ⟨q, hq, rfl⟩ := List.mem_map.mp hp
    rw [mem_lower_iff rfl]
    exact not_mem_of_mem_splitOn hq
  have hne : (splitOn slash s).map lower ≠ [] := by
    intro h
    exact splitOn_ne_nil slash s (List.map_eq_nil_iff.mp h)
  calc splitOn slash (lower s) = splitOn slash (lower (join [slash] (splitOn slash s))) := by rw [join_splitOn]
    _ = splitOn slash (join [slash] ((splitOn slash s).map lower)) := by rw [lower_join]
    _ = (splitOn slash s).map lower := splitOn_join hne hpieces

end Text

namespace Path

open Text

/-! ## Normalization again -/

/-- One segment of a relative path keeps every `..` before the names. -/
theorem push_false (names : List Text) (k : Nat) (hnames : dotDotSegment ∉ names) (x : Text) :
    ∃ names' k', push false (names ++ List.replicate k dotDotSegment) x = names' ++ List.replicate k' dotDotSegment ∧
      dotDotSegment ∉ names' ∧ ∀ n ∈ names', n ∈ names ∨ n = x := by
  by_cases hx : x = dotDotSegment
  · subst hx
    cases names with
    | nil =>
      refine ⟨[], k + 1, ?_, by simp, by simp⟩
      cases k with
      | zero => rfl
      | succ k => simp [push, List.replicate_succ]
    | cons top names =>
      obtain ⟨htop, hbelow⟩ := List.ne_and_not_mem_of_not_mem_cons hnames
      exact ⟨names, k, by simp [push, Ne.symm htop], hbelow, fun n hn => Or.inl (List.mem_cons_of_mem _ hn)⟩
  · refine ⟨x :: names, k, by simp [push, hx], List.not_mem_cons_of_ne_of_not_mem (Ne.symm hx) hnames, ?_⟩
    exact fun n hn => (List.mem_cons.mp hn).symm

/-- In a relative path every `..` that is left stands before the names. -/
theorem foldl_push_false (l names : List Text) (k : Nat) (hnames : dotDotSegment ∉ names) :
    ∃ names' k', l.foldl (push false) (names ++ List.replicate k dotDotSegment) =
        names' ++ List.replicate k' dotDotSegment ∧ dotDotSegment ∉ names' ∧ ∀ n ∈ names', n ∈ names ∨ n ∈ l := by
  induction l generalizing names k with
  | nil => exact ⟨names, k, rfl, hnames, fun n hn => Or.inl hn⟩
  | cons x l ih =>
    obtain ⟨names₁, k₁, he₁, hnames₁, hmem₁⟩ := push_false names k hnames x
    obtain ⟨names₂, k₂, he₂, hnames₂, hmem₂⟩ := ih names₁ k₁ hnames₁
    refine ⟨names₂, k₂, by rw [List.foldl_cons, he₁, he₂], hnames₂, ?_⟩
    intro n hn
    rcases hmem₂ n hn with h | h
    · rcases hmem₁ n h with h | h
      · exact Or.inl h
      · exact Or.inr (List.mem_cons.mpr (Or.inl h))
    · exact Or.inr (List.mem_cons_of_mem _ h)

theorem fold_false (l : List Text) :
    ∃ k names, fold false l = List.replicate k dotDotSegment ++ names ∧ dotDotSegment ∉ names ∧ ∀ n ∈ names, n ∈ l := by
  obtain ⟨names, k, he, hnames, hmem⟩ := foldl_push_false l [] 0 (by simp)
  refine ⟨k, names.reverse, ?_, by simpa using hnames, ?_⟩
  · change l.foldl (push false) [] = _ at he
    rw [fold, he, List.reverse_append, List.reverse_replicate]
  · intro n hn
    exact (hmem n (List.mem_reverse.mp hn)).resolve_left (by simp)

/-- A path that climbs first and then names directories stays as it is. -/
theorem fold_climb (k : Nat) {names : List Text} (hnames : dotDotSegment ∉ names) :
    fold false (List.replicate k dotDotSegment ++ names) = List.replicate k dotDotSegment ++ names := by
  have hpush : ∀ j, push false (List.replicate j dotDotSegment) dotDotSegment = List.replicate (j + 1) dotDotSegment := by
    intro j
    cases j with
    | zero => rfl
    | succ j => simp [push, List.replicate_succ]
  have hdots : ∀ k j, (List.replicate k dotDotSegment).foldl (push false) (List.replicate j dotDotSegment) =
      List.replicate (j + k) dotDotSegment := by
    intro k
    induction k with
    | zero => exact fun j => rfl
    | succ k ih =>
      intro j
      rw [List.replicate_succ, List.foldl_cons, hpush, ih]
      congr 1
      omega
  have hfirst := hdots k 0
  rw [List.replicate_zero, Nat.zero_add] at hfirst
  rw [fold, List.foldl_append, hfirst, foldl_push_of_not_mem false names _ hnames, List.reverse_append,
    List.reverse_replicate, List.reverse_reverse]

theorem fold_fold (b : Bool) (l : List Text) : fold b (fold b l) = fold b l := by
  cases b with
  | true => exact fold_of_not_mem true fun h => (mem_fold h).2 rfl
  | false =>
    obtain ⟨k, names, he, hnames, -⟩ := fold_false l
    rw [he]
    exact fold_climb k hnames

/-- The segments that are left are names without backslashes, none of them a dot. -/
theorem mem_fold_segments {b : Bool} {p n : Text} (h : n ∈ fold b (segments (forwardSlashes p))) :
    IsName n ∧ n ≠ dotSegment ∧ backslash ∉ n := by
  have hsegment : n ∈ segments (forwardSlashes p) → IsName n ∧ n ≠ dotSegment ∧ backslash ∉ n := by
    intro hn
    obtain ⟨hname, hdot⟩ := mem_segments hn
    exact ⟨hname, hdot, backslash_not_mem_segment (backslash_not_mem_forwardSlashes p) hn⟩
  cases b with
  | true => exact hsegment (mem_fold h).1
  | false =>
    obtain ⟨k, names, he, -, hmem⟩ := fold_false (segments (forwardSlashes p))
    rw [he] at h
    rcases List.mem_append.mp h with h | h
    · rw [List.eq_of_mem_replicate h]
      exact ⟨by decide, by decide, by decide⟩
    · exact hsegment (hmem n h)

theorem join_eq_below (p : Text) (ns : List Text) : Text.join [slash] (p :: ns) = p ++ below ns := by
  induction ns generalizing p with
  | nil => simp [Text.join]
  | cons n ns ih => rw [join_cons _ _ (List.cons_ne_nil n ns), ih, below_cons, List.append_assoc, List.singleton_append]

theorem backslash_not_mem_join {ns : List Text} (h : ∀ n ∈ ns, backslash ∉ n) : backslash ∉ Text.join [slash] ns := by
  cases ns with
  | nil => simp [Text.join]
  | cons n ns =>
    obtain ⟨hn, hns⟩ := List.forall_mem_cons.mp h
    rw [join_eq_below, List.mem_append, not_or]
    exact ⟨hn, backslash_not_mem_below hns⟩

/-- A relative path that is normalized. -/
theorem normalize_unrooted {p : Text} (hp : p ≠ []) (h : startsAtRoot (forwardSlashes p) = false) :
    normalize p = if fold false (segments (forwardSlashes p)) = [] then dotSegment
      else Text.join [slash] (fold false (segments (forwardSlashes p))) := by
  rw [normalize, if_neg (by simpa using hp), simplify, h]
  cases hfold : fold false (segments (forwardSlashes p)) with
  | nil => rfl
  | cons n ns =>
    have hn : n ≠ [] := (mem_fold_segments (b := false) (p := p) (hfold ▸ List.mem_cons_self)).1.1
    have hjoin : (Text.join [slash] (n :: ns)).isEmpty = false := by
      rw [join_eq_below]
      simp [hn]
    simp [hjoin]

/-- Normalization neither takes a path from the root nor brings it there. -/
theorem startsAtRoot_normalize_eq (p : Text) : startsAtRoot (normalize p) = startsAtRoot (forwardSlashes p) := by
  by_cases hp : p = []
  · rw [hp]
    rfl
  · cases hroot : startsAtRoot (forwardSlashes p) with
    | true =>
      rw [normalize_rooted hroot]
      exact startsAtRoot_absolute _
    | false =>
      rw [normalize_unrooted hp hroot]
      split
      · rfl
      · rename_i hne
        obtain ⟨n, ns, hns⟩ := List.exists_cons_of_ne_nil hne
        have hn : IsName n := (mem_fold_segments (b := false) (p := p) (hns ▸ List.mem_cons_self)).1
        rw [hns, join_eq_below, startsAtRoot_of_start hn.1 (List.prefix_append n _), startsAtRoot_of_isName hn]

/-- Names joined are a relative path, cut where they were joined. -/
theorem pieces_join_names {ns : List Text} (h : ∀ n ∈ ns, IsName n ∧ n ≠ dotSegment ∧ backslash ∉ n) :
    forwardSlashes (Text.join [slash] ns) = Text.join [slash] ns ∧ segments (Text.join [slash] ns) = ns ∧
      startsAtRoot (Text.join [slash] ns) = false := by
  cases ns with
  | nil => exact ⟨rfl, rfl, rfl⟩
  | cons n ns =>
    refine ⟨forwardSlashes_of_not_mem (backslash_not_mem_join fun m hm => (h m hm).2.2), ?_, ?_⟩
    · rw [segments, splitOn_join (List.cons_ne_nil n ns) fun m hm => (h m hm).1.2]
      refine List.filter_eq_self.mpr fun m hm => ?_
      simp [(h m hm).1.1, (h m hm).2.1]
    · obtain ⟨hname, -⟩ := h n List.mem_cons_self
      rw [join_eq_below, startsAtRoot_of_start hname.1 (List.prefix_append n _), startsAtRoot_of_isName hname]

/-- What is normalized stays as it is. -/
theorem normalize_normalize (p : Text) : normalize (normalize p) = normalize p := by
  by_cases hp : p = []
  · rw [hp]
    rfl
  · cases hroot : startsAtRoot (forwardSlashes p) with
    | true =>
      rw [normalize_rooted hroot]
      exact normalize_absolute fun _ => isPlain_of_mem_rootedNames
    | false =>
      rw [normalize_unrooted hp hroot]
      by_cases hnone : fold false (segments (forwardSlashes p)) = []
      · rw [if_pos hnone]
        decide
      · rw [if_neg hnone]
        obtain ⟨hslashes, hsegments, hrelative⟩ :=
          pieces_join_names fun n hn => mem_fold_segments (b := false) (p := p) hn
        have hne : Text.join [slash] (fold false (segments (forwardSlashes p))) ≠ [] := by
          intro h
          rw [h] at hsegments
          exact hnone hsegments.symm
        rw [normalize_unrooted hne (by rw [hslashes, hrelative]), hslashes, hsegments, fold_fold, if_neg hnone]

theorem normalize_forwardSlashes (p : Text) : normalize (forwardSlashes p) = normalize p := by
  cases p with
  | nil => rfl
  | cons c p =>
    have hslashes := forwardSlashes_forwardSlashes (c :: p)
    unfold normalize
    rw [hslashes]
    rfl

theorem resolve_of_isRooted {p : Text} (hp : isRooted p = true) (d : Text) : resolve p d = normalize p := by
  rw [resolve]
  simp only [isRooted_forwardSlashes, hp, if_true]
  exact normalize_forwardSlashes p

/-! ## Rooted paths in normal form -/

/-- What stands before the first slash of a rooted path: nothing, or a drive. -/
inductive IsRoot : Text → Prop
  | top : IsRoot []
  | drive {c : CodePoint} : c ≠ slash → c ≠ backslash → IsRoot [c, colon]

/-- A root with plain names below it. -/
def IsNormal (p : Text) : Prop :=
  ∃ root ns, IsRoot root ∧ ns ≠ [] ∧ (∀ n ∈ ns, IsPlain n) ∧ splitOn slash p = root :: ns

/-- A root with plain names below it, or with none, and perhaps with a slash at the end. -/
def IsDirectory (d : Text) : Prop :=
  d ≠ [] ∧ ∃ root ns tail, IsRoot root ∧ (∀ n ∈ ns, IsPlain n) ∧ (tail = [] ∨ tail = [[]]) ∧
    splitOn slash d = root :: (ns ++ tail)

theorem splitOn_below {root : Text} (hroot : slash ∉ root) {ns : List Text} (hns : ∀ n ∈ ns, slash ∉ n) :
    splitOn slash (root ++ below ns) = root :: ns := by
  rw [← join_eq_below]
  exact splitOn_join (List.cons_ne_nil root ns) (List.forall_mem_cons.mpr ⟨hroot, hns⟩)

theorem eq_below_of_splitOn {p root : Text} {ns : List Text} (h : splitOn slash p = root :: ns) : p = root ++ below ns := by
  rw [← join_splitOn slash p, h, join_eq_below]

theorem IsRoot.not_mem {root : Text} (h : IsRoot root) : slash ∉ root ∧ backslash ∉ root := by
  cases h with
  | top => exact ⟨List.not_mem_nil, List.not_mem_nil⟩
  | drive hslash hbackslash =>
    have hcolon : slash ≠ colon ∧ backslash ≠ colon := by decide
    simp [Ne.symm hslash, Ne.symm hbackslash, hcolon.1, hcolon.2]

theorem exists_drive {p : Text} (hrooted : isRooted p = true) (hstart : startsAtRoot (forwardSlashes p) = false) :
    ∃ c t, c ≠ slash ∧ forwardSlashes p = c :: colon :: slash :: t := by
  unfold isRooted at hrooted
  split at hrooted
  · rename_i heq
    rw [heq] at hstart
    cases hstart
  · rename_i c t hnot heq
    refine ⟨_, _, ?_, heq⟩
    rintro rfl
    exact hnot rfl
  · cases hrooted

/-- A relative path in normal form climbs with its first segments only. -/
theorem exists_climb {p : Text} (hne : p ≠ []) (hstart : startsAtRoot (forwardSlashes p) = false) (hnormal : normalize p = p)
    (hdot : p ≠ dotSegment) : forwardSlashes p = p ∧
      ∃ k names, splitOn slash p = List.replicate k dotDotSegment ++ names ∧ ∀ n ∈ names, IsPlain n := by
  rw [normalize_unrooted hne hstart] at hnormal
  have hsome : fold false (segments (forwardSlashes p)) ≠ [] := by
    intro hnone
    rw [if_pos hnone] at hnormal
    exact hdot hnormal.symm
  rw [if_neg hsome] at hnormal
  have hsegments : ∀ n ∈ fold false (segments (forwardSlashes p)), IsName n ∧ n ≠ dotSegment ∧ backslash ∉ n :=
    fun n hn => mem_fold_segments (b := false) (p := p) hn
  obtain ⟨hslashes, -⟩ := pieces_join_names hsegments
  have hcut := splitOn_join hsome fun n hn => (hsegments n hn).1.2
  rw [hnormal] at hslashes hcut
  obtain ⟨k, names, hfold, hdots, -⟩ := fold_false (segments (forwardSlashes p))
  refine ⟨hslashes, k, names, hcut.trans hfold, fun n hn => ?_⟩
  obtain ⟨hname, hnotDot, hback⟩ := hsegments n (hfold ▸ List.mem_append_right _ hn)
  exact ⟨hname, hnotDot, fun h => hdots (h ▸ hn), hback⟩

/-- A path on a drive starts with the drive and a slash. -/
theorem exists_root_drive {p : Text} (hrooted : isRooted p = true) (hstart : startsAtRoot (forwardSlashes p) = false)
    (hslashes : forwardSlashes p = p) : ∃ c t, IsRoot [c, colon] ∧ splitOn slash p = [c, colon] :: splitOn slash t := by
  obtain ⟨c, t, hc, hct⟩ := exists_drive hrooted hstart
  have hbackslash : backslash ∉ p := by
    rw [← hslashes]
    exact backslash_not_mem_forwardSlashes p
  rw [hslashes] at hct
  have hdrive : IsRoot [c, colon] := .drive hc fun h => hbackslash (by rw [hct, h]; exact List.mem_cons_self)
  have hcut := splitOn_append_sep slash [c, colon] t
  rw [splitOn_of_not_mem hdrive.not_mem.1] at hcut
  exact ⟨c, t, hdrive, by rw [hct]; exact hcut⟩

/-- A rooted path in normal form is a root with plain names, unless it is the root directory. -/
theorem isNormal_of_normalize {p : Text} (hrooted : isRooted p = true) (hnormal : normalize p = p) (hp : p ≠ [slash]) :
    IsNormal p := by
  cases hstart : startsAtRoot (forwardSlashes p) with
  | true =>
    rw [normalize_rooted hstart] at hnormal
    have hplain : ∀ n ∈ rootedNames p, IsPlain n := fun _ => isPlain_of_mem_rootedNames
    have hnames : rootedNames p ≠ [] := by
      intro h
      rw [h] at hnormal
      exact hp hnormal.symm
    refine ⟨[], rootedNames p, .top, hnames, hplain, ?_⟩
    have hcut : splitOn slash ([] ++ below (rootedNames p)) = [] :: rootedNames p :=
      splitOn_below List.not_mem_nil fun n hn => (hplain n hn).name.2
    rw [List.nil_append, ← absolute_of_ne_nil hnames, hnormal] at hcut
    exact hcut
  | false =>
    have hne : p ≠ [] := fun h => by rw [h] at hrooted; cases hrooted
    have hdot : p ≠ dotSegment := fun h => by rw [h] at hrooted; cases hrooted
    obtain ⟨hslashes, k, names, hclimb, hplain⟩ := exists_climb hne hstart hnormal hdot
    obtain ⟨c, t, hdrive, hcut⟩ := exists_root_drive hrooted hstart hslashes
    rw [hcut] at hclimb
    cases k with
    | zero =>
      rw [List.replicate_zero, List.nil_append] at hclimb
      refine ⟨[c, colon], splitOn slash t, hdrive, splitOn_ne_nil slash t, fun n hn => ?_, hcut⟩
      exact hplain n (hclimb ▸ List.mem_cons_of_mem _ hn)
    | succ k =>
      -- the first segment is the drive, which is no `..`
      obtain ⟨hfirst, -⟩ := List.cons.inj hclimb
      cases hfirst

/-- The segments of a path on a drive. -/
theorem segments_drive {root : Text} {ns : List Text} (hroot : IsRoot root) (hne : root ≠ []) (hns : ∀ n ∈ ns, IsPlain n) :
    forwardSlashes (root ++ below ns) = root ++ below ns ∧ segments (root ++ below ns) = root :: ns ∧
      startsAtRoot (root ++ below ns) = false ∧ dotDotSegment ∉ root :: ns := by
  cases hroot with
  | top => exact absurd rfl hne
  | @drive c hslash hbackslash =>
    have hdrive : IsRoot [c, colon] := .drive hslash hbackslash
    have hpieces : ∀ n ∈ [c, colon] :: ns, IsName n ∧ n ≠ dotSegment ∧ backslash ∉ n := by
      refine List.forall_mem_cons.mpr ⟨⟨⟨List.cons_ne_nil _ _, hdrive.not_mem.1⟩, by simp [dotSegment], hdrive.not_mem.2⟩, ?_⟩
      exact fun n hn => ⟨(hns n hn).name, (hns n hn).noDot, (hns n hn).noBackslash⟩
    obtain ⟨hslashes, hsegments, hstart⟩ := pieces_join_names hpieces
    rw [join_eq_below] at hslashes hsegments hstart
    refine ⟨hslashes, hsegments, hstart, ?_⟩
    intro h
    rcases List.mem_cons.mp h with h | h
    · cases h
    · exact (hns _ h).noDotDot rfl

/-- A path on a drive in normal form: a drive with plain names below it. -/
theorem exists_drive_names {p : Text} (hrooted : isRooted p = true) (hnormal : normalize p = p)
    (hstart : startsAtRoot (forwardSlashes p) = false) : ∃ drive ns, (∀ n ∈ ns, IsPlain n) ∧ dotDotSegment ∉ drive :: ns ∧
      names p = drive :: ns ∧ forwardSlashes p = p ∧ segments p = drive :: ns := by
  have htop : p ≠ [slash] := by
    rintro rfl
    cases hstart
  obtain ⟨root, ns, hroot, hne, hns, hcut⟩ := isNormal_of_normalize hrooted hnormal htop
  have hpath := eq_below_of_splitOn hcut
  have hdrive : root ≠ [] := by
    rintro rfl
    obtain ⟨n, rest, rfl⟩ := List.exists_cons_of_ne_nil hne
    rw [hpath] at hstart
    cases hstart
  obtain ⟨hslashes, hsegments, -, hdots⟩ := segments_drive hroot hdrive hns
  rw [← hpath] at hslashes hsegments
  refine ⟨root, ns, hns, hdots, ?_, hslashes, hsegments⟩
  rw [names, hcut]
  refine List.filter_eq_self.mpr (List.forall_mem_cons.mpr ⟨by simpa using hdrive, fun n hn => ?_⟩)
  simpa using (hns n hn).name.1

/-- A root with plain names is rooted and in normal form. -/
theorem IsNormal.normalize_eq {p : Text} (h : IsNormal p) : isRooted p = true ∧ normalize p = p := by
  obtain ⟨root, ns, hroot, hne, hns, hcut⟩ := h
  have hp := eq_below_of_splitOn hcut
  by_cases htop : root = []
  · rw [htop, List.nil_append, ← absolute_of_ne_nil hne] at hp
    rw [hp]
    exact ⟨isRooted_of_startsAtRoot (startsAtRoot_absolute ns), normalize_absolute hns⟩
  · obtain ⟨hslashes, hsegments, hstart, hdots⟩ := segments_drive hroot htop hns
    rw [← hp] at hslashes hsegments hstart
    constructor
    · cases hroot with
      | top => exact absurd rfl htop
      | drive =>
        rw [isRooted, hslashes, hp]
        cases ns with
        | nil => exact absurd rfl hne
        | cons n ns =>
          rw [below_cons, List.cons_append, List.cons_append, List.nil_append]
          split
          · rfl
          · rfl
          · rename_i h
            exact absurd rfl (h _ _)
    · have hne' : p ≠ [] := by
        rw [hp]
        exact List.append_ne_nil_of_left_ne_nil htop _
      have hjoin : Text.join [slash] (root :: ns) = p := by rw [join_eq_below, ← hp]
      rw [normalize_unrooted hne' (by rw [hslashes, hstart]), hslashes, hsegments, fold_of_not_mem false hdots,
        if_neg (List.cons_ne_nil _ _), hjoin]

theorem endsWith_slash_iff {d : Text} : Text.endsWith d [slash] = true ↔ ∃ s, d = s ++ [slash] := by
  rw [Text.endsWith, List.isSuffixOf_iff_suffix]
  constructor
  · rintro ⟨s, rfl⟩
    exact ⟨s, rfl⟩
  · rintro ⟨s, rfl⟩
    exact ⟨s, rfl⟩

/-- A directory is a root with plain names, perhaps with a slash behind them. -/
theorem IsDirectory.exists_cut {d : Text} (hd : IsDirectory d) : ∃ s root ns, IsRoot root ∧ (∀ n ∈ ns, IsPlain n) ∧
    splitOn slash s = root :: ns ∧ (d = s ++ [slash] ∨ d = s ∧ Text.endsWith d [slash] = false) := by
  obtain ⟨hne, root, ns, tail, hroot, hns, htail, hcut⟩ := hd
  by_cases hends : Text.endsWith d [slash] = true
  · obtain ⟨s, rfl⟩ := endsWith_slash_iff.mp hends
    have hcutDirectory : splitOn slash (s ++ [slash]) = splitOn slash s ++ [[]] := splitOn_append_sep slash s []
    rw [hcut] at hcutDirectory
    rcases htail with rfl | rfl
    · -- the last piece is empty, which no name is and no root without names below it
      rw [List.append_nil] at hcutDirectory
      cases ns using List.reverseRecOn with
      | nil =>
        have hlength := congrArg List.length hcutDirectory
        have hpos := List.length_pos_iff.mpr (splitOn_ne_nil slash s)
        simp only [List.length_append, List.length_cons, List.length_nil] at hlength
        omega
      | append_singleton ns m =>
        rw [← List.cons_append] at hcutDirectory
        obtain ⟨-, hm⟩ := List.append_inj' hcutDirectory rfl
        exact absurd (List.singleton_inj.mp hm) (hns m List.mem_concat_self).name.1
    · rw [← List.cons_append] at hcutDirectory
      obtain ⟨hs, -⟩ := List.append_inj' hcutDirectory rfl
      exact ⟨s, root, ns, hroot, hns, hs.symm, Or.inl rfl⟩
  · rcases htail with rfl | rfl
    · rw [List.append_nil] at hcut
      exact ⟨d, root, ns, hroot, hns, hcut, Or.inr ⟨rfl, Bool.eq_false_iff.mpr hends⟩⟩
    · -- the path would end with a slash
      exfalso
      apply hends
      rw [endsWith_slash_iff]
      refine ⟨Text.join [slash] (root :: ns), ?_⟩
      rw [← join_splitOn slash d, hcut, ← List.cons_append, join_concat _ _ (List.cons_ne_nil root ns), List.append_nil]

/-- The entries of a directory in normal form are in normal form, whether or not a slash ends its path. -/
theorem IsDirectory.entry {d n : Text} (hd : IsDirectory d) (hn : IsPlain n) : IsNormal (entry d n) := by
  have hnonempty : d.isEmpty = false := List.isEmpty_eq_false_iff.mpr hd.1
  obtain ⟨s, root, ns, hroot, hns, hcut, hs⟩ := hd.exists_cut
  have hentry : Path.entry d n = s ++ slash :: n := by
    rw [Path.entry, hnonempty, if_neg Bool.false_ne_true]
    rcases hs with hs | ⟨rfl, hends⟩
    · rw [if_pos (endsWith_slash_iff.mpr ⟨s, hs⟩), hs, List.append_assoc, List.singleton_append]
    · rw [hends, if_neg Bool.false_ne_true]
  refine ⟨root, ns ++ [n], hroot, List.append_ne_nil_of_right_ne_nil ns (List.cons_ne_nil n []), ?_, ?_⟩
  · exact List.forall_mem_append.mpr ⟨hns, List.forall_mem_singleton.mpr hn⟩
  · rw [hentry, splitOn_append_sep, hcut, splitOn_of_not_mem hn.name.2, List.cons_append]

/-! ## Normal forms and lower case -/

theorem IsPlain.of_lower {x y : Text} (hy : IsPlain y) (h : lower x = lower y) : IsPlain x := by
  have hdots : ∀ t : Text, (∀ c ∈ t, isCaseless c = true) → lower t = t → x = t → y = t := by
    intro t ht htlower hx
    rw [hx, htlower] at h
    exact eq_of_lower_eq ht h.symm
  refine ⟨⟨?_, ?_⟩, ?_, ?_, ?_⟩
  · rintro rfl
    exact hy.name.1 (lower_eq_nil_iff.mp h.symm)
  · rw [← mem_lower_iff rfl, h, mem_lower_iff rfl]
    exact hy.name.2
  · exact fun hx => hy.noDot (hdots dotSegment (by decide) (by decide) hx)
  · exact fun hx => hy.noDotDot (hdots dotDotSegment (by decide) (by decide) hx)
  · rw [← mem_lower_iff rfl, h, mem_lower_iff rfl]
    exact hy.noBackslash

/-- One letter alone becomes two code points in lower case. -/
theorem lower_drive {c : CodePoint} (hc : c ≠ 0x130) : ∃ y, lower [c, colon] = [y, colon] := by
  have hcolon : lowerAfter [c] [colon] = [colon] := rfl
  rw [lower, lowerAfter, hcolon, if_neg hc]
  by_cases hsigma : c = 0x3A3
  · rw [if_pos hsigma]
    exact ⟨0x3C3, rfl⟩
  · rw [if_neg hsigma]
    exact ⟨lowerPoint c, rfl⟩

/-- Two code points of lower case that end in a colon come from two. -/
theorem exists_of_lower_drive {x : Text} {y : CodePoint} (h : lower x = [y, colon]) : ∃ a, x = [a, colon] := by
  cases x with
  | nil => cases h
  | cons a x =>
    obtain ⟨start, last, hcons, hlast⟩ := lowerAfter_cons [] a x
    rw [lower, hcons] at h
    have hstart : start = [] := by
      by_contra hne
      obtain ⟨first, rest, rfl⟩ := List.exists_cons_of_ne_nil hne
      have hlength := congrArg List.length h
      simp only [List.length_append, List.length_cons, List.length_nil] at hlength
      have hrest : rest = [] := List.length_eq_zero_iff.mp (by omega)
      rw [hrest] at h
      obtain ⟨-, htail⟩ := List.cons.inj h
      obtain ⟨hcolon, -⟩ := List.cons.inj htail
      -- what ends within ASCII is a single point
      rw [hcolon] at hlast
      exact hne (hlast rfl).1
    rw [hstart] at h
    obtain ⟨-, hx⟩ := List.cons.inj h
    change lowerAfter [a] x = [colon] at hx
    have hmap : lowerAfter [a] x = x.map lowerPoint := lowerAfter_eq_map (by rw [hx]; decide)
    rw [hx] at hmap
    obtain ⟨b, rfl, hb⟩ := List.map_eq_singleton_iff.mp hmap.symm
    exact ⟨a, by rw [(lowerPoint_eq_caseless_iff rfl b).mp hb]⟩

/-- A drive is one code point in lower case, unless it is the one letter that becomes two. -/
theorem IsRoot.of_lower {root x : Text} (hroot : IsRoot root) (hwide : root.head? ≠ some 0x130)
    (h : lower x = lower root) : IsRoot x := by
  have hslash : slash ∉ x := by
    rw [← mem_lower_iff rfl, h, mem_lower_iff rfl]
    exact hroot.not_mem.1
  have hbackslash : backslash ∉ x := by
    rw [← mem_lower_iff rfl, h, mem_lower_iff rfl]
    exact hroot.not_mem.2
  cases hroot with
  | top =>
    rw [lower_eq_nil_iff.mp h]
    exact .top
  | @drive c _ _ =>
    have hc : c ≠ 0x130 := fun hc => hwide (congrArg some hc)
    obtain ⟨y, hy⟩ := lower_drive hc
    obtain ⟨a, rfl⟩ := exists_of_lower_drive (h.trans hy)
    exact .drive (fun ha => hslash (ha ▸ List.mem_cons_self)) fun ha => hbackslash (ha ▸ List.mem_cons_self)

theorem head?_of_splitOn {p root : Text} {ns : List Text} (hcut : splitOn slash p = root :: ns)
    (hp : p.head? ≠ some 0x130) : root.head? ≠ some 0x130 := by
  rw [← join_splitOn slash p, hcut, join_eq_below] at hp
  cases root with
  | nil => simp
  | cons c root => exact hp

theorem pieces_of_lower {x y : Text} (h : lower x = lower y) :
    (splitOn slash x).map lower = (splitOn slash y).map lower := by
  rw [← splitOn_lower, h, splitOn_lower]

theorem plain_of_lower {ms ns : List Text} (hns : ∀ n ∈ ns, IsPlain n) (h : ms.map lower = ns.map lower) :
    ∀ m ∈ ms, IsPlain m := by
  intro m hm
  have hmem : lower m ∈ ns.map lower := by
    rw [← h]
    exact List.mem_map_of_mem hm
  obtain ⟨n, hn, hlower⟩ := List.mem_map.mp hmem
  exact (hns n hn).of_lower hlower.symm

/-- What is in normal form up to case is in normal form. -/
theorem IsNormal.of_lower {p x : Text} (hp : IsNormal p) (hwide : p.head? ≠ some 0x130) (h : lower x = lower p) :
    IsNormal x := by
  obtain ⟨root, ns, hroot, hne, hns, hcut⟩ := hp
  have hpieces := pieces_of_lower h
  rw [hcut] at hpieces
  obtain ⟨root', ns', hcut', hroot', hns'⟩ := List.map_eq_cons_iff.mp hpieces
  refine ⟨root', ns', hroot.of_lower (head?_of_splitOn hcut hwide) hroot', ?_, plain_of_lower hns hns', hcut'⟩
  rintro rfl
  exact hne (List.map_eq_nil_iff.mp hns'.symm)

theorem IsDirectory.of_lower {d x : Text} (hd : IsDirectory d) (hwide : d.head? ≠ some 0x130) (h : lower x = lower d) :
    IsDirectory x := by
  obtain ⟨hne, root, ns, tail, hroot, hns, htail, hcut⟩ := hd
  have hpieces := pieces_of_lower h
  rw [hcut] at hpieces
  obtain ⟨root', rest, hcut', hroot', hrest⟩ := List.map_eq_cons_iff.mp hpieces
  rw [List.map_append] at hrest
  obtain ⟨ns', tail', rfl, hns', htail'⟩ := List.map_eq_append_iff.mp hrest
  refine ⟨?_, root', ns', tail', hroot.of_lower (head?_of_splitOn hcut hwide) hroot', plain_of_lower hns hns', ?_, hcut'⟩
  · rintro rfl
    exact hne (lower_eq_nil_iff.mp h.symm)
  · rcases htail with rfl | rfl
    · left
      exact List.map_eq_nil_iff.mp htail'
    · right
      obtain ⟨t, rfl, ht⟩ := List.map_eq_singleton_iff.mp htail'
      rw [lower_eq_nil_iff.mp ht]

end Path

end TsProject
