/-
  TsProject.Proofs.Offsets — bytes of the encoded text and code points agree.

  Every code point is encoded in a byte that starts it and in tail bytes, so what is
  encoded can be cut behind every code point and nowhere else, and each part is decoded
  by itself. This holds of surrogates too: two that stand side by side stay two.

  - `decode?_encode`: decoding gives back the text that was encoded.
  - `isBoundary_encode_iff`: the boundaries are the lengths of what stands before a code point.
  - `decodeWithin_take`: what ends inside a code point is not decoded.
  - `length_encode_forParser`: what replaces a code point for the parser takes as many bytes.
  - `span_agrees`: a node that spans some code points starts and ends at them, and the
    parser sees the same boundaries.
-/

import TsProject.Proofs.Case
import TsProject.Source

namespace TsProject

open CodePoint

namespace Text.Utf8

/-! ## Bytes of a code point -/

variable {s : Text} {rest : List Byte} {a b x y z : Nat}

theorem isTail_iff : isTail b = true ↔ 0x80 ≤ b ∧ b ≤ 0xBF := isBetween_iff

theorem isTail_add_mod (n : Nat) : isTail (0x80 + n % 0x40) = true := by
  rw [isTail_iff]
  omega

theorem isTail_eq_false (h : b < 0x80 ∨ 0xC0 ≤ b) : isTail b = false := by
  rw [Bool.eq_false_iff, ne_eq, isTail_iff]
  omega

/-- The four forms, by the number of bytes. -/
theorem encodePoint_cases (c : Nat) :
    (c < 0x80 ∧ encodePoint c = [c]) ∨
      (0x80 ≤ c ∧ c < 0x800 ∧ encodePoint c = [0xC0 + c / 0x40, 0x80 + c % 0x40]) ∨
      (0x800 ≤ c ∧ c < 0x10000 ∧ encodePoint c = [0xE0 + c / 0x1000, 0x80 + c / 0x40 % 0x40, 0x80 + c % 0x40]) ∨
      (0x10000 ≤ c ∧
        encodePoint c = [0xF0 + c / 0x40000, 0x80 + c / 0x1000 % 0x40, 0x80 + c / 0x40 % 0x40, 0x80 + c % 0x40]) := by
  by_cases h1 : c < 0x80
  · exact Or.inl ⟨h1, if_pos h1⟩
  by_cases h2 : c < 0x800
  · refine Or.inr (Or.inl ⟨by omega, h2, ?_⟩)
    rw [encodePoint, if_neg h1, if_pos h2]
  by_cases h3 : c < 0x10000
  · refine Or.inr (Or.inr (Or.inl ⟨by omega, h3, ?_⟩))
    rw [encodePoint, if_neg h1, if_neg h2, if_pos h3]
  · refine Or.inr (Or.inr (Or.inr ⟨by omega, ?_⟩))
    rw [encodePoint, if_neg h1, if_neg h2, if_neg h3]

/-- A byte that starts a code point, and tail bytes behind it. -/
theorem exists_encodePoint (c : Nat) : ∃ b bs, encodePoint c = b :: bs ∧ isTail b = false ∧ ∀ x ∈ bs, isTail x = true := by
  rcases encodePoint_cases c with ⟨h, hc⟩ | ⟨-, -, hc⟩ | ⟨-, -, hc⟩ | ⟨-, hc⟩
  · exact ⟨_, _, hc, isTail_eq_false (Or.inl h), by simp⟩
  · exact ⟨_, _, hc, isTail_eq_false (by omega), by simp [isTail_add_mod]⟩
  · exact ⟨_, _, hc, isTail_eq_false (by omega), by simp [isTail_add_mod]⟩
  · exact ⟨_, _, hc, isTail_eq_false (by omega), by simp [isTail_add_mod]⟩

theorem length_encodePoint (c : Nat) : (encodePoint c).length = width c := by
  unfold encodePoint width
  repeat' split
  all_goals rfl

theorem decodePoint?_one (ha : a < 0x80) : decodePoint? true (a :: rest) = some (a, rest) := by
  simp only [decodePoint?]
  rw [if_pos ha]

theorem decodePoint?_two (ha : 0xC2 ≤ a ∧ a ≤ 0xDF) (hx : isTail x = true) :
    decodePoint? true (a :: x :: rest) = some ((a - 0xC0) * 0x40 + (x - 0x80), rest) := by
  have hone : ¬ a < 0x80 := by omega
  simp only [decodePoint?]
  rw [if_neg hone, if_pos (isBetween_iff.mpr ha), if_pos hx]

theorem decodePoint?_three (ha : 0xE0 ≤ a ∧ a ≤ 0xEF) (hx : isTail x = true) (hy : isTail y = true)
    (hpoint : 0x800 ≤ (a - 0xE0) * 0x1000 + (x - 0x80) * 0x40 + (y - 0x80)) :
    decodePoint? true (a :: x :: y :: rest) = some ((a - 0xE0) * 0x1000 + (x - 0x80) * 0x40 + (y - 0x80), rest) := by
  have hone : ¬ a < 0x80 := by omega
  have htwo : ¬ isBetween 0xC2 0xDF a = true := by
    rw [isBetween_iff]
    omega
  simp only [decodePoint?]
  rw [if_neg hone, if_neg htwo, if_pos (isBetween_iff.mpr ha), hx, hy, decide_eq_true hpoint]
  rfl

theorem decodePoint?_four (ha : 0xF0 ≤ a ∧ a ≤ 0xF4) (hx : isTail x = true) (hy : isTail y = true) (hz : isTail z = true)
    (hpoint : 0x10000 ≤ (a - 0xF0) * 0x40000 + (x - 0x80) * 0x1000 + (y - 0x80) * 0x40 + (z - 0x80) ∧
      (a - 0xF0) * 0x40000 + (x - 0x80) * 0x1000 + (y - 0x80) * 0x40 + (z - 0x80) ≤ 0x10FFFF) :
    decodePoint? true (a :: x :: y :: z :: rest) =
      some ((a - 0xF0) * 0x40000 + (x - 0x80) * 0x1000 + (y - 0x80) * 0x40 + (z - 0x80), rest) := by
  have hone : ¬ a < 0x80 := by omega
  have htwo : ¬ isBetween 0xC2 0xDF a = true := by
    rw [isBetween_iff]
    omega
  have hthree : ¬ isBetween 0xE0 0xEF a = true := by
    rw [isBetween_iff]
    omega
  simp only [decodePoint?]
  rw [if_neg hone, if_neg htwo, if_neg hthree, if_pos (isBetween_iff.mpr ha), hx, hy, hz, isBetween_iff.mpr hpoint]
  rfl

theorem decodePoint?_encodePoint {c : Nat} (hc : c < 0x110000) (rest : List Byte) :
    decodePoint? true (encodePoint c ++ rest) = some (c, rest) := by
  rcases encodePoint_cases c with ⟨h, heq⟩ | ⟨h, h', heq⟩ | ⟨h, h', heq⟩ | ⟨h, heq⟩
  · rw [heq, List.singleton_append, decodePoint?_one h]
  · have hpoint : (0xC0 + c / 0x40 - 0xC0) * 0x40 + (0x80 + c % 0x40 - 0x80) = c := by omega
    rw [heq, List.cons_append, List.singleton_append, decodePoint?_two (by omega) (isTail_add_mod _), hpoint]
  · have hpoint : (0xE0 + c / 0x1000 - 0xE0) * 0x1000 + (0x80 + c / 0x40 % 0x40 - 0x80) * 0x40 + (0x80 + c % 0x40 - 0x80) = c := by
      omega
    rw [heq, List.cons_append, List.cons_append, List.singleton_append,
      decodePoint?_three (by omega) (isTail_add_mod _) (isTail_add_mod _) (by omega), hpoint]
  · have hpoint : (0xF0 + c / 0x40000 - 0xF0) * 0x40000 + (0x80 + c / 0x1000 % 0x40 - 0x80) * 0x1000 +
        (0x80 + c / 0x40 % 0x40 - 0x80) * 0x40 + (0x80 + c % 0x40 - 0x80) = c := by
      omega
    rw [heq, List.cons_append, List.cons_append, List.cons_append, List.singleton_append,
      decodePoint?_four (by omega) (isTail_add_mod _) (isTail_add_mod _) (isTail_add_mod _) (by omega), hpoint]

theorem encode_cons (c : CodePoint) (s : Text) : encode (c :: s) = encodePoint c ++ encode s := List.flatMap_cons

theorem encode_append (s t : Text) : encode (s ++ t) = encode s ++ encode t := List.flatMap_append

/-! ## Texts -/

theorem decodeWithin_encode (hs : ∀ c ∈ s, c < limit) {n : Nat} (hn : s.length ≤ n) :
    decodeWithin true n (encode s) = some s := by
  induction s generalizing n with
  | nil => cases n <;> rfl
  | cons c s ih =>
    obtain ⟨hc, hs⟩ := List.forall_mem_cons.mp hs
    cases n with
    | zero => cases hn
    | succ n =>
      have hpoint := decodePoint?_encodePoint hc (encode s)
      have hrest : decodeWithin true n (encode s) = some s := ih hs (Nat.le_of_succ_le_succ hn)
      obtain ⟨b, bs, hb, -⟩ := exists_encodePoint c
      rw [encode_cons]
      rw [hb, List.cons_append] at hpoint ⊢
      simp only [decodeWithin, hpoint, hrest, Option.map_some]

theorem length_le_encode (s : Text) : s.length ≤ (encode s).length := by
  induction s with
  | nil => exact Nat.le_refl _
  | cons c s ih =>
    obtain ⟨b, bs, hb, -⟩ := exists_encodePoint c
    rw [encode_cons, hb, List.cons_append, List.length_cons, List.length_cons, List.length_append]
    omega

theorem decode?_encode (hs : ∀ c ∈ s, c < limit) : decode? true (encode s) = some s :=
  decodeWithin_encode hs (length_le_encode s)

theorem length_encode_of_ascii (hs : isAsciiOnly s = true) : (encode s).length = s.length := by
  induction s with
  | nil => rfl
  | cons c s ih =>
    obtain ⟨hc, hs⟩ : c < 0x80 ∧ isAsciiOnly s = true := by simpa [isAsciiOnly, isAscii] using hs
    rw [encode_cons, List.length_append, length_encodePoint, ih hs, width, if_pos hc, List.length_cons, Nat.add_comm]

theorem encode_take_append_drop (s : Text) (i : Nat) : encode (s.take i) ++ encode (s.drop i) = encode s := by
  rw [← encode_append, List.take_append_drop]

theorem take_encode (s : Text) (i : Nat) : (encode s).take (encode (s.take i)).length = encode (s.take i) := by
  rw [← encode_take_append_drop s i, List.take_left]

theorem drop_encode (s : Text) (i : Nat) : (encode s).drop (encode (s.take i)).length = encode (s.drop i) := by
  rw [← encode_take_append_drop s i, List.drop_left]

/-! ## Boundaries -/

/-- A place in a sequence of bytes where a code point starts, or its end. -/
def IsBoundary (bs : List Byte) (p : Nat) : Prop := p = bs.length ∨ ∃ b, bs[p]? = some b ∧ isTail b = false

instance (bs : List Byte) (p : Nat) : Decidable (IsBoundary bs p) :=
  decidable_of_iff (p = bs.length ∨ (bs[p]?).any (!isTail ·) = true) (by simp [IsBoundary, Option.any_eq_true])

theorem isBoundary_encode_iff {p : Nat} : IsBoundary (encode s) p ↔ ∃ i ≤ s.length, p = (encode (s.take i)).length := by
  induction s generalizing p with
  | nil => simp [IsBoundary, encode]
  | cons c s ih =>
    obtain ⟨b, bs, hb, hhead, htails⟩ := exists_encodePoint c
    rw [encode_cons, hb]
    cases p with
    | zero =>
      constructor
      · intro _
        exact ⟨0, Nat.zero_le _, rfl⟩
      · intro _
        exact Or.inr ⟨b, rfl, hhead⟩
    | succ p =>
      have hpieces : (∃ i ≤ (c :: s).length, p + 1 = (encode ((c :: s).take i)).length) ↔
          ∃ i ≤ s.length, p = bs.length + (encode (s.take i)).length := by
        constructor
        · rintro ⟨i, hi, hp⟩
          cases i with
          | zero => cases hp
          | succ i =>
            rw [List.take_succ_cons, encode_cons, hb, List.cons_append, List.length_cons, List.length_append] at hp
            exact ⟨i, Nat.le_of_succ_le_succ hi, by omega⟩
        · rintro ⟨i, hi, hp⟩
          refine ⟨i + 1, Nat.succ_le_succ hi, ?_⟩
          rw [List.take_succ_cons, encode_cons, hb, List.cons_append, List.length_cons, List.length_append]
          omega
      rw [hpieces]
      by_cases hp : p < bs.length
      · -- inside a code point
        have htail : (bs ++ encode s)[p]? = some bs[p] := by
          rw [List.getElem?_append_left hp, List.getElem?_eq_getElem hp]
        have hnot : ¬ IsBoundary ((b :: bs) ++ encode s) (p + 1) := by
          rintro (hend | ⟨x, hx, hstart⟩)
          · rw [List.cons_append, List.length_cons, List.length_append] at hend
            omega
          · rw [List.cons_append, List.getElem?_cons_succ, htail] at hx
            rw [← Option.some.inj hx, htails _ (List.getElem_mem hp)] at hstart
            cases hstart
        constructor
        · exact fun h => absurd h hnot
        · rintro ⟨i, -, hi⟩
          omega
      · obtain ⟨q, rfl⟩ := Nat.exists_eq_add_of_le (Nat.le_of_not_lt hp)
        have hsame : IsBoundary ((b :: bs) ++ encode s) (bs.length + q + 1) ↔ IsBoundary (encode s) q := by
          simp only [IsBoundary, List.cons_append, List.length_cons, List.length_append, List.getElem?_cons_succ,
            List.getElem?_append_right (Nat.le_add_right bs.length q), Nat.add_sub_cancel_left, Nat.add_right_cancel_iff,
            Nat.add_left_cancel_iff]
        rw [hsame, ih]
        simp only [Nat.add_left_cancel_iff]

/-! ## Inside a code point -/

theorem decodePoint?_cut_one (ha : 0x80 ≤ a) : decodePoint? true [a] = none := by
  simp only [decodePoint?]
  rw [if_neg (Nat.not_lt.mpr ha)]
  repeat' split
  all_goals rfl

theorem decodePoint?_cut_two (ha : 0xE0 ≤ a) : decodePoint? true [a, x] = none := by
  have hone : ¬ a < 0x80 := by omega
  have htwo : ¬ isBetween 0xC2 0xDF a = true := by
    rw [isBetween_iff]
    omega
  simp only [decodePoint?]
  rw [if_neg hone, if_neg htwo]
  repeat' split
  all_goals rfl

theorem decodePoint?_cut_three (ha : 0xF0 ≤ a) : decodePoint? true [a, x, y] = none := by
  have hone : ¬ a < 0x80 := by omega
  have htwo : ¬ isBetween 0xC2 0xDF a = true := by
    rw [isBetween_iff]
    omega
  have hthree : ¬ isBetween 0xE0 0xEF a = true := by
    rw [isBetween_iff]
    omega
  simp only [decodePoint?]
  rw [if_neg hone, if_neg htwo, if_neg hthree]
  split
  · rfl
  · rfl

/-- The first bytes of a code point are no code point. -/
theorem decodePoint?_take_encodePoint {c n : Nat} (hpos : 0 < n) (hn : n < (encodePoint c).length) :
    decodePoint? true ((encodePoint c).take n) = none := by
  rcases encodePoint_cases c with ⟨-, hc⟩ | ⟨h, -, hc⟩ | ⟨h, -, hc⟩ | ⟨h, hc⟩
  · rw [hc, List.length_singleton] at hn
    omega
  · rw [hc] at hn ⊢
    obtain rfl : n = 1 := by
      simp only [List.length_cons, List.length_nil] at hn
      omega
    exact decodePoint?_cut_one (by omega)
  · rw [hc] at hn ⊢
    obtain rfl | rfl : n = 1 ∨ n = 2 := by
      simp only [List.length_cons, List.length_nil] at hn
      omega
    · exact decodePoint?_cut_one (by omega)
    · exact decodePoint?_cut_two (by omega)
  · rw [hc] at hn ⊢
    obtain rfl | rfl | rfl : n = 1 ∨ n = 2 ∨ n = 3 := by
      simp only [List.length_cons, List.length_nil] at hn
      omega
    · exact decodePoint?_cut_one (by omega)
    · exact decodePoint?_cut_two (by omega)
    · exact decodePoint?_cut_three (by omega)

theorem isBoundary_zero (s : Text) : IsBoundary (encode s) 0 := isBoundary_encode_iff.mpr ⟨0, Nat.zero_le _, rfl⟩

theorem isBoundary_length (bs : List Byte) : IsBoundary bs bs.length := Or.inl rfl

theorem IsBoundary.le {bs : List Byte} {p : Nat} (h : IsBoundary bs p) : p ≤ bs.length := by
  rcases h with rfl | ⟨b, hb, -⟩
  · exact Nat.le_refl _
  · exact Nat.le_of_lt (List.getElem?_eq_some_iff.mp hb).1

/-- Behind the first code point the boundaries are those of the rest. -/
theorem IsBoundary.behind {c p : Nat} (h : IsBoundary (encode s) p) :
    IsBoundary (encode (c :: s)) ((encodePoint c).length + p) := by
  obtain ⟨i, hi, rfl⟩ := isBoundary_encode_iff.mp h
  refine isBoundary_encode_iff.mpr ⟨i + 1, Nat.succ_le_succ hi, ?_⟩
  rw [List.take_succ_cons, encode_cons, List.length_append]

/-- A text is not decoded if it is cut inside a code point. -/
theorem decodeWithin_take (hs : ∀ c ∈ s, c < limit) {p : Nat} (hp : p < (encode s).length)
    (hcut : ¬ IsBoundary (encode s) p) (n : Nat) : decodeWithin true n ((encode s).take p) = none := by
  induction s generalizing n p with
  | nil => cases hp
  | cons c s ih =>
    obtain ⟨hc, hs⟩ := List.forall_mem_cons.mp hs
    have hpos : 0 < p := Nat.pos_of_ne_zero fun h => hcut (h ▸ isBoundary_zero (c :: s))
    obtain ⟨b, bs, hb, -⟩ := exists_encodePoint c
    obtain ⟨q, hq⟩ : ∃ q, p = q + 1 := ⟨p - 1, by omega⟩
    have hcons : ((encode (c :: s)).take p) = b :: (bs ++ encode s).take q := by
      rw [encode_cons, hb, hq]
      rfl
    cases n with
    | zero =>
      rw [hcons]
      rfl
    | succ n =>
      by_cases hinside : p < (encodePoint c).length
      · have hnone := decodePoint?_take_encodePoint hpos hinside
        rw [← List.take_append_of_le_length (Nat.le_of_lt hinside), ← encode_cons, hcons] at hnone
        rw [hcons]
        simp only [decodeWithin, hnone]
      · obtain ⟨r, rfl⟩ := Nat.exists_eq_add_of_le (Nat.le_of_not_lt hinside)
        have hpoint := decodePoint?_encodePoint hc ((encode s).take r)
        rw [← List.take_length_add_append, ← encode_cons, hcons] at hpoint
        have hrest : decodeWithin true n ((encode s).take r) = none := by
          refine ih hs ?_ (fun h => hcut h.behind) n
          rw [encode_cons, List.length_append] at hp
          omega
        rw [hcons]
        simp only [decodeWithin, hpoint, hrest, Option.map_none]

end Text.Utf8

open Text Text.Utf8

/-! ## What the parser is given -/

theorem width_of_between {c : Nat} (h : 0x800 ≤ c) (h' : c < 0x10000) : width c = 3 := by
  have h1 : ¬ c < 0x80 := by omega
  have h2 : ¬ c < 0x800 := by omega
  rw [width, if_neg h1, if_neg h2, if_pos h']

theorem width_forParser (c : Nat) : width (if c = 0 then 1 else if isSurrogate c then 0xFFFD else c) = width c := by
  by_cases hzero : c = 0
  · rw [if_pos hzero, hzero]
    rfl
  by_cases hsurrogate : isSurrogate c = true
  · obtain ⟨hlow, hhigh⟩ := isBetween_iff.mp hsurrogate
    rw [if_neg hzero, if_pos hsurrogate, width_of_between (by decide) (by decide), width_of_between (by omega) (by omega)]
  · rw [if_neg hzero, if_neg hsurrogate]

theorem length_encode_forParser (s : Text) : (encode (forParser s)).length = (encode s).length := by
  induction s with
  | nil => rfl
  | cons c s ih =>
    rw [forParser, List.map_cons, encode_cons, encode_cons, List.length_append, List.length_append, length_encodePoint,
      length_encodePoint, width_forParser]
    exact congrArg (width c + ·) ih

theorem isBoundary_forParser_iff {s : Text} {p : Nat} : IsBoundary (encode (forParser s)) p ↔ IsBoundary (encode s) p := by
  have htake : ∀ i, (forParser s).take i = forParser (s.take i) := fun i => List.map_take.symm
  have hlength : (forParser s).length = s.length := List.length_map _
  simp only [isBoundary_encode_iff, hlength, htake, length_encode_forParser]

/-! ## Spans -/

namespace SourceFile

variable {f : SourceFile}

theorem charOffset_boundary (hf : ∀ c ∈ f.text, c < limit) {i : Nat} (hi : i ≤ f.text.length) :
    f.charOffset ((encode (f.text.take i)).length : Nat) = .ok i := by
  have hlength : (f.text.take i).length = i := List.length_take_of_le hi
  by_cases hascii : Text.isAsciiOnly f.text = true
  · have htake : Text.isAsciiOnly (f.text.take i) = true :=
      List.all_eq_true.mpr fun c hc => List.all_eq_true.mp hascii c (List.mem_of_mem_take hc)
    rw [charOffset, if_pos hascii, length_encode_of_ascii htake, hlength]
  · have hkept : keptBytes f.bytes.length ((encode (f.text.take i)).length : Nat) = (encode (f.text.take i)).length := by
      rw [keptBytes, if_neg (by omega), Int.toNat_natCast]
    have hdecode : decode? true (encode (f.text.take i)) = some (f.text.take i) :=
      decode?_encode fun c hc => hf c (List.mem_of_mem_take hc)
    rw [charOffset, if_neg hascii, hkept, bytes, take_encode, hdecode]
    simp only [hlength]

theorem textOf_boundaries (hf : ∀ c ∈ f.text, c < limit) {i j : Nat} (hij : i ≤ j) {n : Node}
    (hstart : n.startByte = (encode (f.text.take i)).length) (hend : n.endByte = (encode (f.text.take j)).length) :
    f.textOf n = .ok ((f.text.take j).drop i) := by
  have hfront : f.text.take i = (f.text.take j).take i := by rw [List.take_take, Nat.min_eq_left hij]
  have hdecode : decode? true (encode ((f.text.take j).drop i)) = some ((f.text.take j).drop i) :=
    decode?_encode fun c hc => hf c (List.mem_of_mem_take (List.mem_of_mem_drop hc))
  rw [textOf, hend, hstart, bytes, take_encode, hfront, drop_encode, hdecode]

/-- A node that spans the bytes of some code points starts and ends at them and has their text. What the parser is given
takes as many bytes as the text, and its boundaries, which are those of the text, are the bytes before some code point. -/
theorem span_agrees (hf : ∀ c ∈ f.text, c < limit) :
    (∀ (i j : Nat) (n : Node), i ≤ j → j ≤ f.text.length → n.startByte = (encode (f.text.take i)).length →
        n.endByte = (encode (f.text.take j)).length →
        f.startOf n = .ok i ∧ f.endOf n = .ok j ∧ f.widthOf n = .ok (j - i) ∧ f.textOf n = .ok ((f.text.take j).drop i)) ∧
      (encode (forParser f.text)).length = f.bytes.length ∧
      ∀ p, (IsBoundary (encode (forParser f.text)) p ↔ IsBoundary f.bytes p) ∧
        (IsBoundary (encode (forParser f.text)) p ↔ ∃ i ≤ f.text.length, p = (encode (f.text.take i)).length) := by
  refine ⟨?_, length_encode_forParser _,
    fun p => ⟨isBoundary_forParser_iff, isBoundary_forParser_iff.trans isBoundary_encode_iff⟩⟩
  intro i j n hij hj hstart hend
  have hi : f.startOf n = .ok i := by rw [startOf, hstart, charOffset_boundary hf (Nat.le_trans hij hj)]
  have hj' : f.endOf n = .ok j := by rw [endOf, hend, charOffset_boundary hf hj]
  refine ⟨hi, hj', ?_, textOf_boundaries hf hij hstart hend⟩
  rw [widthOf, hj', hi]
  rfl

/-- NUL, a letter of two bytes, two surrogates side by side and a code point of four bytes. -/
theorem span_agrees_surrogates :
    let f : SourceFile :=
      { name := Text.of "a.ts", text := [0, 0xE9, 0xD83D, 0xDE00, 0x1F600], kind := .ts
        root := .mk (Text.of "program") 0 13 true false [] }
    let n : Node := .mk (Text.of "identifier") 3 9 true false []
    (∀ c ∈ f.text, c < limit) ∧
      (n.startByte = (encode (f.text.take 2)).length ∧ n.endByte = (encode (f.text.take 4)).length) ∧
      (f.startOf n = .ok 2 ∧ f.endOf n = .ok 4 ∧ f.widthOf n = .ok 2 ∧ f.textOf n = .ok [0xD83D, 0xDE00]) ∧
      encode (forParser f.text) ≠ f.bytes ∧ (encode (forParser f.text)).length = f.bytes.length ∧
      (IsBoundary (encode (forParser f.text)) 6 ↔ IsBoundary f.bytes 6) := by
  intro f n
  have hf : ∀ c ∈ f.text, c < limit := by decide
  have hstart : n.startByte = (encode (f.text.take 2)).length := by decide
  have hend : n.endByte = (encode (f.text.take 4)).length := by decide
  obtain ⟨hspan, hlength, hboundary⟩ := span_agrees hf
  exact ⟨hf, ⟨hstart, hend⟩, hspan 2 4 n (by decide) (by decide) hstart hend, by decide, hlength, (hboundary 6).1⟩

end SourceFile

end TsProject
