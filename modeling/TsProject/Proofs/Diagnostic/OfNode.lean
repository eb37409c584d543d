/-
  TsProject.Proofs.Diagnostic.OfNode — the span of a diagnostic about a node.

  A node counts bytes, and a diagnostic code points. In an ASCII text the two are one. In any
  other text an offset is converted by decoding the bytes before it. Behind the end these are
  all the bytes there are, so an offset there is taken for the end of the text.

  - `charOffset_of_ascii` / `charOffset_cases`: what an offset is converted to.
  - `encode_between`: the text between two converted offsets has the bytes between the offsets.
  - `atNode_spans`: whenever a diagnostic is made, its text has the bytes of the node; of the
    spans in the file those are refused that start or end inside a code point.

  As built the range is checked behind the conversion, where nothing lies outside a text that
  is not ASCII: `atNode_behindEnd` is a node from a longer file that gets a span.
-/

import TsProject.Diagnostic.OfNode
import TsProject.Proofs.Offsets

namespace TsProject

open CodePoint Text Text.Utf8

variable {f : SourceFile} {n : Node} {b s e i j : Nat}

/-! ## Where an offset stands -/

/-- A byte offset stands at this position of the text; one behind the end stands at the end. -/
def StandsAt (f : SourceFile) (b i : Nat) : Prop :=
  i ≤ f.text.length ∧ min b f.bytes.length = (encode (f.text.take i)).length

theorem exists_standsAt_iff : (∃ i, StandsAt f b i) ↔ f.bytes.length ≤ b ∨ IsBoundary f.bytes b := by
  have hmin : (∃ i, StandsAt f b i) ↔ IsBoundary f.bytes (min b f.bytes.length) := isBoundary_encode_iff.symm
  rw [hmin]
  by_cases hb : f.bytes.length ≤ b
  · rw [Nat.min_eq_right hb]
    exact ⟨fun _ => Or.inl hb, fun _ => isBoundary_length _⟩
  · rw [Nat.min_eq_left (by omega)]
    exact ⟨Or.inr, fun h => h.resolve_left hb⟩

theorem length_encode_take_le (hij : i ≤ j) : (encode (f.text.take i)).length ≤ (encode (f.text.take j)).length := by
  have hfront : f.text.take i = (f.text.take j).take i := by rw [List.take_take, Nat.min_eq_left hij]
  rw [hfront, ← encode_take_append_drop (f.text.take j) i, List.length_append]
  omega

/-- Offsets in order stand at positions in order. -/
theorem StandsAt.le (hi : StandsAt f s i) (hj : StandsAt f e j) (hse : s ≤ e) : i ≤ j := by
  obtain ⟨hlast, hi⟩ := hi
  obtain ⟨-, hj⟩ := hj
  by_cases hij : i ≤ j
  · exact hij
  · -- the code point at `j` has a byte
    have hat : f.text.take (j + 1) = f.text.take j ++ [f.text[j]] := List.take_succ_eq_append_getElem (by omega)
    have hone : (encode (f.text.take (j + 1))).length ≤ (encode (f.text.take i)).length := length_encode_take_le (by omega)
    obtain ⟨x, xs, hx, -⟩ := exists_encodePoint f.text[j]
    rw [hat, encode_append, encode_cons, hx, List.length_append, List.length_append, List.length_cons] at hone
    omega

/-- The text between two positions has the bytes between the offsets that stand there. -/
theorem encode_between (hi : StandsAt f s i) (hj : StandsAt f e j) (hse : s ≤ e) :
    encode ((f.text.take j).drop i) = (f.bytes.take e).drop s := by
  have hij : i ≤ j := hi.le hj hse
  obtain ⟨-, hi⟩ := hi
  obtain ⟨-, hj⟩ := hj
  have htake : f.bytes.take e = encode (f.text.take j) := by
    have hcut : f.bytes.take e = f.bytes.take (min e f.bytes.length) := by
      rw [← List.take_take, List.take_length]
    rw [hcut, hj, SourceFile.bytes, take_encode]
  have hfront : f.text.take i = (f.text.take j).take i := by rw [List.take_take, Nat.min_eq_left hij]
  rw [htake, ← drop_encode, ← hfront, ← hi]
  by_cases hs : s ≤ f.bytes.length
  · rw [Nat.min_eq_left hs]
  · have hall : (encode (f.text.take j)).length ≤ f.bytes.length := by omega
    rw [Nat.min_eq_right (by omega), List.drop_of_length_le hall, List.drop_of_length_le (by omega)]

namespace SourceFile

theorem charOffset_of_ascii (h : isAsciiOnly f.text = true) (b : Nat) : f.charOffset b = .ok b := if_pos h

theorem length_bytes_of_ascii (h : isAsciiOnly f.text = true) : f.bytes.length = f.text.length := length_encode_of_ascii h

theorem standsAt_of_ascii (h : isAsciiOnly f.text = true) (hb : b ≤ f.text.length) : StandsAt f b b := by
  have htake : isAsciiOnly (f.text.take b) = true :=
    List.all_eq_true.mpr fun c hc => List.all_eq_true.mp h c (List.mem_of_mem_take hc)
  refine ⟨hb, ?_⟩
  rw [length_bytes_of_ascii h, length_encode_of_ascii htake, List.length_take]

theorem isBoundary_of_ascii (h : isAsciiOnly f.text = true) (hb : b ≤ f.text.length) : IsBoundary f.bytes b := by
  rcases exists_standsAt_iff.mp ⟨b, standsAt_of_ascii h hb⟩ with hend | hboundary
  · rw [length_bytes_of_ascii h] at hend
    rw [Nat.le_antisymm hb hend, ← length_bytes_of_ascii h]
    exact isBoundary_length _
  · exact hboundary

/-- In a text that is not ASCII an offset is converted to where it stands, and one inside a code point is refused. -/
theorem charOffset_cases (hf : ∀ c ∈ f.text, c < limit) (h : isAsciiOnly f.text = false) (b : Nat) :
    (∃ i, StandsAt f b i ∧ f.charOffset b = .ok i) ∨
      ((¬ ∃ i, StandsAt f b i) ∧ f.charOffset b = .error .insideCodePoint) := by
  have hascii : ¬ isAsciiOnly f.text = true := Bool.eq_false_iff.mp h
  have hkept : keptBytes f.bytes.length b = b := by
    rw [keptBytes, if_neg (by omega), Int.toNat_natCast]
  by_cases hstands : ∃ i, StandsAt f b i
  · obtain ⟨i, hi, hb⟩ := hstands
    refine Or.inl ⟨i, ⟨hi, hb⟩, ?_⟩
    have hcut : f.bytes.take b = encode (f.text.take i) := by
      rw [← take_encode, ← hb]
      exact List.take_eq_take_min
    have hdecode : decode? true (encode (f.text.take i)) = some (f.text.take i) :=
      decode?_encode fun c hc => hf c (List.mem_of_mem_take hc)
    rw [charOffset, if_neg hascii, hkept, hcut, hdecode]
    simp only [List.length_take_of_le hi]
  · refine Or.inr ⟨hstands, ?_⟩
    rw [exists_standsAt_iff] at hstands
    have hinside : b < f.bytes.length := Nat.lt_of_not_le fun hb => hstands (Or.inl hb)
    have hdecode : decode? true (f.bytes.take b) = none :=
      decodeWithin_take hf hinside (fun hb => hstands (Or.inr hb)) _
    rw [charOffset, if_neg hascii, hkept, hdecode]

end SourceFile

/-! ## Diagnostics about nodes -/

namespace Diagnostic

variable (message : Text) (related : Option (List Location)) {x y : Int} {problem : SpanError}

/-- The range is checked on the converted offsets. -/
theorem atNode_of_offsets (hx : f.startOf n = .ok x) (hy : f.endOf n = .ok y) :
    atNode f n message related =
      if x < 0 ∨ y - x < 0 ∨ f.text.length < x + (y - x) then .error (.outside x (x + (y - x)) f.name f.text.length)
      else .ok
        { file := some f, start := some x, length := some (y - x), message := .plain message, category := .error
          code := generatorCode, source := some generatorName, related } := by
  simp only [atNode, SourceFile.widthOf, hx, hy, bind, Except.bind, pure, Except.pure]
  split
  · rfl
  · rfl

theorem atNode_of_start (hx : f.startOf n = .error problem) : atNode f n message related = .error problem := by
  simp only [atNode, hx, bind, Except.bind]

theorem atNode_of_end (hx : f.startOf n = .ok x) (hy : f.endOf n = .error problem) :
    atNode f n message related = .error problem := by
  simp only [atNode, SourceFile.widthOf, hx, hy, bind, Except.bind]

/-- In an ASCII text a span is refused if it ends behind the text. -/
theorem atNode_of_ascii (h : isAsciiOnly f.text = true) (hspan : n.startByte ≤ n.endByte) :
    atNode f n message related =
      if f.text.length < n.endByte then .error (.outside n.startByte n.endByte f.name f.text.length)
      else .ok
        { file := some f, start := some n.startByte, length := some (n.endByte - n.startByte), message := .plain message
          category := .error, code := generatorCode, source := some generatorName, related } := by
  rw [atNode_of_offsets message related (SourceFile.charOffset_of_ascii h _) (SourceFile.charOffset_of_ascii h _)]
  have hend : (n.startByte : Int) + (n.endByte - n.startByte) = n.endByte := by omega
  rw [hend]
  by_cases hout : f.text.length < n.endByte
  · rw [if_pos hout, if_pos (by omega)]
  · rw [if_neg hout, if_neg (by omega)]

/-- In any other text it is made of what stands between the offsets, and refused only if one of them stands nowhere. -/
theorem atNode_of_not_ascii (hf : ∀ c ∈ f.text, c < limit) (h : isAsciiOnly f.text = false) (hspan : n.startByte ≤ n.endByte) :
    (∃ i j, StandsAt f n.startByte i ∧ StandsAt f n.endByte j ∧
        atNode f n message related = .ok
          { file := some f, start := some i, length := some (j - i), message := .plain message, category := .error
            code := generatorCode, source := some generatorName, related }) ∨
      (¬ ((∃ i, StandsAt f n.startByte i) ∧ ∃ j, StandsAt f n.endByte j)) ∧
        atNode f n message related = .error .insideCodePoint := by
  rcases SourceFile.charOffset_cases hf h n.startByte with ⟨i, hi, hstart⟩ | ⟨hnone, hstart⟩
  · rcases SourceFile.charOffset_cases hf h n.endByte with ⟨j, hj, hend⟩ | ⟨hnone, hend⟩
    · have hij : i ≤ j := hi.le hj hspan
      have hlast : j ≤ f.text.length := hj.1
      refine Or.inl ⟨i, j, hi, hj, ?_⟩
      rw [atNode_of_offsets message related hstart hend, if_neg (by omega)]
    · exact Or.inr ⟨fun hboth => hnone hboth.2, atNode_of_end message related hstart hend⟩
  · exact Or.inr ⟨fun hboth => hnone hboth.1, atNode_of_start message related hstart⟩

/-- Whenever a diagnostic is made of a node, the text of its span has the bytes of the node. A span that ends in the file
is accepted exactly if it starts and ends between code points; one that ends behind it is refused in an ASCII text,
but in any other text it is accepted as well, if it starts between code points or behind the end. -/
theorem atNode_spans (hf : ∀ c ∈ f.text, c < limit) (hspan : n.startByte ≤ n.endByte) :
    (∀ d, atNode f n message related = .ok d → ∃ i j : Nat, i ≤ j ∧ j ≤ f.text.length ∧ d.file = some f ∧
        d.start = some i ∧ d.length = some ((j : Int) - i) ∧
        encode ((f.text.take j).drop i) = (f.bytes.take n.endByte).drop n.startByte) ∧
      (n.endByte ≤ f.bytes.length →
        ((∃ d, atNode f n message related = .ok d) ↔ IsBoundary f.bytes n.startByte ∧ IsBoundary f.bytes n.endByte)) ∧
      (f.bytes.length < n.endByte →
        ((∃ d, atNode f n message related = .ok d) ↔
          isAsciiOnly f.text = false ∧ (f.bytes.length ≤ n.startByte ∨ IsBoundary f.bytes n.startByte))) := by
  cases hascii : isAsciiOnly f.text with
  | true =>
    have hlength := SourceFile.length_bytes_of_ascii hascii
    have hnode := atNode_of_ascii message related hascii hspan
    refine ⟨fun d hd => ?_, fun hend => ?_, fun hend => ?_⟩
    · by_cases hout : f.text.length < n.endByte
      · rw [hnode, if_pos hout] at hd
        cases hd
      · rw [hnode, if_neg hout] at hd
        cases hd
        have hlast : n.endByte ≤ f.text.length := Nat.le_of_not_lt hout
        refine ⟨n.startByte, n.endByte, hspan, hlast, rfl, rfl, rfl, ?_⟩
        exact encode_between (SourceFile.standsAt_of_ascii hascii (Nat.le_trans hspan hlast))
          (SourceFile.standsAt_of_ascii hascii hlast) hspan
    · have hlast : n.endByte ≤ f.text.length := hlength ▸ hend
      rw [hnode, if_neg (Nat.not_lt.mpr hlast)]
      exact ⟨fun _ => ⟨SourceFile.isBoundary_of_ascii hascii (Nat.le_trans hspan hlast),
        SourceFile.isBoundary_of_ascii hascii hlast⟩, fun _ => ⟨_, rfl⟩⟩
    · rw [hnode, if_pos (hlength ▸ hend)]
      simp
  | false =>
    have hbetween {i j : Nat} (hi : StandsAt f n.startByte i) (hj : StandsAt f n.endByte j) := encode_between hi hj hspan
    have hmade : (∃ d, atNode f n message related = .ok d) ↔
        (∃ i, StandsAt f n.startByte i) ∧ ∃ j, StandsAt f n.endByte j := by
      rcases atNode_of_not_ascii message related hf hascii hspan with
        ⟨i, j, hi, hj, hnode⟩ | ⟨hnone, hnode⟩
      · exact ⟨fun _ => ⟨⟨i, hi⟩, j, hj⟩, fun _ => ⟨_, hnode⟩⟩
      · rw [hnode]
        simp [hnone]
    rw [hmade, exists_standsAt_iff, exists_standsAt_iff]
    refine ⟨fun d hd => ?_, fun hend => ?_, fun hend => ?_⟩
    · rcases atNode_of_not_ascii message related hf hascii hspan with
        ⟨i, j, hi, hj, hnode⟩ | ⟨-, hnode⟩
      · rw [hnode] at hd
        cases hd
        exact ⟨i, j, hi.le hj hspan, hj.1, rfl, rfl, rfl, hbetween hi hj⟩
      · rw [hnode] at hd
        cases hd
    · have hboundary {b : Nat} (hb : b ≤ f.bytes.length) : f.bytes.length ≤ b ∨ IsBoundary f.bytes b ↔ IsBoundary f.bytes b :=
        or_iff_right_of_imp fun hle => Nat.le_antisymm hb hle ▸ isBoundary_length f.bytes
      rw [hboundary hend, hboundary (Nat.le_trans hspan hend)]
    · simp [Nat.le_of_lt hend]

/-- The semicolon behind a letter of two bytes, and half of the letter. -/
theorem atNode_spans_letter :
    let f : SourceFile :=
      { name := Text.of "a.ts", text := Text.of "\u00E9;", kind := .ts, root := .mk (Text.of "program") 0 3 true false [] }
    let n : Node := .mk (Text.of ";") 2 3 false false []
    let half : Node := .mk (Text.of "identifier") 0 1 true false []
    (∀ c ∈ f.text, c < limit) ∧ n.startByte ≤ n.endByte ∧ half.startByte ≤ half.endByte ∧ n.endByte ≤ f.bytes.length ∧
      (∃ d, atNode f n [] none = .ok d ∧ d.start = some 1 ∧ d.length = some 1 ∧
        ∃ i j : Nat, d.start = some i ∧ d.length = some ((j : Int) - i) ∧
          encode ((f.text.take j).drop i) = (f.bytes.take n.endByte).drop n.startByte) ∧
      ¬ ∃ d, atNode f half [] none = .ok d := by
  intro f n half
  have hf : ∀ c ∈ f.text, c < limit := by decide
  have hspan : n.startByte ≤ n.endByte := by decide
  have hhalf : half.startByte ≤ half.endByte := by decide
  have hend : n.endByte ≤ f.bytes.length := by decide
  obtain ⟨htext, -, -⟩ := atNode_spans [] none hf hspan
  obtain ⟨-, hboundaries, -⟩ := atNode_spans [] none hf hhalf
  obtain ⟨i, j, -, -, -, hi, hj, hbytes⟩ := htext _ rfl
  refine ⟨hf, hspan, hhalf, hend, ⟨_, rfl, rfl, rfl, i, j, hi, hj, hbytes⟩, ?_⟩
  rw [hboundaries (by decide)]
  rintro ⟨-, hcut⟩
  exact absurd hcut (by decide)

/-- A node of a longer file is taken for the rest of a shorter one. -/
theorem atNode_behindEnd :
    let f : SourceFile :=
      { name := Text.of "/proj/short.ts", text := Text.of "\u00E9;", kind := .ts
        root := .mk (Text.of "program") 0 31 true false [] }
    let n : Node := .mk (Text.of "lexical_declaration") 0 30 true false []
    n.startByte ≤ n.endByte ∧ f.bytes.length < n.endByte ∧
      ∃ d, atNode f n (Text.of "nope") none = .ok d ∧ d.start = some 0 ∧ d.length = some 2 :=
  ⟨by decide, by decide, _, rfl, rfl, rfl⟩

end Diagnostic

end TsProject
