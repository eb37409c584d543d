/-
  TsProject.Proofs.Lines — positions in a text and pairs of line and column.

  A line ends with a line break, but not with the carriage return of a pair: the line feed
  behind it ends the line. The lines of a text start where it starts and behind each place
  where a line ends, so their starts increase, and a position lies on the line of the last
  start that is not behind it.

  - `mem_starts_iff`: where lines start.
  - `pairwise_starts`: the starts increase.
  - `locate_eq`: a position between two starts that follow one another lies on the line of
    the first one.
  - `lineAndColumn_position`: positions and pairs are converted into one another.
-/

import TsProject.Source

namespace TsProject

open CodePoint

namespace Lines

/-! ## Where lines start -/

/-- A line ends with the code point at this place. -/
def EndsLine (s : Text) (k : Nat) : Prop :=
  ∃ c, s[k]? = some c ∧ isLineBreak c = true ∧ ¬ (c = carriageReturn ∧ s[k + 1]? = some lineFeed)

theorem endsLine_succ {c : CodePoint} {s : Text} {k : Nat} : EndsLine (c :: s) (k + 1) ↔ EndsLine s k := by
  simp [EndsLine]

theorem endsLine_zero {c : CodePoint} {s : Text} :
    EndsLine (c :: s) 0 ↔ isLineBreak c = true ∧ ¬ (c = carriageReturn ∧ s.head? = some lineFeed) := by
  simp [EndsLine, List.head?_eq_getElem?]

/-- Behind the first code point lines start as they do in the rest of the text. -/
theorem exists_endsLine_cons {c : CodePoint} {s : Text} {x position : Nat} :
    (∃ k, x = position + k + 1 ∧ EndsLine (c :: s) k) ↔
      (x = position + 1 ∧ EndsLine (c :: s) 0) ∨ ∃ k, x = position + 1 + k + 1 ∧ EndsLine s k := by
  constructor
  · rintro ⟨k, hx, hk⟩
    cases k with
    | zero => exact Or.inl ⟨hx, hk⟩
    | succ k => exact Or.inr ⟨k, by omega, endsLine_succ.mp hk⟩
  · rintro (⟨hx, hk⟩ | ⟨k, hx, hk⟩)
    · exact ⟨0, hx, hk⟩
    · exact ⟨k + 1, by omega, endsLine_succ.mpr hk⟩

theorem mem_startsAfter_iff {position x : Nat} {s : Text} :
    x ∈ startsAfter position s ↔ ∃ k, x = position + k + 1 ∧ EndsLine s k := by
  fun_induction startsAfter position s with
  | case1 position => simp [EndsLine]
  | case2 position s ih =>
    -- the return does not end the line, the line feed does
    have hreturn : ¬ EndsLine (carriageReturn :: lineFeed :: s) 0 := by simp [endsLine_zero]
    have hfeed : EndsLine (lineFeed :: s) 0 := endsLine_zero.mpr ⟨rfl, fun h => absurd h.1 (by decide)⟩
    rw [List.mem_cons, ih, exists_endsLine_cons, exists_endsLine_cons]
    simp only [hreturn, hfeed, and_false, and_true, false_or]
  | case3 position c s hpair hbreak ih =>
    have hends : EndsLine (c :: s) 0 := by
      rw [endsLine_zero]
      refine ⟨hbreak, ?_⟩
      rintro ⟨rfl, hhead⟩
      obtain ⟨t, rfl⟩ := List.head?_eq_some_iff.mp hhead
      exact hpair t rfl rfl
    rw [List.mem_cons, ih, exists_endsLine_cons]
    simp only [hends, and_true]
  | case4 position c s hpair hbreak ih =>
    have hends : ¬ EndsLine (c :: s) 0 := fun h => hbreak (endsLine_zero.mp h).1
    rw [ih, exists_endsLine_cons]
    simp only [hends, and_false, false_or]

theorem mem_starts_iff {x : Nat} {s : Text} : x ∈ starts s ↔ x = 0 ∨ ∃ k, x = k + 1 ∧ EndsLine s k := by
  rw [starts, List.mem_cons, mem_startsAfter_iff]
  simp only [Nat.zero_add]

/-- A pair of return and line feed ends one line: no line starts between the two. -/
theorem starts_pair {s : Text} {k : Nat} (hreturn : s[k]? = some carriageReturn) (hfeed : s[k + 1]? = some lineFeed) :
    k + 1 ∉ starts s ∧ k + 2 ∈ starts s := by
  rw [mem_starts_iff, mem_starts_iff]
  constructor
  · rintro (h | ⟨j, hj, c, hc, -, hpair⟩)
    · omega
    · obtain rfl : j = k := by omega
      rw [hreturn] at hc
      exact hpair ⟨(Option.some.inj hc).symm, hfeed⟩
  · exact Or.inr ⟨k + 1, rfl, lineFeed, hfeed, rfl, fun h => absurd h.1 (by decide)⟩

theorem pairwise_startsAfter (position : Nat) (s : Text) : (startsAfter position s).Pairwise (· < ·) := by
  have hbehind : ∀ p s, ∀ x ∈ startsAfter p s, p < x := by
    intro p s x hx
    obtain ⟨k, hk, -⟩ := mem_startsAfter_iff.mp hx
    omega
  fun_induction startsAfter position s with
  | case1 position => exact List.Pairwise.nil
  | case2 position s ih => exact List.pairwise_cons.mpr ⟨hbehind _ _, ih⟩
  | case3 position c s _ _ ih => exact List.pairwise_cons.mpr ⟨hbehind _ _, ih⟩
  | case4 position c s _ _ ih => exact ih

theorem pairwise_starts (s : Text) : (starts s).Pairwise (· < ·) := by
  refine List.pairwise_cons.mpr ⟨?_, pairwise_startsAfter 0 s⟩
  intro x hx
  obtain ⟨k, hk, -⟩ := mem_startsAfter_iff.mp hx
  omega

theorem le_length_of_mem_starts {x : Nat} {s : Text} (h : x ∈ starts s) : x ≤ s.length := by
  rcases mem_starts_iff.mp h with rfl | ⟨k, rfl, c, hc, -⟩
  · exact Nat.zero_le _
  · exact (List.getElem?_eq_some_iff.mp hc).1

/-! ## Which line a position lies on -/

variable {l : List Nat} {i j a b p : Nat}

theorem le_of_pairwise (h : l.Pairwise (· < ·)) (ha : l[i]? = some a) (hb : l[j]? = some b) (hij : i ≤ j) : a ≤ b := by
  rcases Nat.eq_or_lt_of_le hij with rfl | hlt
  · exact Nat.le_of_eq (Option.some.inj (ha.symm.trans hb))
  · obtain ⟨hi, rfl⟩ := List.getElem?_eq_some_iff.mp ha
    obtain ⟨hj, rfl⟩ := List.getElem?_eq_some_iff.mp hb
    exact Nat.le_of_lt (List.pairwise_iff_getElem.mp h i j hi hj hlt)

/-- In an increasing list the elements up to a bound are those in front. -/
theorem length_filter_le (h : l.Pairwise (· < ·)) (ha : l[i]? = some a) (hap : a ≤ p)
    (hnext : ∀ b, l[i + 1]? = some b → p < b) : (l.filter fun start => decide (start ≤ p)).length = i + 1 := by
  induction l generalizing i with
  | nil => simp at ha
  | cons x l ih =>
    obtain ⟨hx, hl⟩ := List.pairwise_cons.mp h
    cases i with
    | zero =>
      obtain rfl : x = a := by simpa using ha
      have hnone : l.filter (fun start => decide (start ≤ p)) = [] := by
        cases l with
        | nil => rfl
        | cons b l =>
          have hb : p < b := hnext b (by simp)
          have hbehind := (List.pairwise_cons.mp hl).1
          refine List.filter_eq_nil_iff.mpr ?_
          intro y hy
          rcases List.mem_cons.mp hy with rfl | hy
          · simpa using hb
          · have := hbehind y hy
            simp only [decide_eq_true_eq]
            omega
      rw [List.filter_cons_of_pos (by simpa using hap), hnone]
      rfl
    | succ i =>
      have ha : l[i]? = some a := by simpa using ha
      have hnext : ∀ b, l[i + 1]? = some b → p < b := fun b hb => hnext b (by simpa using hb)
      have hxa : x < a := hx a (List.mem_of_getElem? ha)
      rw [List.filter_cons_of_pos (by simp only [decide_eq_true_eq]; omega), List.length_cons, ih hl ha hnext]

theorem locate_eq (h : l.Pairwise (· < ·)) (ha : l[i]? = some a) (hap : a ≤ p)
    (hnext : ∀ b, l[i + 1]? = some b → p < b) : locate l p = (i, p - a) := by
  simp only [locate, length_filter_le h ha hap hnext, Nat.add_sub_cancel, ha, Option.getD_some]

/-- A position that is not before the first element lies between two that follow one another. -/
theorem exists_between (ha : l[0]? = some a) (hap : a ≤ p) :
    ∃ i b, l[i]? = some b ∧ b ≤ p ∧ ∀ c, l[i + 1]? = some c → p < c := by
  induction l generalizing a with
  | nil => simp at ha
  | cons x l ih =>
    by_cases hnext : ∃ c, l[0]? = some c ∧ c ≤ p
    · obtain ⟨c, hc, hcp⟩ := hnext
      obtain ⟨i, b, hb, hbp, hbehind⟩ := ih hc hcp
      exact ⟨i + 1, b, by simpa using hb, hbp, by simpa using hbehind⟩
    · refine ⟨0, a, ha, hap, ?_⟩
      intro c hc
      have hc : l[0]? = some c := by simpa using hc
      exact Nat.lt_of_not_le fun hcp => hnext ⟨c, hc, hcp⟩

/-- A position is on this line and in this column of it, counted from where the line starts, and the next line, if there
is one, starts behind it. -/
def IsAt (l : List Nat) (p : Nat) (x : Nat × Nat) : Prop :=
  ∃ a, l[x.1]? = some a ∧ a + x.2 = p ∧ ∀ b, l[x.1 + 1]? = some b → p < b

theorem isAt_locate (h : l.Pairwise (· < ·)) (h0 : l[0]? = some 0) (p : Nat) : IsAt l p (locate l p) := by
  obtain ⟨i, a, ha, hap, hnext⟩ := exists_between h0 (Nat.zero_le p)
  rw [locate_eq h ha hap hnext]
  exact ⟨a, ha, Nat.add_sub_cancel' hap, hnext⟩

theorem IsAt.locate_eq {x : Nat × Nat} (hx : IsAt l p x) (h : l.Pairwise (· < ·)) : locate l p = x := by
  obtain ⟨a, ha, rfl, hnext⟩ := hx
  rw [Lines.locate_eq h ha (Nat.le_add_right a x.2) hnext, Nat.add_sub_cancel_left]

theorem position?_eq (ha : l[i]? = some a) (c : Nat) : position? l i c = some ((a + c : Nat) : Int) := by
  have hline : ¬ (i : Int) < 0 := by omega
  rw [position?, if_neg hline, Int.toNat_natCast, ha]
  rfl

end Lines

/-! ## Both ways -/

theorem SourceFile.isAt_locate (f : SourceFile) (p : Nat) : Lines.IsAt f.lineStarts p (Lines.locate f.lineStarts p) :=
  Lines.isAt_locate (Lines.pairwise_starts f.text) rfl p

theorem SourceFile.position_eq {f : SourceFile} {i a : Nat} (ha : f.lineStarts[i]? = some a) (c : Nat) :
    f.position i c = .ok ((a + c : Nat) : Int) := by
  rw [SourceFile.position, Lines.position?_eq ha]

/-- The lines of a file start at 0 and behind each place where a line ends, in order, and there is no start inside a pair of
return and line feed. Each position is that of the line and column it lies on, and each column that is not behind
its line is found at its position again. -/
theorem SourceFile.lineAndColumn_position (f : SourceFile) :
    (f.lineStarts[0]? = some 0 ∧ f.lineStarts.Pairwise (· < ·)) ∧
      (∀ x, x ∈ f.lineStarts ↔ x = 0 ∨ ∃ k, x = k + 1 ∧ Lines.EndsLine f.text k) ∧
      (∀ k, f.text[k]? = some carriageReturn → f.text[k + 1]? = some lineFeed →
        k + 1 ∉ f.lineStarts ∧ k + 2 ∈ f.lineStarts) ∧
      (∀ p : Nat, p ≤ f.text.length → ∃ line column : Nat, Lines.lineAndColumn f.lineStarts p = (↑line, ↑column) ∧
        line < f.lineStarts.length ∧ f.position line column = .ok p) ∧
      ∀ line column start : Nat, f.lineStarts[line]? = some start →
        (∀ next, f.lineStarts[line + 1]? = some next → start + column < next) →
        (f.lineStarts[line + 1]? = none → start + column ≤ f.text.length) →
        f.position line column = .ok ↑(start + column) ∧
          Lines.lineAndColumn f.lineStarts ↑(start + column) = (↑line, ↑column) := by
  have hsorted : f.lineStarts.Pairwise (· < ·) := Lines.pairwise_starts f.text
  have hlocate : ∀ p line start : Nat, f.lineStarts[line]? = some start → start ≤ p →
      (∀ next, f.lineStarts[line + 1]? = some next → p < next) →
      Lines.lineAndColumn f.lineStarts (p : Nat) = ((line : Int), ((p - start : Nat) : Int)) := by
    intro p line start hstart hle hnext
    simp only [Lines.lineAndColumn, Lines.locate_eq hsorted hstart hle hnext]
  refine ⟨⟨rfl, hsorted⟩, fun x => Lines.mem_starts_iff, fun k => Lines.starts_pair, ?_, ?_⟩
  · intro p _
    obtain ⟨line, start, hstart, hle, hnext⟩ := Lines.exists_between (l := f.lineStarts) (a := 0) rfl (Nat.zero_le p)
    refine ⟨line, p - start, hlocate p line start hstart hle hnext, (List.getElem?_eq_some_iff.mp hstart).1, ?_⟩
    rw [f.position_eq hstart, Nat.add_sub_cancel' hle]
  · intro line column start hstart hnext _
    refine ⟨f.position_eq hstart column, ?_⟩
    rw [hlocate _ line start hstart (Nat.le_add_right _ _) hnext, Nat.add_sub_cancel_left]

/-- Return and line feed, then a line separator. -/
theorem SourceFile.lineAndColumn_position_mixed :
    let f : SourceFile :=
      { name := Text.of "a.ts", text := Text.of "a\r\nb\u2028c", kind := .ts, root := .mk (Text.of "program") 0 8 true false [] }
    (f.text[1]? = some carriageReturn ∧ f.text[2]? = some lineFeed) ∧
      (f.lineStarts[1]? = some 3 ∧ f.lineStarts[2]? = some 5 ∧ 3 + 1 < 5) ∧ (2 ≤ f.text.length) ∧
      (2 ∉ f.lineStarts ∧ 3 ∈ f.lineStarts) ∧
      (∃ line column : Nat, Lines.lineAndColumn f.lineStarts 2 = (↑line, ↑column) ∧ line < f.lineStarts.length ∧
        f.position line column = .ok 2) ∧
      f.position 1 1 = .ok 4 ∧ Lines.lineAndColumn f.lineStarts 4 = (1, 1) := by
  intro f
  obtain ⟨-, -, hpair, hposition, hcolumn⟩ := f.lineAndColumn_position
  have hreturn : f.text[1]? = some carriageReturn := by decide
  have hfeed : f.text[2]? = some lineFeed := by decide
  have hsecond : f.lineStarts[1]? = some 3 := by decide
  have hthird : f.lineStarts[2]? = some 5 := by decide
  have hnext : ∀ next, f.lineStarts[1 + 1]? = some next → 3 + 1 < next := by
    intro next h
    obtain rfl : 5 = next := Option.some.inj (hthird.symm.trans h)
    decide
  have hlast : f.lineStarts[1 + 1]? = none → 3 + 1 ≤ f.text.length := by
    intro h
    cases hthird.symm.trans h
  exact ⟨⟨hreturn, hfeed⟩, ⟨hsecond, hthird, by decide⟩, by decide, hpair 1 hreturn hfeed, hposition 2 (by decide),
    hcolumn 1 1 3 hsecond hnext hlast⟩

end TsProject
