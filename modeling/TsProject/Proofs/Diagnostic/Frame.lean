/-
  TsProject.Proofs.Diagnostic.Frame — a frame marks its span and nothing else.

  The marks below a line cover the columns of the span that the line, as shown, still has. The
  span is cut to the text, so its two ends lie on lines of the file, and a line between the two
  starts behind the start of the span and ends before its end.

  - `shownLine_eq`: what is shown of a line of the file.
  - `marksOf_eq`: on the first, the last and any other line the marks are one kind of row, blank
    before a column and marked from there to another one.
  - `low_le_iff` / `lt_high_iff`: the two columns are the ends of the span on that line.
  - `linesFrom_eq`: the loop shows each line once, or skips those in the middle.
  - `Display.Prints`: the segments that are printed of a line, said without the frame they come from.
  - `frame_shows`: there is a frame for any span, and it is printed so, line by line.
-/

import TsProject.Diagnostic.Render
import TsProject.Proofs.Lines
import TsProject.Proofs.Path
import Mathlib.Data.List.Forall2

namespace TsProject

open CodePoint

variable {file : SourceFile} {first last : Nat × Nat} {line a k low high s e : Nat} {shown : Text}

/-! ## The gutter -/

namespace Text

theorem length_ofNat_le {m n : Nat} (h : m ≤ n) : (ofNat m).length ≤ (ofNat n).length := by
  simp only [ofNat, List.length_map]
  have hpos : 0 < (Nat.toDigits 10 n).length := List.length_pos_iff.mpr Nat.toDigits_ne_nil
  have hn : n < 10 ^ (Nat.toDigits 10 n).length := (Nat.length_toDigits_le_iff (by decide) hpos).mp (Nat.le_refl _)
  exact (Nat.length_toDigits_le_iff (by decide) hpos).mpr (Nat.lt_of_le_of_lt h hn)

end Text

namespace Frame

/-! ## Lines as shown -/

/-- A line of the file with what ends it. -/
def lineText (file : SourceFile) (line : Nat) : Text :=
  (file.text.take ((file.lineStarts[line + 1]?).getD file.text.length)).drop ((file.lineStarts[line]?).getD 0)

/-- A text with blanks for tabs. -/
def expand (t : Text) : Text := t.map fun c => if c = tab then space else c

/-- A line behind which another one starts is one before that of the end of the text. -/
theorem lt_lastLine_iff :
    line < (Lines.locate file.lineStarts file.text.length).1 ↔ ∃ b, file.lineStarts[line + 1]? = some b := by
  obtain ⟨a, ha, -, hnext⟩ := file.isAt_locate file.text.length
  have hlength := (List.getElem?_eq_some_iff.mp ha).1
  have hlast : file.lineStarts[(Lines.locate file.lineStarts file.text.length).1 + 1]? = none := by
    cases hb : file.lineStarts[(Lines.locate file.lineStarts file.text.length).1 + 1]? with
    | none => rfl
    | some b =>
      have hlt := hnext b hb
      have hle := Lines.le_length_of_mem_starts (List.mem_of_getElem? hb)
      omega
  have hcount := List.getElem?_eq_none_iff.mp hlast
  constructor
  · intro hlt
    exact ⟨_, List.getElem?_eq_getElem (by omega)⟩
  · rintro ⟨b, hb⟩
    have hline := (List.getElem?_eq_some_iff.mp hb).1
    omega

/-- A line of the file as shown. -/
def shownText (file : SourceFile) (line : Nat) : Text := expand (Text.trimEnd Text.isBlank (lineText file line))

theorem length_shownText_le : (shownText file line).length ≤ (lineText file line).length := by
  rw [shownText, expand, List.length_map]
  exact (Text.trimEnd_prefix _ _).length_le

theorem shownLine_eq (ha : file.lineStarts[line]? = some a) : shownLine file line = .ok (shownText file line) := by
  have hstart : file.position line 0 = .ok ((a : Nat) : Int) := file.position_eq ha 0
  cases hb : file.lineStarts[line + 1]? with
  | none =>
    have hlast : ¬ line < (Lines.locate file.lineStarts file.text.length).1 := by
      rw [lt_lastLine_iff, hb]
      simp
    simp only [shownLine, hstart, if_neg hlast, shownText, lineText, ha, hb, Option.getD_some, Option.getD_none]
    rfl
  | some b =>
    have hlast : line < (Lines.locate file.lineStarts file.text.length).1 := lt_lastLine_iff.mpr ⟨b, hb⟩
    have hstop : file.position (line + 1 : Nat) 0 = .ok ((b : Nat) : Int) := file.position_eq hb 0
    simp only [shownLine, hstart, if_pos hlast, hstop, shownText, lineText, ha, hb, Option.getD_some]
    rfl

/-! ## Marks -/

/-- Below a text, marks from one column to another behind blanks. -/
def row (shown : Text) (low high : Nat) : Text := lead shown low ++ mark ((shown.take high).drop low).length

/-- On the first line the marks start at the span, on the last one they end with it. -/
theorem marksOf_eq : marksOf first last line shown =
    row shown (if line = first.1 then first.2 else 0) (if line = last.1 then last.2 else shown.length) := by
  have hlead : lead shown 0 = [] := rfl
  unfold marksOf row
  by_cases hfirst : line = first.1
  · by_cases hlast : line = last.1
    · simp only [if_pos hfirst, if_pos hlast]
    · simp only [if_pos hfirst, if_neg hlast, List.take_length]
  · by_cases hlast : line = last.1
    · simp only [if_neg hfirst, if_pos hlast, hlead, List.nil_append, List.drop_zero]
    · simp only [if_neg hfirst, if_neg hlast, hlead, List.nil_append, List.take_length, List.drop_zero]

theorem length_lead : (lead shown low).length = min low shown.length := by simp [lead]

theorem getElem?_row_of_lt (h : k < low) {c : CodePoint} (hc : (row shown low high)[k]? = some c) :
    Text.isBlank c = true := by
  by_cases hk : k < shown.length
  · have hlead : k < (lead shown low).length := by rw [length_lead]; omega
    rw [row, List.getElem?_append_left hlead] at hc
    obtain ⟨x, -, rfl⟩ := List.mem_map.mp (List.mem_of_getElem? hc)
    split
    · assumption
    · decide
  · -- the text ends before the marks
    have hnone : (shown.take high).drop low = [] := List.drop_eq_nil_of_le (by rw [List.length_take]; omega)
    rw [row, hnone, List.getElem?_eq_none (by simp [length_lead, mark]; omega)] at hc
    cases hc

theorem getElem?_row_of_le (h : low ≤ k) :
    (row shown low high)[k]? = if k < high ∧ k < shown.length then some '~'.toNat else none := by
  have hlead : (lead shown low).length ≤ k := by rw [length_lead]; omega
  have hcount : k - (lead shown low).length < ((shown.take high).drop low).length ↔ k < high ∧ k < shown.length := by
    rw [length_lead, List.length_drop, List.length_take]
    omega
  rw [row, List.getElem?_append_right hlead, mark, List.getElem?_replicate]
  simp only [hcount]

theorem getElem?_row_eq_mark_iff :
    (row shown low high)[k]? = some '~'.toNat ↔ low ≤ k ∧ k < high ∧ k < shown.length := by
  by_cases h : low ≤ k
  · rw [getElem?_row_of_le h]
    simp [h]
  · constructor
    · intro hc
      have hblank : Text.isBlank '~'.toNat = true := getElem?_row_of_lt (by omega) hc
      exact absurd hblank (by decide)
    · exact fun hk => absurd hk.1 h

/-- What is not a mark is a blank in front of the marks. -/
theorem isBlank_of_getElem?_row {c : CodePoint} (hc : (row shown low high)[k]? = some c) (hne : c ≠ '~'.toNat) :
    Text.isBlank c = true ∧ k < low := by
  by_cases h : low ≤ k
  · rw [getElem?_row_of_le h] at hc
    split at hc
    · exact absurd (Option.some.inj hc).symm hne
    · cases hc
  · exact ⟨getElem?_row_of_lt (by omega) hc, by omega⟩

/-! ## Columns and positions -/

/-- A column of a line behind the first one is behind the start of the span. -/
theorem low_le_iff (hs : Lines.IsAt file.lineStarts s first) (hline : first.1 ≤ line)
    (ha : file.lineStarts[line]? = some a) : (if line = first.1 then first.2 else 0) ≤ k ↔ s ≤ a + k := by
  obtain ⟨b, hb, hcolumn, hnext⟩ := hs
  by_cases hfirst : line = first.1
  · rw [hfirst] at ha
    obtain rfl : b = a := Option.some.inj (hb.symm.trans ha)
    rw [if_pos hfirst]
    omega
  · have hlength := (List.getElem?_eq_some_iff.mp ha).1
    obtain ⟨c, hc⟩ : ∃ c, file.lineStarts[first.1 + 1]? = some c := ⟨_, List.getElem?_eq_getElem (by omega)⟩
    have hsc : s < c := hnext c hc
    have hca : c ≤ a := Lines.le_of_pairwise (Lines.pairwise_starts file.text) hc ha (by omega)
    rw [if_neg hfirst]
    omega

/-- What is shown of a line before the last one is before the end of the span. -/
theorem lt_high_iff (he : Lines.IsAt file.lineStarts e last) (hline : line ≤ last.1)
    (ha : file.lineStarts[line]? = some a) (hk : k < (shownText file line).length) :
    k < (if line = last.1 then last.2 else (shownText file line).length) ↔ a + k < e := by
  obtain ⟨b, hb, hcolumn, -⟩ := he
  by_cases hlast : line = last.1
  · rw [hlast] at ha
    obtain rfl : b = a := Option.some.inj (hb.symm.trans ha)
    rw [if_pos hlast]
    omega
  · have hlength := (List.getElem?_eq_some_iff.mp hb).1
    obtain ⟨c, hc⟩ : ∃ c, file.lineStarts[line + 1]? = some c := ⟨_, List.getElem?_eq_getElem (by omega)⟩
    have hcb : c ≤ b := Lines.le_of_pairwise (Lines.pairwise_starts file.text) hc hb (by omega)
    have hshown : (shownText file line).length ≤ (lineText file line).length := length_shownText_le
    rw [lineText, hc, ha, List.length_drop, List.length_take, Option.getD_some, Option.getD_some] at hshown
    rw [if_neg hlast]
    omega

/-! ## Lines of a frame -/

/-- The numbers of the lines shown from one line to another, and where some are left out. -/
def numbers (first last : Nat) : List (Option Nat) :=
  if first + 4 ≤ last then [some first, some (first + 1), none, some (last - 1), some last]
  else (List.range' first (last + 1 - first)).map some

theorem of_some_mem_numbers {n i j : Nat} (h : some n ∈ numbers i j) : i ≤ n ∧ n ≤ j := by
  unfold numbers at h
  split at h
  · simp only [List.mem_cons, Option.some.injEq, reduceCtorEq, List.not_mem_nil, or_false, false_or] at h
    omega
  · obtain ⟨m, hm, heq⟩ := List.mem_map.mp h
    obtain rfl : m = n := Option.some.inj heq
    have hrange := List.mem_range'_1.mp hm
    omega

theorem of_none_mem_numbers {i j : Nat} (h : none ∈ numbers i j) : i + 4 ≤ j := by
  unfold numbers at h
  split at h
  · assumption
  · obtain ⟨m, -, heq⟩ := List.mem_map.mp h
    cases heq

section Loop

variable {f : Nat → FrameLine} (hcode : ∀ l ≤ last.1, codeLine file first last l = .ok (f l))

include hcode

theorem linesFrom_shown (hline : line ≤ last.1) (hskip : isSkipped first.1 last.1 line = false) :
    linesFrom file first last line = (linesFrom file first last (line + 1)).map (f line :: ·) := by
  rw [linesFrom, if_pos hline, hskip, hcode line hline]
  rfl

theorem linesFrom_skipped (hline : line ≤ last.1) (hskip : isSkipped first.1 last.1 line = true) :
    linesFrom file first last line =
      (linesFrom file first last (last.1 - 1 + 1)).map fun rest => .ellipsis :: f (last.1 - 1) :: rest := by
  rw [linesFrom, if_pos hline, hskip, hcode (last.1 - 1) (by omega)]
  rfl

/-- Where no line is skipped any more, each one is shown. -/
theorem linesFrom_eq_map (h : last.1 < first.1 + 4 ∨ last.1 ≤ line + 1) :
    linesFrom file first last line = .ok ((List.range' line (last.1 + 1 - line)).map f) := by
  induction hn : last.1 + 1 - line generalizing line with
  | zero =>
    rw [linesFrom, if_neg (by omega)]
    rfl
  | succ n ih =>
    have hskip : isSkipped first.1 last.1 line = false := decide_eq_false (by omega)
    rw [linesFrom_shown hcode (by omega) hskip, ih (by omega) (by omega), List.range'_succ, List.map_cons]
    rfl

/-- Of five or more lines the first two and the last two are shown, of fewer all. -/
theorem linesFrom_eq : linesFrom file first last first.1 =
    .ok ((numbers first.1 last.1).map fun n => n.elim .ellipsis f) := by
  by_cases hlong : first.1 + 4 ≤ last.1
  · have hfirst : isSkipped first.1 last.1 first.1 = false := decide_eq_false (by omega)
    have hsecond : isSkipped first.1 last.1 (first.1 + 1) = false := decide_eq_false (by omega)
    have hthird : isSkipped first.1 last.1 (first.1 + 1 + 1) = true := decide_eq_true (by omega)
    have hend : last.1 - 1 + 1 = last.1 := by omega
    have hone : last.1 + 1 - last.1 = 1 := by omega
    rw [linesFrom_shown hcode (by omega) hfirst, linesFrom_shown hcode (by omega) hsecond,
      linesFrom_skipped hcode (by omega) hthird, hend, linesFrom_eq_map hcode (Or.inr (by omega)), hone, numbers,
      if_pos hlong]
    rfl
  · rw [linesFrom_eq_map hcode (Or.inl (by omega)), numbers, if_neg hlong, List.map_map]
    rfl

end Loop

/-! ## Frames -/

/-- A line of the file, which starts at `start`, as it is shown in a frame of the span from `s` to `e`: without the blanks
at its end, and marked where the span covers what is shown of it. -/
structure ShowsLine (file : SourceFile) (s e number start : Nat) (shown marks : Text) : Prop where
  starts : file.lineStarts[number]? = some start
  trimmed : ∃ kept blanks, lineText file number = kept ++ blanks ∧ (∀ c ∈ blanks, Text.isBlank c = true) ∧
    (∀ c ∈ kept.getLast?, Text.isBlank c = false) ∧ shown = expand kept
  marked : ∀ k, marks[k]? = some '~'.toNat ↔ k < shown.length ∧ s ≤ start + k ∧ start + k < e
  blank : ∀ k c, marks[k]? = some c → c ≠ '~'.toNat → Text.isBlank c = true ∧ start + k < s

/-- The line of a frame of this number. -/
def lineAt (file : SourceFile) (first last : Nat × Nat) (line : Nat) : FrameLine :=
  .code line (shownText file line) (marksOf first last line (shownText file line))

theorem codeLine_eq (ha : file.lineStarts[line]? = some a) :
    codeLine file first last line = .ok (lineAt file first last line) := by
  rw [codeLine, shownLine_eq ha]
  rfl

theorem showsLine (hs : Lines.IsAt file.lineStarts s first) (he : Lines.IsAt file.lineStarts e last)
    (hfirst : first.1 ≤ line) (hlast : line ≤ last.1) (ha : file.lineStarts[line]? = some a) :
    ShowsLine file s e line a (shownText file line) (marksOf first last line (shownText file line)) := by
  obtain ⟨blanks, hsplit, hblanks, hkept⟩ := Text.exists_trimEnd Text.isBlank (lineText file line)
  refine ⟨ha, ⟨_, blanks, hsplit, hblanks, hkept, rfl⟩, ?_, ?_⟩
  · intro k
    rw [marksOf_eq, getElem?_row_eq_mark_iff, low_le_iff hs hfirst ha]
    constructor
    · rintro ⟨hlow, hhigh, hk⟩
      exact ⟨hk, hlow, (lt_high_iff he hlast ha hk).mp hhigh⟩
    · rintro ⟨hk, hlow, hhigh⟩
      exact ⟨hlow, (lt_high_iff he hlast ha hk).mpr hhigh, hk⟩
  · intro k c hc hne
    rw [marksOf_eq] at hc
    obtain ⟨hblank, hk⟩ := isBlank_of_getElem?_row hc hne
    have hlow := low_le_iff (k := k) hs hfirst ha
    exact ⟨hblank, by omega⟩

/-- The width of the column of numbers: that of the last one, and of `...` where lines are left out. -/
def widthOf (first last : Nat) : Nat :=
  if first + 4 ≤ last then max ellipsisText.length (Text.ofNat (last + 1)).length else (Text.ofNat (last + 1)).length

theorem length_ellipsisText_le_widthOf {i j : Nat} (h : i + 4 ≤ j) : ellipsisText.length ≤ widthOf i j := by
  rw [widthOf, if_pos h]
  exact Nat.le_max_left _ _

theorem length_ofNat_le_widthOf {n j : Nat} (i : Nat) (h : n ≤ j) : (Text.ofNat (n + 1)).length ≤ widthOf i j := by
  have hlength : (Text.ofNat (n + 1)).length ≤ (Text.ofNat (j + 1)).length := Text.length_ofNat_le (by omega)
  unfold widthOf
  split
  · exact Nat.le_trans hlength (Nat.le_max_right _ _)
  · exact hlength

theorem clamp_eq (length : Nat) (position : Int) : clamp length position = (max 0 (min position length)).toNat := by
  unfold clamp
  omega

/-- Every line up to that of a position is a line of the file. -/
theorem exists_start (he : Lines.IsAt file.lineStarts e last) (hline : line ≤ last.1) :
    ∃ a, file.lineStarts[line]? = some a := by
  obtain ⟨b, hb, -⟩ := he
  have hlength := (List.getElem?_eq_some_iff.mp hb).1
  exact ⟨_, List.getElem?_eq_getElem (by omega)⟩

/-- There is a frame for any span, also for one that reaches over an end of the text. -/
theorem ofSpan_eq {start length : Int} (hs : s = clamp file.text.length start)
    (he : e = clamp file.text.length (s + length)) (hfirst : first = Lines.locate file.lineStarts s)
    (hlast : last = Lines.locate file.lineStarts e) :
    ofSpan file start length = .ok
      { gutter := widthOf first.1 last.1
        lines := (numbers first.1 last.1).map fun n => n.elim .ellipsis (lineAt file first last) } := by
  have hcode : ∀ line ≤ last.1, codeLine file first last line = .ok (lineAt file first last line) := by
    intro line hline
    obtain ⟨a, ha⟩ := exists_start (hlast ▸ file.isAt_locate e) hline
    exact codeLine_eq ha
  rw [ofSpan, ← hs, ← he, ← hfirst, ← hlast, linesFrom_eq hcode]
  rfl

end Frame

/-! ## What is printed -/

namespace Display

/-- What is printed of a line in a frame of the span from `s` to `e`, or where lines are left out. Each starts a new row of
the output. Of a line there are two: its number, right-aligned in a column of the width given, with the text of the line
behind it, and below the empty column with the marks behind it. -/
inductive Prints (d : Display) (indent : Text) (style : Style) (file : SourceFile) (s e width : Nat) :
    Option Nat → List Segment → Prop
  | code {number start pad : Nat} {shown marks : Text} : Frame.ShowsLine file s e number start shown marks →
      pad + (Text.ofNat (number + 1)).length = width →
      Prints d indent style file s e width (some number)
        [⟨d.newLine, none⟩, ⟨indent, none⟩, ⟨List.replicate pad space ++ Text.ofNat (number + 1), some .reverse⟩,
         ⟨Text.of " " ++ shown ++ d.newLine, none⟩,
         ⟨indent, none⟩, ⟨List.replicate width space, some .reverse⟩, ⟨Text.of " ", none⟩, ⟨marks, some style⟩]
  | leftOut {pad : Nat} : pad + 3 = width →
      Prints d indent style file s e width none
        [⟨d.newLine, none⟩, ⟨indent, none⟩, ⟨List.replicate pad space ++ Text.of "...", some .reverse⟩, ⟨Text.of " ", none⟩]

variable {d : Display} {indent : Text} {style : Style}

theorem prints_code {width : Nat} {shown marks : Text} (hshows : Frame.ShowsLine file s e line a shown marks)
    (hwidth : (Text.ofNat (line + 1)).length ≤ width) :
    Prints d indent style file s e width (some line) (d.frameLine indent style width (.code line shown marks)) := by
  have hblank : Text.alignRight width [] = List.replicate width space := List.append_nil _
  have hprints : Prints d indent style file s e width (some line) _ := .code hshows (Nat.sub_add_cancel hwidth)
  rw [← hblank] at hprints
  exact hprints

theorem prints_leftOut {width : Nat} (hwidth : 3 ≤ width) :
    Prints d indent style file s e width none (d.frameLine indent style width .ellipsis) :=
  .leftOut (Nat.sub_add_cancel hwidth)

theorem frame_eq (d : Display) (indent : Text) (style : Style) {start length : Int}
    (hs : s = Frame.clamp file.text.length start) (he : e = Frame.clamp file.text.length (s + length))
    (hfirst : first = Lines.locate file.lineStarts s) (hlast : last = Lines.locate file.lineStarts e) :
    d.frame indent style file start length = ((Frame.numbers first.1 last.1).map fun n =>
      d.frameLine indent style (Frame.widthOf first.1 last.1) (n.elim .ellipsis (Frame.lineAt file first last))).flatten := by
  rw [frame, Frame.ofSpan_eq hs he hfirst hlast]
  exact List.flatMap_map ..

/-- There is a frame for any span, also for one that reaches over an end of the text. The lines of its two ends and those
between them are printed, or of five or more the first two and the last two with `...` between them; their numbers stand
right-aligned in one column, and what is marked of a line is what the span covers of it as printed. -/
theorem frame_shows (d : Display) (indent : Text) (style : Style) (file : SourceFile) (start length : Int) :
    let s := (max 0 (min start file.text.length)).toNat
    let e := (max 0 (min (s + length) file.text.length)).toNat
    (∃ frame, Frame.ofSpan file start length = .ok frame) ∧
      ∃ (first last : Nat × Nat) (rows : List (List Segment)),
        Lines.IsAt file.lineStarts s first ∧ Lines.IsAt file.lineStarts e last ∧
        List.Forall₂ (d.Prints indent style file s e (Frame.widthOf first.1 last.1)) (Frame.numbers first.1 last.1) rows ∧
        d.frame indent style file start length = rows.flatten := by
  intro s e
  obtain ⟨first, hfirst⟩ : ∃ first, first = Lines.locate file.lineStarts s := ⟨_, rfl⟩
  obtain ⟨last, hlast⟩ : ∃ last, last = Lines.locate file.lineStarts e := ⟨_, rfl⟩
  have hs : Lines.IsAt file.lineStarts s first := hfirst ▸ file.isAt_locate s
  have he : Lines.IsAt file.lineStarts e last := hlast ▸ file.isAt_locate e
  have hclampStart : s = Frame.clamp file.text.length start := (Frame.clamp_eq _ _).symm
  have hclampEnd : e = Frame.clamp file.text.length (s + length) := (Frame.clamp_eq _ _).symm
  have hframe := Frame.ofSpan_eq hclampStart hclampEnd hfirst hlast
  have hprinted := frame_eq d indent style hclampStart hclampEnd hfirst hlast
  refine ⟨⟨_, hframe⟩, first, last, _, hs, he, ?_, hprinted⟩
  rw [List.forall₂_map_right_iff, List.forall₂_same]
  intro n hn
  cases n with
  | none => exact prints_leftOut (Frame.length_ellipsisText_le_widthOf (Frame.of_none_mem_numbers hn))
  | some line =>
    obtain ⟨hle, hline⟩ := Frame.of_some_mem_numbers hn
    obtain ⟨a, ha⟩ := Frame.exists_start he hline
    exact prints_code (Frame.showsLine hs he hle hline ha) (Frame.length_ofNat_le_widthOf first.1 hline)

/-- A span of five lines that starts behind a tab and reaches over the end of the text. -/
theorem frame_shows_leftOut :
    let d : Display := { currentDirectory := Text.of "/" }
    let file : SourceFile :=
      { name := Text.of "a.ts", text := Text.of "a\n\tb \nc\nd\ne\nfoo", kind := .ts
        root := .mk (Text.of "program") 0 15 true false [] }
    (∃ rows : List (List Segment),
      List.Forall₂ (d.Prints (Text.of "  ") .red file 3 15 3) [some 1, some 2, none, some 4, some 5] rows ∧
        d.frame (Text.of "  ") .red file 3 100 = rows.flatten) ∧
      (d.frame (Text.of "  ") .red file 3 100).flatMap (·.text) =
        Text.of "\n    2  b\n       ~\n    3 c\n      ~\n  ... \n    5 e\n      ~\n    6 foo\n      ~~~" := by
  intro d file
  have hsorted : file.lineStarts.Pairwise (· < ·) := Lines.pairwise_starts file.text
  obtain ⟨-, first, last, rows, hs, he, hrows, hframe⟩ := frame_shows d (Text.of "  ") .red file 3 100
  obtain rfl : (1, 1) = first := hs.locate_eq hsorted
  obtain rfl : (5, 3) = last := he.locate_eq hsorted
  refine ⟨⟨rows, hrows, hframe⟩, ?_⟩
  rw [frame_eq (s := 3) (e := 15) d (Text.of "  ") .red rfl rfl rfl rfl]
  decide +kernel

end Display

end TsProject
