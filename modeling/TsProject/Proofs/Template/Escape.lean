/-
  TsProject.Proofs.Template.Escape — escaped text stays inside its literal.

  A text is escaped by three replacements, one after the other. Together they put a
  backslash in front of every backslash, backtick and dollar of the text and change
  nothing else, so what is escaped falls into pieces, one for each character. No piece
  leaves a backslash open that could take the first character of the next piece.

  - `escape_eq_flatMap`: the three replacements as one.
  - `cook_escape`: the escape sequences of escaped text stand for the text.
  - `scan_escape`: a reader of the literal stops at the backtick behind the escaped text.
  - `escape_enclosed`: it stops nowhere else, for backslashes come in pairs except in
    front of a backtick or dollar.
-/

import TsProject.Template.Escape
import Mathlib.Algebra.Ring.Parity
import Mathlib.Data.List.DropRight

namespace TsProject.Template

open CodePoint

/-! ## Pieces -/

/-- The characters that mean something in the text of a literal. -/
def isSpecial (c : CodePoint) : Bool := c == backslash || c == backtick || c == dollar

/-- What a character is written as. -/
def escaped (c : CodePoint) : Text := if isSpecial c then [backslash, c] else [c]

theorem isSpecial_iff {c : CodePoint} : isSpecial c = true ↔ c = backslash ∨ c = backtick ∨ c = dollar := by
  simp [isSpecial, or_assoc]

theorem escaped_of_special {c : CodePoint} (h : isSpecial c = true) : escaped c = [backslash, c] := if_pos h

theorem escaped_of_not_special {c : CodePoint} (h : ¬ isSpecial c = true) : escaped c = [c] := if_neg h

/-- The three replacements, one after the other, on a single character. -/
theorem escape_singleton (c : CodePoint) : escape [c] = escaped c := by
  by_cases h : isSpecial c = true
  · rw [escaped_of_special h]
    rcases isSpecial_iff.mp h with rfl | rfl | rfl <;> rfl
  · rw [escaped_of_not_special h]
    simp only [isSpecial_iff, not_or] at h
    simp [escape, Text.replaceEach, h]

theorem escape_append (s t : Text) : escape (s ++ t) = escape s ++ escape t := by
  simp [escape, Text.replaceEach]

theorem escape_cons (c : CodePoint) (s : Text) : escape (c :: s) = escaped c ++ escape s := by
  rw [← List.singleton_append, escape_append, escape_singleton]

/-- The three replacements are one: each character is escaped by itself. -/
theorem escape_eq_flatMap (s : Text) : escape s = s.flatMap escaped := by
  induction s with
  | nil => rfl
  | cons c s ih => rw [escape_cons, ih, List.flatMap_cons]

/-! ## Cooking -/

/-- An escaped character stands for itself, whatever comes behind it. -/
theorem sequence_special {c : CodePoint} (h : isSpecial c = true) (s : Text) : sequence (c :: s) = .ok ([c], s) := by
  rcases isSpecial_iff.mp h with rfl | rfl | rfl <;> rfl

theorem cookWithin_escape {n : Nat} {s : Text} (hn : (escape s).length ≤ n) : cookWithin n (escape s) = .ok s := by
  induction s generalizing n with
  | nil => cases n <;> rfl
  | cons c s ih =>
    rw [escape_cons] at hn ⊢
    by_cases h : isSpecial c = true
    · rw [escaped_of_special h] at hn ⊢
      obtain ⟨n, rfl⟩ : ∃ m, n = m + 1 := Nat.exists_eq_add_one.mpr (by simp at hn; omega)
      have ih := ih (n := n) (by simp at hn; omega)
      change cookWithin (n + 1) (backslash :: c :: escape s) = _
      rw [cookWithin.eq_3, sequence_special h]
      change (cookWithin n (escape s) >>= fun cooked => .ok ([c] ++ cooked)) = _
      rw [ih]
      rfl
    · rw [escaped_of_not_special h] at hn ⊢
      obtain ⟨n, rfl⟩ : ∃ m, n = m + 1 := Nat.exists_eq_add_one.mpr (by simp at hn; omega)
      have ih := ih (n := n) (by simp at hn; omega)
      have hc : c ≠ backslash := fun e => h (isSpecial_iff.mpr (Or.inl e))
      rw [List.singleton_append, cookWithin.eq_4 _ _ _ hc, ih]
      rfl

/-- Text survives being escaped and read again. -/
theorem cook_escape (s : Text) : cook (escape s) = .ok s := cookWithin_escape (Nat.le_refl _)

/-! ## Reading a literal -/

/-- How the text of a literal ends: at a backtick, where a substitution opens, or never. -/
inductive Ending where
  | closed (raw rest : Text)
  | substitution (raw rest : Text)
  | unclosed
  deriving DecidableEq

def Ending.behind (start : Text) : Ending → Ending
  | closed raw rest => closed (start ++ raw) rest
  | substitution raw rest => substitution (start ++ raw) rest
  | unclosed => unclosed

/-- Reads the text of a literal from behind its first backtick. A backslash takes the next character with it. -/
def scan : Text → Ending
  | [] => .unclosed
  | [backslash] => .unclosed
  | backslash :: c :: s => (scan s).behind [backslash, c]
  | backtick :: s => .closed [] s
  | dollar :: braceOpen :: s => .substitution [] s
  | c :: s => (scan s).behind [c]

theorem scan_escaped (c : CodePoint) (s : Text) : scan (escaped c ++ s) = (scan s).behind (escaped c) := by
  by_cases h : isSpecial c = true
  · rw [escaped_of_special h]
    rfl
  · rw [escaped_of_not_special h]
    simp only [isSpecial_iff, not_or] at h
    rw [List.singleton_append, scan.eq_6]
    · exact fun e _ => h.1 e
    · exact fun _ _ e _ => h.1 e
    · exact h.2.1
    · exact fun _ e _ => h.2.2 e

/-- The literal ends at the backtick behind the escaped text, whatever follows. -/
theorem scan_escape (s rest : Text) : scan (escape s ++ backtick :: rest) = .closed (escape s) rest := by
  induction s with
  | nil => rfl
  | cons c s ih =>
    rw [escape_cons, List.append_assoc, scan_escaped, ih]
    rfl

/-! ## Runs of backslashes -/

/-- How many backslashes a text ends in. -/
def endingBackslashes (s : Text) : Nat := (s.rtakeWhile (· == backslash)).length

theorem endingBackslashes_concat (s : Text) (c : CodePoint) :
    endingBackslashes (s ++ [c]) = if c = backslash then endingBackslashes s + 1 else 0 := by
  rw [endingBackslashes, List.rtakeWhile_concat]
  by_cases h : c = backslash
  · simp [h, endingBackslashes]
  · simp [h]

/-- A piece closes its own backslashes, so what ends behind it is counted alike with and without it. -/
theorem even_endingBackslashes_escaped_append (c : CodePoint) (s : Text) :
    Even (endingBackslashes (escaped c ++ s)) ↔ Even (endingBackslashes s) := by
  induction s using List.reverseRecOn with
  | nil =>
    by_cases h : isSpecial c = true
    · rw [escaped_of_special h]
      rcases isSpecial_iff.mp h with rfl | rfl | rfl <;> decide
    · rw [escaped_of_not_special h]
      simp only [isSpecial_iff, not_or] at h
      simp [endingBackslashes, List.rtakeWhile, h.1]
  | append_singleton s x ih =>
    rw [← List.append_assoc, endingBackslashes_concat, endingBackslashes_concat]
    by_cases hx : x = backslash
    · rw [if_pos hx, if_pos hx, Nat.even_add_one, Nat.even_add_one, ih]
    · rw [if_neg hx, if_neg hx]

theorem even_endingBackslashes_escape (s : Text) : Even (endingBackslashes (escape s)) := by
  induction s with
  | nil => exact Even.zero
  | cons c s ih => rwa [escape_cons, even_endingBackslashes_escaped_append]

/-- A backtick or a dollar in escaped text is itself escaped. -/
theorem odd_endingBackslashes {s before after : Text} {x : CodePoint} (h : escape s = before ++ x :: after)
    (hx : x = backtick ∨ x = dollar) : Odd (endingBackslashes before) := by
  induction s generalizing before with
  | nil => simp [escape, Text.replaceEach] at h
  | cons c s ih =>
    rw [escape_cons] at h
    have hbackslash : x ≠ backslash := by rcases hx with rfl | rfl <;> decide
    rcases List.append_eq_append_iff.mp h with ⟨t, rfl, ht⟩ | ⟨t, ht, hrest⟩
    · -- it stands in a later piece
      rw [← Nat.not_even_iff_odd, even_endingBackslashes_escaped_append, Nat.not_even_iff_odd]
      exact ih ht
    · cases t with
      | nil =>
        -- a later piece cannot start with it
        have hfirst : Odd (endingBackslashes []) := ih hrest.symm
        exact absurd hfirst (by decide)
      | cons y t =>
        obtain ⟨rfl, -⟩ := List.cons.inj hrest
        by_cases hc : isSpecial c = true
        · rw [escaped_of_special hc] at ht
          match before, ht with
          | [], ht => exact absurd (List.cons.inj ht).1.symm hbackslash
          | [b], ht =>
            obtain ⟨rfl, -⟩ := List.cons.inj ht
            decide
          | _ :: _ :: _, ht => simp at ht
        · rw [escaped_of_not_special hc] at ht
          match before, ht with
          | [], ht =>
            obtain ⟨rfl, -⟩ := List.cons.inj ht
            exact absurd (isSpecial_iff.mpr (Or.inr hx)) hc
          | _ :: _, ht => simp at ht

/-- Escaped text between backticks is read to the last backtick and is the whole text of that literal: in it every
backtick and dollar stands behind an odd number of backslashes, and it ends in an even number of them. -/
theorem escape_enclosed (s : Text) :
    scan (escape s ++ [backtick]) = .closed (escape s) [] ∧
      (∀ before c after, escape s = before ++ c :: after → c = backtick ∨ c = dollar → Odd (endingBackslashes before)) ∧
      Even (endingBackslashes (escape s)) :=
  ⟨scan_escape s [], fun _ _ _ h hc => odd_endingBackslashes h hc, even_endingBackslashes_escape s⟩

/-- A text that would end the literal and go on with a substitution. -/
theorem escape_enclosed_breakout :
    let s := Text.of "\\`$\x7b"
    let before := Text.of "\\\\\\"
    escape s = before ++ backtick :: Text.of "\\$\x7b" ∧ Odd (endingBackslashes before) := by
  intro s before
  have h : escape s = before ++ backtick :: Text.of "\\$\x7b" := by decide
  exact ⟨h, (escape_enclosed s).2.1 before backtick _ h (Or.inl rfl)⟩

end TsProject.Template
