/-
  TsProject.Proofs.Case — lower case is settled after one mapping.

  No image of the simple mapping is mapped again: the images of a run keep clear of every
  run of the table, by lying elsewhere or by their parity.

  - `runs_clear`: the check of the table, run against run.
  - `lower_lower`: lower case of lower case is itself.
  - `runs_ascii`: what letters of ASCII come from.
  - `exists_of_lowerAfter_append`: what ends in an ASCII text in lower case ends in it point by point.
-/

import TsProject.Text.Case
import Mathlib.Data.List.Basic

namespace TsProject.Text

open CodePoint

/-! ## The table -/

theorem isBetween_iff {lo hi c : Nat} : isBetween lo hi c = true ↔ lo ≤ c ∧ c ≤ hi := by simp [isBetween]

/-- A code point of the run that starts and ends at two others. -/
def InRun (first last step c : Nat) : Prop := first ≤ c ∧ c ≤ last ∧ (c - first) % step = 0

/-- No image of the run is in the other run: they lie apart, or one holds even and the other odd code
points. -/
def clears (first last step image first' last' step' : Nat) : Bool :=
  Nat.blt (image + (last - first)) first' || Nat.blt last' image ||
    ((Nat.beq step 2 || Nat.beq last first) && Nat.beq step' 2 && Nat.beq ((image + first') % 2) 1)

theorem not_inRun_of_clears {first last step image first' last' step' c : Nat}
    (h : clears first last step image first' last' step' = true) (hc : InRun first last step c) :
    ¬ InRun first' last' step' (image + (c - first)) := by
  obtain ⟨hfirst, hlast, hstep⟩ := hc
  rintro ⟨hfirst', hlast', hstep'⟩
  simp only [clears, Bool.or_eq_true, Bool.and_eq_true, Nat.blt_eq, Nat.beq_eq] at h
  rcases h with (h | h) | ⟨⟨h | h, rfl⟩, hodd⟩
  · omega
  · omega
  · subst h
    omega
  · omega

/-- The two code points that are mapped apart from the table, as runs. -/
def special : List (CodePoint × CodePoint × Nat × CodePoint) := [(0x130, 0x130, 1, 0), (0x3A3, 0x3A3, 1, 0)]

theorem runs_clear : (lowerRuns.all fun r => (special ++ lowerRuns).all fun r' =>
    clears r.1 r.2.1 r.2.2.1 r.2.2.2 r'.1 r'.2.1 r'.2.2.1) = true := by
  decide +kernel

theorem lookupLower_cases (c : Nat) (runs : List (CodePoint × CodePoint × Nat × CodePoint)) :
    (lookupLower c runs = c ∧ ∀ r ∈ runs, ¬ InRun r.1 r.2.1 r.2.2.1 c) ∨
      ∃ r ∈ runs, InRun r.1 r.2.1 r.2.2.1 c ∧ lookupLower c runs = r.2.2.2 + (c - r.1) := by
  induction runs with
  | nil => exact Or.inl ⟨rfl, by simp⟩
  | cons r runs ih =>
    obtain ⟨first, last, step, image⟩ := r
    have hiff : (isBetween first last c && (c - first) % step == 0) = true ↔ InRun first last step c := by
      rw [Bool.and_eq_true, isBetween_iff, beq_iff_eq, and_assoc]
      rfl
    simp only [lookupLower]
    by_cases hr : InRun first last step c
    · rw [if_pos (hiff.mpr hr)]
      exact Or.inr ⟨_, List.mem_cons_self, hr, rfl⟩
    · rw [if_neg fun h => hr (hiff.mp h)]
      rcases ih with ⟨he, hall⟩ | ⟨r', hr', hin, he⟩
      · exact Or.inl ⟨he, List.forall_mem_cons.mpr ⟨hr, hall⟩⟩
      · exact Or.inr ⟨r', List.mem_cons_of_mem _ hr', hin, he⟩

/-! ## Code points that are settled -/

/-- A code point lower case leaves alone wherever it stands. -/
structure IsLower (c : Nat) : Prop where
  notSpecial : c ≠ 0x130 ∧ c ≠ 0x3A3
  fixed : lowerPoint c = c

theorem isAsciiUpper_iff {c : Nat} : isAsciiUpper c = true ↔ InRun 0x41 0x5A 1 c := by
  rw [isAsciiUpper, isBetween_iff, InRun, Nat.mod_one]
  simp

theorem isLower_of_clear {c : Nat} (h : ∀ r ∈ special ++ lowerRuns, ¬ InRun r.1 r.2.1 r.2.2.1 c) : IsLower c := by
  have h130 : c ≠ 0x130 := by
    rintro rfl
    exact h (0x130, 0x130, 1, 0) (by simp [special]) ⟨by decide, by decide, by decide⟩
  have h3A3 : c ≠ 0x3A3 := by
    rintro rfl
    exact h (0x3A3, 0x3A3, 1, 0) (by simp [special]) ⟨by decide, by decide, by decide⟩
  have hupper : ¬ isAsciiUpper c = true := fun hu =>
    h (0x41, 0x5A, 1, 0x61) (List.mem_append_right _ List.mem_cons_self) (isAsciiUpper_iff.mp hu)
  have hlookup : lookupLower c lowerRuns = c := by
    rcases lookupLower_cases c lowerRuns with ⟨he, -⟩ | ⟨r, hr, hin, -⟩
    · exact he
    · exact absurd hin (h r (List.mem_append_right _ hr))
  refine ⟨⟨h130, h3A3⟩, ?_⟩
  simp [lowerPoint, hupper, h130, hlookup]

theorem isLower_image {c : Nat} {r : CodePoint × CodePoint × Nat × CodePoint} (hr : r ∈ lowerRuns)
    (hin : InRun r.1 r.2.1 r.2.2.1 c) : IsLower (r.2.2.2 + (c - r.1)) :=
  isLower_of_clear fun r' hr' => not_inRun_of_clears (List.all_eq_true.mp (List.all_eq_true.mp runs_clear r hr) r' hr') hin

theorem isLower_lookupLower {c : Nat} (h130 : c ≠ 0x130) (h3A3 : c ≠ 0x3A3) : IsLower (lookupLower c lowerRuns) := by
  rcases lookupLower_cases c lowerRuns with ⟨he, hall⟩ | ⟨r, hr, hin, he⟩
  · rw [he]
    refine isLower_of_clear (List.forall_mem_append.mpr ⟨?_, hall⟩)
    simp only [special, List.forall_mem_cons, InRun]
    exact ⟨by omega, by omega, by simp⟩
  · rw [he]
    exact isLower_image hr hin

theorem isLower_lowerPoint {c : Nat} (h130 : c ≠ 0x130) (h3A3 : c ≠ 0x3A3) : IsLower (lowerPoint c) := by
  unfold lowerPoint
  by_cases hascii : isAscii c = true
  · rw [if_pos hascii]
    by_cases hupper : isAsciiUpper c = true
    · rw [if_pos hupper]
      have hin := isAsciiUpper_iff.mp hupper
      have hle : 0x41 ≤ c := hin.1
      have := isLower_image (r := (0x41, 0x5A, 1, 0x61)) List.mem_cons_self hin
      rwa [show c + 0x20 = 0x61 + (c - 0x41) by omega]
    · rw [if_neg hupper]
      refine ⟨⟨h130, h3A3⟩, ?_⟩
      simp [lowerPoint, hascii, hupper]
  · rw [if_neg hascii, if_neg h130]
    exact isLower_lookupLower h130 h3A3

/-! ## Texts -/

theorem lowerAfter_of_isLower (before : Text) {s : Text} (h : ∀ c ∈ s, IsLower c) : lowerAfter before s = s := by
  induction s generalizing before with
  | nil => rfl
  | cons c s ih =>
    obtain ⟨hc, hs⟩ := List.forall_mem_cons.mp h
    simp [lowerAfter, hc.notSpecial.1, hc.notSpecial.2, hc.fixed, ih _ hs]

theorem isLower_of_mem_lowerAfter {before s : Text} {c : CodePoint} (h : c ∈ lowerAfter before s) : IsLower c := by
  have hsingle : ∀ x : CodePoint, lowerPoint x = x ∧ x ≠ 0x130 ∧ x ≠ 0x3A3 → IsLower x := fun x hx => ⟨hx.2, hx.1⟩
  induction s generalizing before with
  | nil => cases h
  | cons x s ih =>
    rcases List.mem_append.mp h with h | h
    · by_cases h130 : x = 0x130
      · rw [if_pos h130] at h
        simp only [List.mem_cons, List.not_mem_nil, or_false] at h
        rcases h with rfl | rfl
        · exact hsingle _ (by decide)
        · exact hsingle _ (by decide)
      · rw [if_neg h130] at h
        by_cases h3A3 : x = 0x3A3
        · rw [if_pos h3A3] at h
          split at h
          · rw [List.mem_singleton.mp h]
            exact hsingle _ (by decide)
          · rw [List.mem_singleton.mp h]
            exact hsingle _ (by decide)
        · rw [if_neg h3A3] at h
          rw [List.mem_singleton.mp h]
          exact isLower_lowerPoint h130 h3A3
    · exact ih h

theorem isLower_of_mem_lower {s : Text} {c : CodePoint} (h : c ∈ lower s) : IsLower c := isLower_of_mem_lowerAfter h

/-- Lower case of lower case is itself. -/
theorem lower_lower (s : Text) : lower (lower s) = lower s := lowerAfter_of_isLower [] fun _ => isLower_of_mem_lower

/-! ## ASCII -/

/-- Of the code points outside ASCII, lower case takes two to a letter of ASCII: to i and to k. -/
theorem runs_ascii : (lowerRuns.all fun r =>
    Nat.blt r.2.1 0x80 || Nat.ble 0x80 r.2.2.2 || (Nat.beq r.2.2.2 0x6B && Nat.beq r.1 r.2.1)) = true := by
  decide +kernel

theorem isAscii_of_lowerPoint {c : Nat} (hascii : isAscii (lowerPoint c) = true) (hi : lowerPoint c ≠ 0x69)
    (hk : lowerPoint c ≠ 0x6B) : isAscii c = true := by
  by_contra hc
  have houtside : 0x80 ≤ c := by simpa [isAscii] using hc
  have hpoint : lowerPoint c = if c = 0x130 then 0x69 else lookupLower c lowerRuns := by rw [lowerPoint, if_neg hc]
  by_cases h130 : c = 0x130
  · rw [hpoint, if_pos h130] at hi
    exact hi rfl
  · rw [hpoint, if_neg h130] at hascii hk
    rcases lookupLower_cases c lowerRuns with ⟨he, -⟩ | ⟨r, hr, ⟨hfirst, hlast, -⟩, he⟩
    · rw [he] at hascii
      exact hc hascii
    · have himage : ∀ first last image : Nat, first ≤ c → c ≤ last →
          (last < 0x80 ∨ 0x80 ≤ image) ∨ image = 0x6B ∧ first = last → image + (c - first) < 0x80 →
          image + (c - first) = 0x6B := by omega
      have hrun := List.all_eq_true.mp runs_ascii r hr
      simp only [Bool.or_eq_true, Bool.and_eq_true, Nat.blt_eq, Nat.ble_eq, Nat.beq_eq] at hrun
      rw [he] at hascii hk
      exact hk (himage _ _ _ hfirst hlast hrun (of_decide_eq_true hascii))

theorem lowerAfter_of_ascii {before s : Text} (h : ∀ c ∈ s, isAscii c = true) : lowerAfter before s = s.map lowerPoint := by
  induction s generalizing before with
  | nil => rfl
  | cons c s ih =>
    obtain ⟨hc, hs⟩ := List.forall_mem_cons.mp h
    have h130 : c ≠ 0x130 := by
      rintro rfl
      cases hc
    have h3A3 : c ≠ 0x3A3 := by
      rintro rfl
      cases hc
    simp [lowerAfter, h130, h3A3, ih hs]

/-- A point is mapped by itself, or to something that ends outside ASCII. -/
theorem lowerAfter_cons (before : Text) (c : CodePoint) (s : Text) :
    ∃ start last, lowerAfter before (c :: s) = start ++ [last] ++ lowerAfter (c :: before) s ∧
      (isAscii last = true → start = [] ∧ last = lowerPoint c) := by
  simp only [lowerAfter]
  by_cases h130 : c = 0x130
  · rw [if_pos h130]
    exact ⟨[0x69], 0x307, rfl, fun h => by cases h⟩
  · rw [if_neg h130]
    by_cases h3A3 : c = 0x3A3
    · rw [if_pos h3A3]
      split
      · exact ⟨[], 0x3C2, rfl, fun h => by cases h⟩
      · exact ⟨[], 0x3C3, rfl, fun h => by cases h⟩
    · rw [if_neg h3A3]
      exact ⟨[], lowerPoint c, rfl, fun _ => ⟨rfl, rfl⟩⟩

/-- What is ASCII in lower case was mapped point by point. -/
theorem lowerAfter_eq_map {before s : Text} (h : ∀ c ∈ lowerAfter before s, isAscii c = true) :
    lowerAfter before s = s.map lowerPoint := by
  induction s generalizing before with
  | nil => rfl
  | cons c s ih =>
    obtain ⟨start, last, he, hlast⟩ := lowerAfter_cons before c s
    rw [he] at h ⊢
    obtain ⟨hc, hs⟩ := List.forall_mem_append.mp h
    obtain ⟨rfl, rfl⟩ := hlast (hc last (by simp))
    rw [ih hs]
    rfl

/-- A text that ends in an ASCII text in lower case ends in it point by point. -/
theorem exists_of_lowerAfter_append {before p b e : Text} (he : ∀ c ∈ e, isAscii c = true)
    (h : lowerAfter before p = b ++ e) : ∃ s t, p = s ++ t ∧ t.map lowerPoint = e := by
  induction p generalizing before b with
  | nil =>
    obtain ⟨-, rfl⟩ := List.append_eq_nil_iff.mp h.symm
    exact ⟨[], [], rfl, rfl⟩
  | cons c p ih =>
    have hbehind : ∀ b', lowerAfter (c :: before) p = b' ++ e → ∃ s t, c :: p = s ++ t ∧ t.map lowerPoint = e := by
      intro b' hb'
      obtain ⟨s, t, rfl, ht⟩ := ih hb'
      exact ⟨c :: s, t, rfl, ht⟩
    obtain ⟨start, last, hcons, hlast⟩ := lowerAfter_cons before c p
    rw [hcons] at h
    rcases List.append_eq_append_iff.mp h with ⟨b', -, hb'⟩ | ⟨w, hw, rfl⟩
    · exact hbehind b' hb'
    · rcases List.eq_nil_or_concat w with rfl | ⟨w, x, rfl⟩
      · exact hbehind [] rfl
      · -- the ending starts within the image of the first point, which is a single point then
        obtain ⟨hx, hp⟩ := List.forall_mem_append.mp he
        rw [List.concat_eq_append, ← List.append_assoc] at hw
        obtain ⟨hstart, hend⟩ := List.append_inj' hw rfl
        obtain rfl : last = x := List.singleton_inj.mp hend
        obtain ⟨rfl, rfl⟩ := hlast (hx last (by simp))
        obtain ⟨-, rfl⟩ := List.append_eq_nil_iff.mp hstart.symm
        exact ⟨[], c :: p, rfl, by rw [lowerAfter_eq_map hp]; rfl⟩

theorem lowerAfter_append (before s t : Text) :
    ∃ b before', lowerAfter before (s ++ t) = b ++ lowerAfter before' t := by
  induction s generalizing before with
  | nil => exact ⟨[], before, rfl⟩
  | cons c s ih =>
    obtain ⟨b, before', hb⟩ := ih (c :: before)
    obtain ⟨start, last, he, -⟩ := lowerAfter_cons before c (s ++ t)
    exact ⟨start ++ [last] ++ b, before', by rw [List.cons_append, he, hb]; simp only [List.append_assoc]⟩

theorem lowerAfter_append_ascii {t : Text} (ht : ∀ c ∈ t, isAscii c = true) (before s : Text) :
    ∃ b, lowerAfter before (s ++ t) = b ++ t.map lowerPoint := by
  obtain ⟨b, before', hb⟩ := lowerAfter_append before s t
  exact ⟨b, by rw [hb, lowerAfter_of_ascii ht]⟩

end TsProject.Text
