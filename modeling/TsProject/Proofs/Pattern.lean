/-
  TsProject.Proofs.Pattern — what a pattern takes, as a relation.

  `Leaves same p s r`: the pattern takes a piece off the front of `s` and leaves `r`.
  Repetition is the reflexive transitive closure of one round, and a refusal looks at
  what lies ahead and takes nothing.

  - `mem_rests`: the rests that are computed are those the relation allows, so a bound
    on the rounds loses none (what a round newly finds is shorter than what it came from).
  - `Leaves.suffix`: a rest is a suffix of its start.
  - `Leaves.regardless`: a pattern that asks for no end and refuses nothing takes its piece
    whatever follows.
  - `Leaves.avoids`: a piece holds no character that no part of the pattern takes.
-/

import TsProject.Pattern
import Mathlib.Algebra.Order.BigOperators.Group.List
import Mathlib.Algebra.Order.Group.Nat
import Mathlib.Data.List.Infix
import Mathlib.Logic.Relation

namespace TsProject.Pattern

open CodePoint Relation

variable {same : CodePoint → CodePoint → Bool}

/-- The pattern takes a piece off the front of a text and leaves the rest. -/
def Leaves (same : CodePoint → CodePoint → Bool) : Pattern → Text → Text → Prop
  | .empty, s, r => r = s
  | .char c, s, r => ∃ x, s = x :: r ∧ same c x = true
  | .noneOf cs, s, r => ∃ x, s = x :: r ∧ ∀ c ∈ cs, same c x = false
  | .anyInLine, s, r => ∃ x, s = x :: r ∧ x ≠ lineFeed
  | .atEnd, s, r => r = s ∧ (s = [] ∨ s = [lineFeed])
  | .seq p q, s, r => ∃ m, Leaves same p s m ∧ Leaves same q m r
  | .either p q, s, r => Leaves same p s r ∨ Leaves same q s r
  | .group p, s, r => Leaves same p s r
  | .repeated .optional p, s, r => Leaves same p s r ∨ r = s
  | .repeated .someLazy p, s, r => ∃ m, Leaves same p s m ∧ ReflTransGen (Leaves same p) m r
  | .repeated .many p, s, r => ReflTransGen (Leaves same p) s r
  | .repeated .manyLazy p, s, r => ReflTransGen (Leaves same p) s r
  | .notAhead p, s, r => r = s ∧ ∀ m, ¬ Leaves same p s m

/-! ## A rest is a suffix -/

theorem star_suffix {R : Text → Text → Prop} (hR : ∀ s r, R s r → r <:+ s) {s r : Text} (h : ReflTransGen R s r) :
    r <:+ s := by
  induction h with
  | refl => exact List.suffix_refl s
  | tail _ h ih => exact (hR _ _ h).trans ih

theorem Leaves.suffix {p : Pattern} {s r : Text} (h : Leaves same p s r) : r <:+ s := by
  induction p generalizing s r with
  | empty => exact h ▸ List.suffix_refl s
  | char c => obtain ⟨x, rfl, _⟩ := h; exact List.suffix_cons x r
  | noneOf cs => obtain ⟨x, rfl, _⟩ := h; exact List.suffix_cons x r
  | anyInLine => obtain ⟨x, rfl, _⟩ := h; exact List.suffix_cons x r
  | atEnd => exact h.1 ▸ List.suffix_refl s
  | seq p q ihp ihq => obtain ⟨m, h1, h2⟩ := h; exact (ihq h2).trans (ihp h1)
  | either p q ihp ihq =>
    rcases h with h | h
    · exact ihp h
    · exact ihq h
  | group p ih => exact ih h
  | repeated n p ih =>
    have hR : ∀ s r, Leaves same p s r → r <:+ s := fun _ _ h => ih h
    cases n with
    | optional =>
      rcases h with h | h
      · exact ih h
      · exact h ▸ List.suffix_refl s
    | many => exact star_suffix hR h
    | manyLazy => exact star_suffix hR h
    | someLazy => obtain ⟨m, h1, h2⟩ := h; exact (star_suffix hR h2).trans (ih h1)
  | notAhead p => exact h.1 ▸ List.suffix_refl s

theorem eq_of_suffix_of_length_le {s r : Text} (h : r <:+ s) (hl : s.length ≤ r.length) : r = s :=
  h.eq_of_length (Nat.le_antisymm h.length_le hl)

/-! ## The computed rests are the allowed ones -/

section Closure

variable {step : List Text → List Text} {R : Text → Text → Prop}

/-- Nothing found leads further, apart from what is new. -/
def Settled (R : Text → Text → Prop) (new found : List Text) : Prop :=
  ∀ s ∈ found, s ∉ new → ∀ r, R s r → r ∈ found

theorem star_of_settled {found : List Text} (h : Settled R [] found) {s r : Text} (hs : s ∈ found)
    (hr : ReflTransGen R s r) : r ∈ found := by
  induction hr with
  | refl => exact hs
  | tail _ h1 ih => exact h _ ih (by simp) _ h1

theorem mem_closure (hstep : ∀ starts r, r ∈ step starts ↔ ∃ s ∈ starts, R s r) (hR : ∀ s r, R s r → r <:+ s) (n : Nat)
    (new found : List Text) (hn : ∀ s ∈ new, s.length ≤ n) (hsub : new ⊆ found) (hset : Settled R new found) (r : Text) :
    r ∈ closure step n new found ↔ ∃ s ∈ found, ReflTransGen R s r := by
  induction n generalizing new found with
  | zero =>
    have hset' : Settled R [] found := by
      intro s hs _ r hr
      by_cases hnew : s ∈ new
      · have hs0 : s = [] := List.length_eq_zero_iff.mp (Nat.le_zero.mp (hn s hnew))
        have hr0 : r = [] := List.suffix_nil.mp (hs0 ▸ hR s r hr)
        exact hr0.trans hs0.symm ▸ hs
      · exact hset s hs hnew r hr
    exact ⟨fun h => ⟨r, h, .refl⟩, fun ⟨_, hs, h⟩ => star_of_settled hset' hs h⟩
  | succ n ih =>
    have hmem : ∀ x, x ∈ (step new).filter (!found.contains ·) ↔ (∃ s ∈ new, R s x) ∧ x ∉ found := by
      intro x
      simp [List.mem_filter, hstep]
    simp only [closure]
    split
    · rename_i hnil
      have hset' : Settled R [] found := by
        intro s hs _ x hx
        by_cases hnew : s ∈ new
        · apply Classical.byContradiction
          intro hx'
          have := (hmem x).mpr ⟨⟨s, hnew, hx⟩, hx'⟩
          rw [hnil] at this; cases this
        · exact hset s hs hnew x hx
      exact ⟨fun h => ⟨r, h, .refl⟩, fun ⟨_, hs, h⟩ => star_of_settled hset' hs h⟩
    · have hlen : ∀ x ∈ (step new).filter (!found.contains ·), x.length ≤ n := by
        intro x hx
        obtain ⟨⟨s, hs, hsx⟩, hx'⟩ := (hmem x).mp hx
        have hne : x ≠ s := fun e => hx' (e ▸ hsub hs)
        have hlt : ¬ s.length ≤ x.length := fun hl => hne (eq_of_suffix_of_length_le (hR s x hsx) hl)
        have := hn s hs
        omega
      have hset' : Settled R ((step new).filter (!found.contains ·)) (found ++ (step new).filter (!found.contains ·)) := by
        intro s hs hns x hx
        rcases List.mem_append.mp hs with hs | hs
        · by_cases hxf : x ∈ found
          · exact List.mem_append_left _ hxf
          · by_cases hnew : s ∈ new
            · exact List.mem_append_right _ ((hmem x).mpr ⟨⟨s, hnew, hx⟩, hxf⟩)
            · exact absurd (hset s hs hnew x hx) hxf
        · exact absurd hs hns
      rw [ih _ _ hlen (List.subset_append_right _ _) hset']
      constructor
      · rintro ⟨s, hs, h⟩
        rcases List.mem_append.mp hs with hs | hs
        · exact ⟨s, hs, h⟩
        · obtain ⟨⟨s0, hs0, h0⟩, _⟩ := (hmem s).mp hs
          exact ⟨s0, hsub hs0, .head h0 h⟩
      · rintro ⟨s, hs, h⟩
        exact ⟨s, List.mem_append_left _ hs, h⟩

theorem length_le_flatten {starts : List Text} {s : Text} (h : s ∈ starts) : s.length ≤ starts.flatten.length :=
  (List.sublist_flatten_of_mem h).length_le

theorem mem_steps (hstep : ∀ starts r, r ∈ step starts ↔ ∃ s ∈ starts, R s r) (hR : ∀ s r, R s r → r <:+ s)
    (starts : List Text) (r : Text) : r ∈ steps step starts ↔ ∃ s ∈ starts, ReflTransGen R s r :=
  mem_closure hstep hR _ starts starts (fun _ => length_le_flatten) (List.Subset.refl _) (fun _ hs hn => absurd hs hn) r

end Closure

theorem mem_takeOne (p : CodePoint → Bool) (starts : List Text) (r : Text) :
    r ∈ takeOne p starts ↔ ∃ s ∈ starts, ∃ x, s = x :: r ∧ p x = true := by
  simp only [takeOne, List.mem_filterMap]
  constructor
  · rintro ⟨s, hs, h⟩
    cases s with
    | nil => simp at h
    | cons c s =>
      by_cases hc : p c = true
      · simp only [hc, if_true, Option.some.injEq] at h
        exact ⟨_, hs, c, by rw [h], hc⟩
      · simp [hc] at h
  · rintro ⟨s, hs, x, rfl, hx⟩
    exact ⟨_, hs, by simp [hx]⟩

/-- The rests computed from several starts are those the pattern can leave of one of them. -/
theorem mem_rests (p : Pattern) (starts : List Text) (r : Text) :
    r ∈ rests same p starts ↔ ∃ s ∈ starts, Leaves same p s r := by
  induction p generalizing starts r with
  | empty => simp [rests, Leaves]
  | char c => simp only [rests, mem_takeOne, Leaves]
  | noneOf cs => simp only [rests, mem_takeOne, Leaves, Bool.not_eq_true', List.any_eq_false, Bool.not_eq_true]
  | anyInLine => simp only [rests, mem_takeOne, Leaves, bne_iff_ne]
  | atEnd =>
    simp only [rests, List.mem_filter, Leaves, Bool.or_eq_true, List.isEmpty_iff, beq_iff_eq]
    exact ⟨fun h => ⟨r, h.1, rfl, h.2⟩, fun ⟨s, hs, he, h⟩ => he ▸ ⟨hs, h⟩⟩
  | seq p q ihp ihq =>
    simp only [rests, ihp, ihq, Leaves]
    exact ⟨fun ⟨m, ⟨s, hs, h1⟩, h2⟩ => ⟨s, hs, m, h1, h2⟩, fun ⟨s, hs, m, h1, h2⟩ => ⟨m, ⟨s, hs, h1⟩, h2⟩⟩
  | either p q ihp ihq =>
    simp only [rests, List.mem_eraseDups, List.mem_append, ihp, ihq, Leaves, and_or_left, exists_or]
  | group p ih => simp only [rests, ih, Leaves]
  | repeated n p ih =>
    have hR : ∀ s r, Leaves same p s r → r <:+ s := fun _ _ h => h.suffix
    cases n with
    | optional => simp [rests, ih, Leaves, and_or_left, exists_or]
    | many => simp only [rests, Leaves, mem_steps ih hR]
    | manyLazy => simp only [rests, Leaves, mem_steps ih hR]
    | someLazy =>
      simp only [rests, Leaves, mem_steps ih hR, ih]
      exact ⟨fun ⟨m, ⟨s, hs, h1⟩, h2⟩ => ⟨s, hs, m, h1, h2⟩, fun ⟨s, hs, m, h1, h2⟩ => ⟨m, ⟨s, hs, h1⟩, h2⟩⟩
  | notAhead p ih =>
    have he : ∀ s, (rests same p [s]).isEmpty = true ↔ ∀ m, ¬ Leaves same p s m := by
      intro s
      rw [List.isEmpty_iff, List.eq_nil_iff_forall_not_mem]
      simp [ih]
    simp only [rests, List.mem_filter, he, Leaves]
    exact ⟨fun h => ⟨r, h.1, rfl, h.2⟩, fun ⟨s, hs, hr, h⟩ => hr ▸ ⟨hs, h⟩⟩

theorem isMatch_iff (caseSensitive : Bool) (p : Pattern) (s : Text) :
    isMatch caseSensitive p s = true ↔ ∃ r, Leaves (sameOn caseSensitive) p s r := by
  simp [isMatch, List.eq_nil_iff_forall_not_mem, mem_rests]

/-! ## Words and choices -/

/-- The text spells the word, up to letters that count as the same. -/
def Spells (same : CodePoint → CodePoint → Bool) (word s : Text) : Prop := List.Forall₂ (same · · = true) word s

theorem leaves_literal (word s r : Text) : Leaves same (literal word) s r ↔ ∃ w, s = w ++ r ∧ Spells same word w := by
  induction word generalizing s with
  | nil =>
    constructor
    · rintro rfl; exact ⟨[], rfl, .nil⟩
    · rintro ⟨w, rfl, h⟩; cases h; rfl
  | cons c word ih =>
    change (∃ m, (∃ x, s = x :: m ∧ same c x = true) ∧ Leaves same (literal word) m r) ↔ _
    constructor
    · rintro ⟨m, ⟨x, rfl, hx⟩, h⟩
      obtain ⟨w, rfl, hw⟩ := (ih m).mp h
      exact ⟨x :: w, rfl, .cons hx hw⟩
    · rintro ⟨w, rfl, h⟩
      cases h with
      | cons hx hw => exact ⟨_, ⟨_, rfl, hx⟩, (ih _).mpr ⟨_, rfl, hw⟩⟩

theorem leaves_literal_append (v w s r : Text) :
    Leaves same (literal (v ++ w)) s r ↔ ∃ m, Leaves same (literal v) s m ∧ Leaves same (literal w) m r := by
  induction v generalizing s with
  | nil => exact ⟨fun h => ⟨s, rfl, h⟩, fun ⟨m, hm, h⟩ => (show m = s from hm) ▸ h⟩
  | cons c v ih =>
    constructor
    · rintro ⟨t, hc, h⟩
      obtain ⟨m, hv, hw⟩ := (ih t).mp h
      exact ⟨m, ⟨t, hc, hv⟩, hw⟩
    · rintro ⟨m, ⟨t, hc, hv⟩, hw⟩
      exact ⟨t, hc, (ih t).mpr ⟨m, hv, hw⟩⟩

theorem leaves_oneOf {ps : List Pattern} (hne : ps ≠ []) (s r : Text) :
    Leaves same (oneOf ps) s r ↔ ∃ p ∈ ps, Leaves same p s r := by
  induction ps with
  | nil => exact absurd rfl hne
  | cons p ps ih =>
    cases ps with
    | nil => simp [oneOf]
    | cons q qs => simp only [oneOf, Leaves, ih (by simp), List.mem_cons, exists_eq_or_imp]

/-! ## Repetition of one class of characters -/

theorem leaves_many_noneOf (cs : List CodePoint) (s r : Text) :
    Leaves same (.repeated .many (.noneOf cs)) s r ↔ ∃ w, s = w ++ r ∧ ∀ x ∈ w, ∀ c ∈ cs, same c x = false := by
  constructor
  · intro h
    change ReflTransGen _ s r at h
    induction h using ReflTransGen.head_induction_on with
    | refl => exact ⟨[], rfl, by simp⟩
    | head h _ ih =>
      obtain ⟨x, rfl, hx⟩ := h
      obtain ⟨w, rfl, hw⟩ := ih
      exact ⟨x :: w, rfl, List.forall_mem_cons.mpr ⟨hx, hw⟩⟩
  · rintro ⟨w, rfl, hw⟩
    change ReflTransGen _ (w ++ r) r
    induction w with
    | nil => exact .refl
    | cons x w ih =>
      obtain ⟨hx, hw⟩ := List.forall_mem_cons.mp hw
      exact .head ⟨x, rfl, hx⟩ (ih hw)

/-! ## Patterns that do not look at what follows -/

/-- No end of the text is asked for and nothing ahead is refused. -/
def looksNowhere : Pattern → Bool
  | .atEnd | .notAhead _ => false
  | .seq p q | .either p q => looksNowhere p && looksNowhere q
  | .group p | .repeated _ p => looksNowhere p
  | _ => true

/-- The step takes its piece whatever follows. -/
def Regardless (R : Text → Text → Prop) (s r : Text) : Prop := ∃ w, s = w ++ r ∧ ∀ t, R (w ++ t) t

theorem Regardless.trans {R S T : Text → Text → Prop} (hT : ∀ {a b c}, R a b → S b c → T a c) {s m r : Text}
    (h1 : Regardless R s m) (h2 : Regardless S m r) : Regardless T s r := by
  obtain ⟨v, rfl, hv⟩ := h1
  obtain ⟨w, rfl, hw⟩ := h2
  refine ⟨v ++ w, (List.append_assoc v w r).symm, fun t => ?_⟩
  rw [List.append_assoc]
  exact hT (hv (w ++ t)) (hw t)

theorem Regardless.mono {R S : Text → Text → Prop} (hS : ∀ {a b}, R a b → S a b) {s r : Text} (h : Regardless R s r) :
    Regardless S s r := by
  obtain ⟨w, hw, h⟩ := h
  exact ⟨w, hw, fun t => hS (h t)⟩

theorem Regardless.star {R : Text → Text → Prop} (hR : ∀ s r, R s r → Regardless R s r) {s r : Text}
    (h : ReflTransGen R s r) : Regardless (ReflTransGen R) s r := by
  induction h with
  | refl => exact ⟨[], rfl, fun _ => .refl⟩
  | tail _ h ih => exact ih.trans (fun h1 h2 => h1.tail h2) (hR _ _ h)

theorem Leaves.regardless {p : Pattern} (hp : looksNowhere p = true) {s r : Text} (h : Leaves same p s r) :
    Regardless (Leaves same p) s r := by
  induction p generalizing s r with
  | empty => exact ⟨[], h.symm, fun _ => rfl⟩
  | char c => obtain ⟨x, rfl, hx⟩ := h; exact ⟨[x], rfl, fun _ => ⟨x, rfl, hx⟩⟩
  | noneOf cs => obtain ⟨x, rfl, hx⟩ := h; exact ⟨[x], rfl, fun _ => ⟨x, rfl, hx⟩⟩
  | anyInLine => obtain ⟨x, rfl, hx⟩ := h; exact ⟨[x], rfl, fun _ => ⟨x, rfl, hx⟩⟩
  | atEnd => cases hp
  | seq p q ihp ihq =>
    obtain ⟨hp, hq⟩ := Bool.and_eq_true_iff.mp hp
    obtain ⟨m, h1, h2⟩ := h
    exact (ihp hp h1).trans (fun a b => ⟨_, a, b⟩) (ihq hq h2)
  | either p q ihp ihq =>
    obtain ⟨hp, hq⟩ := Bool.and_eq_true_iff.mp hp
    rcases h with h | h
    · exact (ihp hp h).mono Or.inl
    · exact (ihq hq h).mono Or.inr
  | group p ih => exact ih hp h
  | repeated n p ih =>
    have hR : ∀ s r, Leaves same p s r → Regardless (Leaves same p) s r := fun _ _ h => ih hp h
    cases n with
    | optional =>
      rcases h with h | h
      · exact (ih hp h).mono Or.inl
      · exact ⟨[], h.symm, fun _ => Or.inr rfl⟩
    | many => exact Regardless.star hR h
    | manyLazy => exact Regardless.star hR h
    | someLazy =>
      obtain ⟨m, h1, h2⟩ := h
      exact (ih hp h1).trans (fun a b => ⟨_, a, b⟩) (Regardless.star hR h2)
  | notAhead p => cases hp

/-! ## Characters a pattern does not take -/

/-- No part of the pattern takes the character. -/
def avoids (c : CodePoint) : Pattern → Bool
  | .char x => x != c
  | .noneOf cs => cs.contains c
  | .anyInLine => false
  | .seq p q | .either p q => avoids c p && avoids c q
  | .group p | .repeated _ p => avoids c p
  | .empty | .atEnd | .notAhead _ => true

theorem star_avoids {R : Text → Text → Prop} {c : CodePoint} (hR : ∀ s r, R s r → ∃ w, s = w ++ r ∧ c ∉ w)
    {s r : Text} (h : ReflTransGen R s r) : ∃ w, s = w ++ r ∧ c ∉ w := by
  induction h with
  | refl => exact ⟨[], rfl, by simp⟩
  | tail _ h ih =>
    obtain ⟨v, rfl, hv⟩ := ih
    obtain ⟨w, rfl, hw⟩ := hR _ _ h
    exact ⟨v ++ w, (List.append_assoc v w _).symm, by simp [hv, hw]⟩

/-- The character `c` counts as the same as itself only. -/
def Alone (same : CodePoint → CodePoint → Bool) (c : CodePoint) : Prop :=
  ∀ x, (same c x = true ↔ x = c) ∧ (same x c = true ↔ x = c)

theorem Leaves.avoids {c : CodePoint} (hc : Alone same c) {p : Pattern} (hp : avoids c p = true) {s r : Text}
    (h : Leaves same p s r) : ∃ w, s = w ++ r ∧ c ∉ w := by
  induction p generalizing s r with
  | empty => exact ⟨[], h.symm, by simp⟩
  | char x =>
    obtain ⟨y, rfl, hy⟩ := h
    refine ⟨[y], rfl, fun hm => bne_iff_ne.mp hp ?_⟩
    exact (hc x).2.mp (List.mem_singleton.mp hm ▸ hy)
  | noneOf cs =>
    obtain ⟨y, rfl, hy⟩ := h
    refine ⟨[y], rfl, fun hm => ?_⟩
    have := hy c (List.contains_iff_mem.mp hp)
    rw [(hc y).1.mpr (List.mem_singleton.mp hm).symm] at this
    cases this
  | anyInLine => cases hp
  | atEnd => exact ⟨[], h.1.symm, by simp⟩
  | seq p q ihp ihq =>
    obtain ⟨hp, hq⟩ := Bool.and_eq_true_iff.mp hp
    obtain ⟨m, h1, h2⟩ := h
    obtain ⟨v, rfl, hv⟩ := ihp hp h1
    obtain ⟨w, rfl, hw⟩ := ihq hq h2
    exact ⟨v ++ w, (List.append_assoc v w r).symm, by simp [hv, hw]⟩
  | either p q ihp ihq =>
    obtain ⟨hp, hq⟩ := Bool.and_eq_true_iff.mp hp
    rcases h with h | h
    · exact ihp hp h
    · exact ihq hq h
  | group p ih => exact ih hp h
  | repeated n p ih =>
    have hR : ∀ s r, Leaves same p s r → ∃ w, s = w ++ r ∧ c ∉ w := fun _ _ h => ih hp h
    cases n with
    | optional =>
      rcases h with h | h
      · exact ih hp h
      · exact ⟨[], h.symm, by simp⟩
    | many => exact star_avoids hR h
    | manyLazy => exact star_avoids hR h
    | someLazy =>
      obtain ⟨m, h1, h2⟩ := h
      obtain ⟨v, rfl, hv⟩ := ih hp h1
      obtain ⟨w, rfl, hw⟩ := star_avoids hR h2
      exact ⟨v ++ w, (List.append_assoc v w r).symm, by simp [hv, hw]⟩
  | notAhead p => exact ⟨[], h.1.symm, by simp⟩

end TsProject.Pattern
