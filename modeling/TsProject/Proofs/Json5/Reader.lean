/-
  TsProject.Proofs.Json5.Reader — what readers read, and what they leave.

  An outcome also holds the furthest failure, which only messages ask for. `run` is the
  rest of it, and has one equation for each way to build a reader.

  - `run_bind` / `run_firstOf_cons` / `run_many`: the equations.
  - `Opens`: a reader that succeeds only where the text goes on with certain code points.
  - `Shortens`: what a reader leaves is an end of the text it was given.
  - `run_many_anyBut`: a text up to a mark is read whole.
-/

import TsProject.Json5.Grammar

namespace TsProject.Json5

open CodePoint

namespace Reader

/-- What is read from a text and what is left. -/
def run {α : Type} (p : Reader α) (s : Text) : Option (α × Text) := (p s).result

variable {α β : Type} {p : Reader α} {s t : Text}

/-! ## Equations -/

theorem run_bind (p : Reader α) (f : α → Reader β) (s : Text) :
    run (p >>= f) s = (run p s).bind fun r => run (f r.1) r.2 := by
  change (andThen p f s).result = _
  simp only [run, andThen]
  rcases p s with ⟨_ | r, far⟩ <;> rfl

@[simp] theorem run_firstOf_nil (s : Text) : run (firstOf ([] : List (Reader α))) s = none := rfl

theorem run_firstOf_cons (p : Reader α) (ps : List (Reader α)) (s : Text) :
    run (firstOf (p :: ps)) s = (run p s).or (run (firstOf ps) s) := by
  simp only [run, firstOf]
  rcases p s with ⟨_ | r, far⟩ <;> rfl

theorem run_satisfy_cons (q : CodePoint → Bool) (c : CodePoint) (t : Text) :
    run (satisfy q) (c :: t) = if q c = true then some (c, t) else none := by
  simp only [run, satisfy]
  split <;> rfl

theorem run_char_cons (a c : CodePoint) (t : Text) : run (char a) (c :: t) = if c = a then some (c, t) else none := by
  rw [char, run_satisfy_cons]
  simp only [beq_iff_eq]

@[simp] theorem run_literal_nil (s : Text) : run (literal []) s = some ((), s) := rfl

theorem run_literal_cons (a : CodePoint) (as : Text) (c : CodePoint) (t : Text) :
    run (literal (a :: as)) (c :: t) = if c = a then run (literal as) t else none := by
  rw [literal, run_bind, run_char_cons]
  split <;> rfl

theorem run_notAhead (p : Reader α) (s : Text) :
    run (notAhead p) s = if (run p s).isSome = true then none else some ((), s) := by
  unfold run notAhead
  split
  · rename_i h
    rw [h]
    rfl
  · rename_i h
    rw [h]
    rfl

theorem run_many (p : Reader α) (s : Text) :
    run (many p) s = match run p s with
      | none => some ([], s)
      | some (a, t) => if t.length < s.length then (run (many p) t).map fun r => (a :: r.1, r.2) else some ([a], t) := by
  simp only [run]
  rw [many]
  rcases p s with ⟨_ | ⟨a, t⟩, far⟩
  · rfl
  · simp only
    split <;> rfl

/-- `run_bind` where a repetition comes first: its type is that of a reader only when unfolded. -/
theorem run_many_bind (p : Reader α) (f : List α → Reader β) (s : Text) :
    run (many p >>= f) s = (run (many p) s).bind fun r => run (f r.1) r.2 := run_bind (many p) f s

/-! ## What a reader starts with -/

/-- A reader that succeeds only on texts that start with a code point of a class. -/
def Opens (q : CodePoint → Bool) (p : Reader α) : Prop := ∀ s r, run p s = some r → ∃ c t, s = c :: t ∧ q c = true

variable {q : CodePoint → Bool}

theorem Opens.satisfy {q' : CodePoint → Bool} (h : ∀ c, q' c = true → q c = true) : Opens q (satisfy q') := by
  intro s r hr
  cases s with
  | nil => cases hr
  | cons c t =>
    rw [run_satisfy_cons] at hr
    split at hr
    · exact ⟨c, t, rfl, h c ‹_›⟩
    · cases hr

theorem Opens.char {c : CodePoint} (h : q c = true) : Opens q (char c) := .satisfy fun a ha => by rwa [beq_iff_eq.mp ha]

theorem Opens.bind (h : Opens q p) (f : α → Reader β) : Opens q (p >>= f) := by
  intro s r hr
  rw [run_bind] at hr
  obtain ⟨x, hx, -⟩ := Option.bind_eq_some_iff.mp hr
  exact h s x hx

theorem Opens.map (h : Opens q p) (f : α → β) : Opens q (f <$> p) := h.bind fun a => pure (f a)

theorem Opens.literal {w : Text} (h : w.head?.any q = true) : Opens q (literal w) := by
  obtain ⟨c, hc, hq⟩ := (Option.any_eq_true _ _).mp h
  obtain ⟨cs, rfl⟩ := List.head?_eq_some_iff.mp hc
  exact (Opens.char hq).bind _

theorem Opens.nothing : Opens q (firstOf ([] : List (Reader α))) := by
  intro s r hr
  cases hr

theorem Opens.or {ps : List (Reader α)} (h : Opens q p) (hs : Opens q (firstOf ps)) : Opens q (firstOf (p :: ps)) := by
  intro s r hr
  rw [run_firstOf_cons, Option.or_eq_some_iff] at hr
  rcases hr with hr | ⟨-, hr⟩
  · exact h s r hr
  · exact hs s r hr

/-! ## What a reader leaves -/

/-- A reader that leaves an end of the text it is given. -/
def Shortens (p : Reader α) : Prop := ∀ s r, run p s = some r → r.2 <:+ s

theorem Shortens.pure (a : α) : Shortens (pure a) := by
  intro s r hr
  obtain rfl := Option.some.inj hr
  exact List.suffix_refl s

theorem Shortens.satisfy (q : CodePoint → Bool) : Shortens (satisfy q) := by
  intro s r hr
  cases s with
  | nil => cases hr
  | cons c t =>
    rw [run_satisfy_cons] at hr
    split at hr
    · obtain rfl := Option.some.inj hr
      exact List.suffix_cons c t
    · cases hr

theorem Shortens.bind {f : α → Reader β} (hp : Shortens p) (hf : ∀ a, Shortens (f a)) : Shortens (p >>= f) := by
  intro s r hr
  rw [run_bind] at hr
  obtain ⟨x, hx, hr⟩ := Option.bind_eq_some_iff.mp hr
  exact (hf x.1 x.2 r hr).trans (hp s x hx)

theorem Shortens.literal (cs : Text) : Shortens (literal cs) := by
  induction cs with
  | nil => exact .pure ()
  | cons c cs ih => exact (Shortens.satisfy _).bind fun _ => ih

theorem Shortens.nothing : Shortens (firstOf ([] : List (Reader α))) := by
  intro s r hr
  cases hr

theorem Shortens.or {ps : List (Reader α)} (h : Shortens p) (hs : Shortens (firstOf ps)) : Shortens (firstOf (p :: ps)) := by
  intro s r hr
  rw [run_firstOf_cons, Option.or_eq_some_iff] at hr
  rcases hr with hr | ⟨-, hr⟩
  · exact h s r hr
  · exact hs s r hr

theorem Shortens.notAhead (p : Reader α) : Shortens (notAhead p) := by
  intro s r hr
  rw [run_notAhead] at hr
  split at hr
  · cases hr
  · obtain rfl := Option.some.inj hr
    exact List.suffix_refl s

theorem Shortens.many (hp : Shortens p) : Shortens (many p) := by
  intro s
  -- by the length of the text: each step but the last one takes something
  induction s using (measure List.length).wf.induction with
  | _ s ih =>
    intro r hr
    rw [run_many] at hr
    cases hstep : run p s with
    | none =>
      rw [hstep] at hr
      obtain rfl := Option.some.inj hr
      exact List.suffix_refl s
    | some x =>
      obtain ⟨a, t⟩ := x
      have ht : t <:+ s := hp s (a, t) hstep
      rw [hstep] at hr
      simp only at hr
      split at hr
      · obtain ⟨y, hy, rfl⟩ := Option.map_eq_some_iff.mp hr
        exact (ih t ‹_› y hy).trans ht
      · obtain rfl := Option.some.inj hr
        exact ht

/-! ## Text up to a mark -/

theorem run_anyBut (stop : Reader Unit) (c : CodePoint) (t : Text) :
    run (anyBut stop) (c :: t) = if (run stop (c :: t)).isSome = true then none else some (c, t) := by
  rw [anyBut, run_bind, run_notAhead]
  split
  · rfl
  · exact run_satisfy_cons _ c t

/-- What stands before a mark is read whole if the mark is not met in it. -/
theorem run_many_anyBut {stop : Reader Unit} {body rest : Text} (hstop : (run stop rest).isSome = true)
    (hbody : ∀ v, v ≠ [] → v <:+ body → run stop (v ++ rest) = none) :
    run (many (anyBut stop)) (body ++ rest) = some (body, rest) := by
  induction body with
  | nil =>
    have hnone : run (anyBut stop) rest = none := by
      rw [anyBut, run_bind, run_notAhead, if_pos hstop]
      rfl
    rw [List.nil_append, run_many, hnone]
  | cons c body ih =>
    have hstep : run (anyBut stop) (c :: (body ++ rest)) = some (c, body ++ rest) := by
      rw [run_anyBut, ← List.cons_append, hbody (c :: body) (List.cons_ne_nil c body) (List.suffix_refl _)]
      rfl
    have hrest := ih fun v hv hsuffix => hbody v hv (hsuffix.trans (List.suffix_cons c body))
    rw [List.cons_append, run_many, hstep]
    simp only [List.length_cons, Nat.lt_succ_self, if_true, hrest, Option.map_some]

end Reader

end TsProject.Json5
