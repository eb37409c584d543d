/-
  TsProject.Proofs.Config.Collect — computations that collect problems.

  A computation adds the problems it finds behind those found before and never looks at
  them, so what it does is known from its run on no problems, and runs compose.

  - `map_mapM`: what is seen of computations made one after the other is what is seen of each.
  - `Collects`: the run on any problems follows from the run on none.
  - `run_bind_iff` / `run_mapM_iff`: what a successful sequence has done.
-/

import TsProject.Config.Layer
import Mathlib.Data.List.Forall2

namespace TsProject.Config

variable {α β : Type}

theorem exists_left_of_forall₂ {r : α → β → Prop} {l : List α} {l' : List β} (h : List.Forall₂ r l l') :
    ∀ a ∈ l, ∃ b ∈ l', r a b := by
  induction h with
  | nil => simp
  | cons hab _ ih =>
    intro a ha
    rcases List.mem_cons.mp ha with rfl | ha
    · exact ⟨_, List.mem_cons_self, hab⟩
    · exact (ih a ha).imp fun b hb => ⟨List.mem_cons_of_mem _ hb.1, hb.2⟩

theorem exists_forall₂ {r : α → β → Prop} {l : List α} (h : ∀ a ∈ l, ∃ b, r a b) : ∃ l', List.Forall₂ r l l' := by
  induction l with
  | nil => exact ⟨[], .nil⟩
  | cons a l ih =>
    obtain ⟨ha, hl⟩ := List.forall_mem_cons.mp h
    obtain ⟨b, hb⟩ := ha
    obtain ⟨l', hl'⟩ := ih hl
    exact ⟨b :: l', .cons hb hl'⟩

section Lawful

variable {γ : Type} {m : Type → Type} [Monad m] [LawfulMonad m]

theorem map_mapM (g : β → γ) (f : α → m β) (l : List α) : List.map g <$> l.mapM f = l.mapM fun a => g <$> f a := by
  induction l with
  | nil => simp
  | cons a l ih => simp only [List.mapM_cons, ← ih, map_bind, map_pure, bind_map_left, List.map_cons]

theorem mapM_congr {f f' : α → m β} {l : List α} (h : ∀ a ∈ l, f a = f' a) : l.mapM f = l.mapM f' := by
  induction l with
  | nil => rfl
  | cons a l ih =>
    obtain ⟨ha, hl⟩ := List.forall_mem_cons.mp h
    rw [List.mapM_cons, List.mapM_cons, ha, ih hl]

end Lawful

/-- Whatever was found before is kept and changes nothing. -/
def Collects (x : Resolve α) : Prop := ∀ ps, x.run ps = (x.run []).map fun r => (r.1, ps ++ r.2)

theorem Collects.pure (a : α) : Collects (pure a) := by
  intro ps
  change Except.ok (a, ps) = Except.ok (a, ps ++ [])
  rw [List.append_nil]

theorem Collects.report (qs : List Problem) : Collects (report qs) := by
  intro ps
  simp [Config.report, Except.map, Pure.pure, Except.pure]

theorem Collects.lift (e : Except Failure α) : Collects (liftM e : Resolve α) := by
  intro ps
  cases e with
  | error f => rfl
  | ok a => simp [Except.map, Pure.pure, Except.pure, Bind.bind, Except.bind]

theorem run_bind_of_collects {x : Resolve α} {f : α → Resolve β} (hf : ∀ a, Collects (f a)) (ps : List Problem) :
    (x >>= f).run ps = (x.run ps).bind fun r => ((f r.1).run []).map fun r' => (r'.1, r.2 ++ r'.2) := by
  rw [StateT.run_bind]
  cases hx : x.run ps with
  | error e => rfl
  | ok r =>
    change (f r.1).run r.2 = _
    exact hf r.1 r.2

theorem Collects.bind {x : Resolve α} {f : α → Resolve β} (hx : Collects x) (hf : ∀ a, Collects (f a)) :
    Collects (x >>= f) := by
  intro ps
  rw [run_bind_of_collects hf, run_bind_of_collects hf, hx ps]
  cases x.run [] with
  | error e => rfl
  | ok r =>
    cases hr : (f r.1).run [] with
    | error e => simp [Except.map, Except.bind, hr]
    | ok r' => simp [Except.map, Except.bind, hr]

theorem Collects.map {x : Resolve α} (hx : Collects x) (f : α → β) : Collects (f <$> x) := by
  rw [map_eq_pure_bind]
  exact hx.bind fun _ => Collects.pure _

theorem ext_of_collects {x y : Resolve α} (hx : Collects x) (hy : Collects y) (h : x.run [] = y.run []) : x = y :=
  funext fun ps => (hx ps).trans (h ▸ (hy ps).symm)

/-- A sequence succeeds when both parts do, and finds what the two find. -/
theorem run_bind_iff {x : Resolve α} {f : α → Resolve β} (hf : ∀ a, Collects (f a)) {b : β} {rs : List Problem} :
    (x >>= f).run [] = .ok (b, rs) ↔
      ∃ a ps qs, x.run [] = .ok (a, ps) ∧ (f a).run [] = .ok (b, qs) ∧ rs = ps ++ qs := by
  rw [run_bind_of_collects hf]
  constructor
  · intro h
    cases hx : x.run [] with
    | error e => rw [hx] at h; cases h
    | ok r =>
      rw [hx] at h
      cases hr : (f r.1).run [] with
      | error e => simp [Except.bind, Except.map, hr] at h
      | ok r' =>
        simp only [Except.bind, Except.map, hr, Except.ok.injEq, Prod.mk.injEq] at h
        obtain ⟨rfl, rfl⟩ := h
        exact ⟨r.1, r.2, r'.2, rfl, hr, rfl⟩
  · rintro ⟨a, ps, qs, hx, hr, rfl⟩
    simp [hx, hr, Except.bind, Except.map]

theorem Collects.mapM {f : α → Resolve β} (hf : ∀ a, Collects (f a)) (l : List α) : Collects (l.mapM f) := by
  induction l with
  | nil => exact Collects.pure []
  | cons a l ih =>
    rw [List.mapM_cons]
    exact (hf a).bind fun b => ih.bind fun bs => Collects.pure (b :: bs)

/-- The outcomes of a computation made for each element, one after the other. -/
theorem run_mapM_iff {f : α → Resolve β} (hf : ∀ a, Collects (f a)) {l : List α} {bs : List β} {ps : List Problem} :
    (l.mapM f).run [] = .ok (bs, ps) ↔
      ∃ rs : List (β × List Problem), List.Forall₂ (fun a r => (f a).run [] = .ok r) l rs ∧
        bs = rs.map (·.1) ∧ ps = rs.flatMap (·.2) := by
  induction l generalizing bs ps with
  | nil =>
    constructor
    · intro h
      cases h
      exact ⟨[], .nil, rfl, rfl⟩
    · rintro ⟨rs, h, rfl, rfl⟩
      cases h
      rfl
  | cons a l ih =>
    have hrest : ∀ b, Collects (l.mapM f >>= fun bs => Pure.pure (b :: bs)) := fun b =>
      (Collects.mapM hf l).bind fun bs => Collects.pure (b :: bs)
    rw [List.mapM_cons, run_bind_iff hrest]
    constructor
    · rintro ⟨b, qs, qs', hb, h, rfl⟩
      obtain ⟨bs', ps', qs'', hbs, hpure, rfl⟩ := (run_bind_iff fun bs => Collects.pure (b :: bs)).mp h
      cases hpure
      obtain ⟨rs, hrs, rfl, rfl⟩ := ih.mp hbs
      exact ⟨(b, qs) :: rs, .cons hb hrs, rfl, by simp⟩
    · rintro ⟨_, h, rfl, rfl⟩
      cases h with
      | @cons _ r _ rs hb hrs =>
        refine ⟨r.1, r.2, rs.flatMap (·.2), hb, ?_, rfl⟩
        exact (run_bind_iff fun bs => Collects.pure (r.1 :: bs)).mpr
          ⟨rs.map (·.1), rs.flatMap (·.2), [], ih.mpr ⟨rs, hrs, rfl, rfl⟩, rfl, by simp⟩

end TsProject.Config
