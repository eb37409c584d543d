/-
  TsProject.Proofs.Glob.Component — what the pattern of one component takes.

  A component stands behind a slash and takes a whole segment: its pattern takes no
  slash, so it can only stop where the segment does. Refusing the package folders is a
  condition on the segment alone, though the pattern looks at the slash behind it.

  - `delimits_sameOn`: slashes and dots are only themselves on any file system.
  - `leaves_notPackageFolder`: the refusal is about the segment that starts here.
  - `Takes.directories`: what a component takes among the files it also takes on the way
    to them, whatever follows the segment.
-/

import TsProject.Glob
import TsProject.Proofs.Normal
import TsProject.Proofs.Pattern

namespace TsProject.Glob

open CodePoint Pattern TsProject.Path Relation

/-- What an entry of a directory may be called where patterns are to tell entries apart. -/
structure IsEntryName (n : Text) : Prop where
  name : IsName n
  noLineFeed : lineFeed ∉ n

instance (n : Text) : Decidable (IsEntryName n) :=
  decidable_of_iff (IsName n ∧ lineFeed ∉ n) ⟨fun h => ⟨h.1, h.2⟩, fun h => ⟨h.1, h.2⟩⟩

theorem lineFeed_not_mem_below {ns : List Text} (h : ∀ n ∈ ns, IsEntryName n) : lineFeed ∉ below ns := by
  intro hm
  obtain ⟨n, hn, hm⟩ := List.mem_flatMap.mp hm
  rcases List.mem_cons.mp hm with hm | hm
  · cases hm
  · exact (h n hn).noLineFeed hm

/-- The characters that divide paths and names count as the same as themselves only. -/
structure Delimits (same : CodePoint → CodePoint → Bool) : Prop where
  slash : Alone same slash
  dot : Alone same dot

theorem caseVariants_cased : ∀ group ∈ Text.caseVariants, ∀ c ∈ group, Text.isCaseless c = false := by decide

/-- A character without case is only itself, whether or not case is ignored. -/
theorem alone_of_isCaseless {c : CodePoint} (hc : Text.isCaseless c = true) (caseSensitive : Bool) :
    Alone (sameOn caseSensitive) c := by
  cases caseSensitive with
  | true =>
    intro x
    simp only [sameOn, if_true, beq_iff_eq]
    exact ⟨eq_comm, trivial⟩
  | false =>
    have hlower : Text.lowerPoint c = c := (Text.lowerPoint_eq_caseless_iff hc c).mpr rfl
    have hvariant : ∀ x y, (Text.caseVariants.any fun group => group.contains x && group.contains y) = true →
        c ≠ x ∧ c ≠ y := by
      intro x y h
      obtain ⟨group, hgroup, hboth⟩ := List.any_eq_true.mp h
      obtain ⟨hx, hy⟩ := Bool.and_eq_true_iff.mp hboth
      have hcased : ∀ z ∈ group, c ≠ z := by
        rintro z hz rfl
        rw [caseVariants_cased group hgroup c hz] at hc
        cases hc
      exact ⟨hcased x (List.contains_iff_mem.mp hx), hcased y (List.contains_iff_mem.mp hy)⟩
    intro x
    have hx := Text.lowerPoint_eq_caseless_iff hc x
    simp only [sameOn, Bool.false_eq_true, if_false, Text.sameLetter, hlower, Bool.or_eq_true, beq_iff_eq]
    constructor
    · rw [or_iff_left fun h => (hvariant _ _ h).1 rfl, eq_comm, hx]
    · rw [or_iff_left fun h => (hvariant _ _ h).2 rfl, hx]

theorem delimits_sameOn (caseSensitive : Bool) : Delimits (sameOn caseSensitive) :=
  ⟨alone_of_isCaseless rfl caseSensitive, alone_of_isCaseless rfl caseSensitive⟩

theorem delimits_exact : Delimits (sameOn true) := delimits_sameOn true

theorem sameOn_self (caseSensitive : Bool) (c : CodePoint) : sameOn caseSensitive c c = true := by
  cases caseSensitive with
  | true => exact beq_self_eq_true c
  | false => simp [sameOn, Text.sameLetter]

variable {same : CodePoint → CodePoint → Bool}

theorem not_mem_of_spells {c : CodePoint} (hc : Alone same c) {word s : Text} (h : Spells same word s) (hw : c ∉ word) :
    c ∉ s := by
  induction h with
  | nil => simp
  | cons hab _ ih =>
    simp only [List.mem_cons, not_or] at hw ⊢
    exact ⟨fun e => hw.1 ((hc _).2.mp (e ▸ hab)).symm, ih hw.2⟩

/-! ## Package folders -/

/-- The segment is a package folder, up to letters that count as the same. -/
def IsPackageFolder (same : CodePoint → CodePoint → Bool) (seg : Text) : Prop := ∃ f ∈ packageFolders, Spells same f seg

theorem packageFolders_noSlash : ∀ f ∈ packageFolders, slash ∉ f := by decide

theorem leaves_packageFolder (hd : Delimits same) {seg t : Text} (ht : AtBoundary t) (h : IsPackageFolder same seg) :
    ∃ m, Leaves same (.seq (.group (oneOf (packageFolders.map literal))) (.group (.either (.char slash) .atEnd))) (seg ++ t) m := by
  obtain ⟨f, hf, hsp⟩ := h
  have hne : packageFolders.map literal ≠ [] := by simp [packageFolders]
  have hname : Leaves same (.group (oneOf (packageFolders.map literal))) (seg ++ t) t :=
    (leaves_oneOf hne _ _).mpr ⟨literal f, List.mem_map_of_mem hf, (leaves_literal _ _ _).mpr ⟨seg, rfl, hsp⟩⟩
  cases t with
  | nil => exact ⟨[], [], hname, Or.inr ⟨rfl, Or.inl rfl⟩⟩
  | cons x t =>
    have hx : x = slash := ht x rfl
    exact ⟨t, x :: t, hname, Or.inl ⟨x, rfl, (hd.slash x).1.mpr hx⟩⟩

/-- No package folder starts where they are refused. -/
theorem not_isPackageFolder_of_leaves (hd : Delimits same) {seg t r : Text} (ht : AtBoundary t)
    (h : Leaves same notPackageFolder (seg ++ t) r) : r = seg ++ t ∧ ¬ IsPackageFolder same seg := by
  refine ⟨h.1, fun hfolder => ?_⟩
  obtain ⟨m, hm⟩ := leaves_packageFolder hd ht hfolder
  exact h.2 m hm

theorem leaves_notPackageFolder (hd : Delimits same) {seg t : Text} (hs : slash ∉ seg) (ht : AtBoundary t)
    (hlf : lineFeed ∉ seg ++ t) (r : Text) :
    Leaves same notPackageFolder (seg ++ t) r ↔ r = seg ++ t ∧ ¬ IsPackageFolder same seg := by
  refine ⟨not_isPackageFolder_of_leaves hd ht, fun ⟨hr, hfolder⟩ => ⟨hr, fun m hm => hfolder ?_⟩⟩
  have hne : packageFolders.map literal ≠ [] := by simp [packageFolders]
  simp only [Leaves, leaves_oneOf hne, List.mem_map, exists_exists_and_eq_and, leaves_literal] at hm
  obtain ⟨r', ⟨f, hf, w, hw, hsp⟩, hend⟩ := hm
  have hr' : AtBoundary r' := by
    rcases hend with ⟨x, rfl, hx⟩ | ⟨-, rfl | rfl⟩
    · exact ((hd.slash x).1.mp hx) ▸ atBoundary_slash _
    · exact atBoundary_nil
    · exact absurd (by rw [hw]; simp) hlf
  have hws := not_mem_of_spells hd.slash hsp (packageFolders_noSlash f hf)
  obtain ⟨rfl, -⟩ := segment_inj hs hws ht hr' hw
  exact ⟨f, hf, hsp⟩

/-! ## A component takes a segment -/

/-- The pattern of a component takes a segment that other segments follow. -/
def Takes (same : CodePoint → CodePoint → Bool) (u : Usage) (component seg : Text) (after : List Text) : Prop :=
  Leaves same (componentPattern u component) (seg ++ below after) (below after)

theorem avoids_run (u : Usage) : avoids slash (run u) = true := by cases u <;> decide

theorem avoids_spelled (u : Usage) {c : Text} (hc : slash ∉ c) : avoids slash (spelled u c) = true := by
  induction c with
  | nil => rfl
  | cons x c ih =>
    simp only [List.mem_cons, not_or] at hc
    have hx : avoids slash (piece u x) = true := by
      unfold piece
      split
      · exact avoids_run u
      · split
        · decide
        · simpa [avoids] using Ne.symm hc.1
    exact Bool.and_eq_true_iff.mpr ⟨hx, ih hc.2⟩

theorem avoids_visible (u : Usage) {c : Text} (hc : slash ∉ c) : avoids slash (visible u c) = true := by
  unfold visible
  split
  · have hrun : avoids slash (.repeated .optional (.group (.seq (.noneOf [dot, slash]) (run u)))) = true := by
      simp only [avoids, avoids_run u]
      decide
    exact Bool.and_eq_true_iff.mpr ⟨hrun, avoids_spelled u fun h => hc (List.mem_cons_of_mem _ h)⟩
  · exact Bool.and_eq_true_iff.mpr ⟨by decide, avoids_spelled u fun h => hc (List.mem_cons_of_mem _ h)⟩
  · exact avoids_spelled u hc

theorem avoids_componentPattern (u : Usage) {c : Text} (hc : slash ∉ c) : avoids slash (componentPattern u c) = true := by
  have hv := avoids_visible u hc
  cases u <;> simp only [componentPattern]
  · split
    · exact hv
    · exact hv
  · split
    · exact hv
    · exact hv
  · exact avoids_spelled _ hc

/-- A component pattern that stops at a boundary has taken the whole segment. -/
theorem eq_below_of_leaves (hd : Delimits same) {u : Usage} {c seg r : Text} {after : List Text} (hc : slash ∉ c)
    (hs : slash ∉ seg) (hr : AtBoundary r) (h : Leaves same (componentPattern u c) (seg ++ below after) r) :
    r = below after := by
  obtain ⟨w, hw, hws⟩ := h.avoids hd.slash (avoids_componentPattern u hc)
  exact (segment_inj hs hws (atBoundary_below after) hr hw).2.symm

/-! ## Directories take what files take -/

theorem leaves_run_directories (hd : Delimits same) {u : Usage} {s r : Text} (h : Leaves same (run u) s r) :
    Leaves same (run .directories) s r := by
  obtain ⟨w, rfl, hw⟩ := h.avoids hd.slash (avoids_run u)
  refine (leaves_many_noneOf _ _ _).mpr ⟨w, rfl, fun x hx c hc => ?_⟩
  rw [List.mem_singleton.mp hc, ← Bool.not_eq_true, (hd.slash x).1]
  exact fun e => hw (e ▸ hx)

theorem leaves_spelled_directories (hd : Delimits same) {u : Usage} {c s r : Text} (h : Leaves same (spelled u c) s r) :
    Leaves same (spelled .directories c) s r := by
  induction c generalizing s with
  | nil => exact h
  | cons x c ih =>
    obtain ⟨m, h1, h2⟩ := h
    refine ⟨m, ?_, ih h2⟩
    unfold piece at h1 ⊢
    by_cases hx : x = asterisk
    · rw [if_pos hx] at h1 ⊢
      exact leaves_run_directories hd h1
    · rw [if_neg hx] at h1 ⊢
      exact h1

theorem leaves_visible_directories (hd : Delimits same) {c s r : Text} (h : Leaves same (visible .files c) s r) :
    Leaves same (visible .directories c) s r := by
  unfold visible at h ⊢
  split at h
  · obtain ⟨m, h1, h2⟩ := h
    refine ⟨m, ?_, leaves_spelled_directories hd h2⟩
    rcases h1 with ⟨m', h1, h1'⟩ | h1
    · exact Or.inl ⟨m', h1, leaves_run_directories hd h1'⟩
    · exact Or.inr h1
  · obtain ⟨m, h1, h2⟩ := h
    exact ⟨m, h1, leaves_spelled_directories hd h2⟩
  · exact leaves_spelled_directories hd h

theorem looksNowhere_spelled {u : Usage} (hu : u ≠ .files) (c : Text) : looksNowhere (spelled u c) = true := by
  induction c with
  | nil => rfl
  | cons x c ih =>
    refine Bool.and_eq_true_iff.mpr ⟨?_, ih⟩
    unfold piece
    split
    · cases u
      · exact absurd rfl hu
      · rfl
      · rfl
    · split <;> rfl

theorem looksNowhere_visible (c : Text) : looksNowhere (visible .directories c) = true := by
  unfold visible
  split
  · exact Bool.and_eq_true_iff.mpr ⟨by decide, looksNowhere_spelled (by decide) _⟩
  · exact Bool.and_eq_true_iff.mpr ⟨by decide, looksNowhere_spelled (by decide) _⟩
  · exact looksNowhere_spelled (by decide) _

/-- What a component takes among the files it also takes on the way to them, whatever follows. -/
theorem Takes.directories (hd : Delimits same) {c seg : Text} {after other : List Text} (hs : slash ∉ seg)
    (hlf : lineFeed ∉ seg) (ha : ∀ n ∈ after, IsEntryName n) (ho : ∀ n ∈ other, IsEntryName n)
    (h : Takes same .files c seg after) : Takes same .directories c seg other := by
  have hvis : ∀ {r}, Leaves same (visible .files c) (seg ++ below after) r → r = below after →
      Leaves same (visible .directories c) (seg ++ below other) (below other) := by
    rintro r hv rfl
    obtain ⟨w, hw, ht⟩ := (leaves_visible_directories hd hv).regardless (looksNowhere_visible c)
    rw [List.append_cancel_right hw]
    exact ht _
  have hlf : ∀ {ns : List Text}, (∀ n ∈ ns, IsEntryName n) → lineFeed ∉ seg ++ below ns := fun h hm =>
    (List.mem_append.mp hm).elim hlf (lineFeed_not_mem_below h)
  simp only [Takes, componentPattern] at h ⊢
  split at h
  · rw [if_pos ‹_›]
    exact hvis h rfl
  · rw [if_neg ‹_›]
    obtain ⟨m, h1, h2⟩ := h
    obtain ⟨rfl, hp⟩ := (leaves_notPackageFolder hd hs (atBoundary_below _) (hlf ha) m).mp h1
    exact ⟨_, (leaves_notPackageFolder hd hs (atBoundary_below _) (hlf ho) _).mpr ⟨rfl, hp⟩, hvis h2 rfl⟩

end TsProject.Glob
