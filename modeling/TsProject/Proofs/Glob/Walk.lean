/-
  TsProject.Proofs.Glob.Walk — what a walk has listed when it ends.

  On a file system without links that tells cases apart, a walk is a search of the
  graph of the directories it may enter. Its measure is the number of directories still
  to list: each nested visit lists one, so the bound on nesting is never met early.

  - `visit_spec`: a visit lists its directory and is closed: whatever it newly lists, it
    also lists the directories to be entered below it.
  - `foldl_visits`: so does a sequence of visits.
  - `Walk.mem_files` / `Walk.nodup_files` / `Walk.pairwise_files`: the files of a walk,
    group by group.
-/

import TsProject.Glob.Walk
import TsProject.Proofs.Path
import Mathlib.Data.List.Nodup

namespace TsProject.Glob

open CodePoint TsProject.Path

variable {t : Tree} {f : Filter} {reached : Text → Prop}

/-! ## Visits -/

/-- The directories directly under a path that the walk goes into. -/
def entered (t : Tree) (f : Filter) (d : Text) : List Text := ((t.entries d).2.map (entry d)).filter f.enters

/-- The files of a directory that the walk selects. -/
def selected (t : Tree) (f : Filter) (d : Text) : List (Nat × Text) := selectFiles f d d (t.entries d).1

/-- Every directory is listed once, and its files are found when it is. -/
structure Consistent (t : Tree) (f : Filter) (w : Walk) : Prop where
  visited : w.visited = w.listed.reverse
  nodup : w.listed.Nodup
  found : w.found = w.listed.flatMap (selected t f)

/-- From one state of a walk to a later one: new directories are `reached`, and so are those below them. -/
structure Advance (t : Tree) (f : Filter) (reached : Text → Prop) (w w' : Walk) : Prop where
  keeps : w.listed ⊆ w'.listed
  fresh : ∀ d ∈ w'.listed, d ∈ w.listed ∨ reached d
  closed : ∀ d ∈ w'.listed, d ∈ w.listed ∨ entered t f d ⊆ w'.listed

theorem Advance.refl (w : Walk) : Advance t f reached w w :=
  ⟨List.Subset.refl _, fun _ => Or.inl, fun _ => Or.inl⟩

theorem Advance.trans {w₁ w₂ w₃ : Walk} (h : Advance t f reached w₁ w₂) (h' : Advance t f reached w₂ w₃) :
    Advance t f reached w₁ w₃ where
  keeps := List.Subset.trans h.keeps h'.keeps
  fresh d hd := (h'.fresh d hd).elim (h.fresh d) Or.inr
  closed d hd := by
    rcases h'.closed d hd with hd | hd
    · exact (h.closed d hd).imp_right fun hs => List.Subset.trans hs h'.keeps
    · exact Or.inr hd

/-- The state after listing one more directory. -/
def Walk.list (t : Tree) (f : Filter) (w : Walk) (d : Text) : Walk where
  visited := d :: w.visited
  listed := w.listed ++ [d]
  found := w.found ++ selected t f d

theorem Consistent.list {w : Walk} (h : Consistent t f w) {d : Text} (hd : d ∉ w.listed) :
    Consistent t f (w.list t f d) where
  visited := by simp [Walk.list, h.visited]
  nodup := by
    simp only [Walk.list, List.nodup_append, h.nodup, List.nodup_singleton, true_and, List.mem_singleton]
    rintro a ha b rfl rfl
    exact hd ha
  found := by simp [Walk.list, h.found]

section Visit

variable (hcase : f.caseSensitive = true) (hreal : ∀ p, t.realpath p = p)

include hcase hreal

theorem visit_of_mem {w : Walk} (hw : Consistent t f w) {d : Text} (hd : d ∈ w.listed) (level : Nat) :
    visit t f level d d none w = w := by
  cases level with
  | zero => rfl
  | succ level => simp [visit, canonical, hcase, hreal, hw.visited, hd]

theorem visit_of_not_mem {w : Walk} (hw : Consistent t f w) {d : Text} (hd : d ∉ w.listed) (level : Nat) :
    visit t f (level + 1) d d none w =
      (entered t f d).foldl (fun w inner => visit t f level inner inner none w) (w.list t f d) := by
  simp only [entered, List.foldl_filter, List.foldl_map]
  simp [visit, canonical, hcase, hreal, hw.visited, hd, Walk.list, selected]

end Visit

/-! ## The measure -/

/-- How many of some names are not among those seen. -/
def unseen (names seen : List Text) : Nat := (names.filter (· ∉ seen)).length

theorem unseen_le_of_subset (names : List Text) {seen seen' : List Text} (h : seen ⊆ seen') :
    unseen names seen' ≤ unseen names seen := by
  refine (List.monotone_filter_right names fun n hn => ?_).length_le
  simp only [decide_eq_true_eq] at hn ⊢
  exact fun hm => hn (h hm)

theorem unseen_lt {names seen seen' : List Text} (h : seen ⊆ seen') {n : Text} (hn : n ∈ names) (hnew : n ∈ seen')
    (hseen : n ∉ seen) : unseen names seen' < unseen names seen := by
  have hsplit : names.filter (· ∉ seen') = (names.filter (· ∉ seen)).filter (· ∉ seen') := by
    rw [List.filter_filter]
    refine List.filter_congr fun x _ => ?_
    have himp : x ∉ seen' → x ∉ seen := mt (@h x)
    simpa using himp
  rw [unseen, hsplit]
  exact List.length_filter_lt_length_iff_exists.mpr ⟨n, List.mem_filter.mpr ⟨hn, by simpa using hseen⟩, by simpa using hnew⟩

/-- How many of the directories are still to list. -/
def remaining (dirs : List Text) (w : Walk) : Nat := unseen dirs w.listed

theorem remaining_le_of_subset (dirs : List Text) {w w' : Walk} (h : w.listed ⊆ w'.listed) :
    remaining dirs w' ≤ remaining dirs w := unseen_le_of_subset dirs h

theorem remaining_list_lt {dirs : List Text} {w : Walk} {d : Text} (hd : d ∈ dirs) (hw : d ∉ w.listed) :
    remaining dirs (w.list t f d) < remaining dirs w := by
  have hsub : w.listed ⊆ (w.list t f d).listed := List.subset_append_left _ _
  have hnew : d ∈ (w.list t f d).listed := List.mem_append_right _ List.mem_cons_self
  exact unseen_lt hsub hd hnew hw

/-! ## Sequences of visits -/

/-- If one visit of any of the directories is sound and closed while few remain, so is a sequence of visits. -/
theorem foldl_visits {dirs l : List Text} {bound : Nat} {go : Walk → Text → Walk}
    (hgo : ∀ d ∈ l, ∀ w, Consistent t f w → remaining dirs w ≤ bound →
      Consistent t f (go w d) ∧ Advance t f reached w (go w d) ∧ d ∈ (go w d).listed)
    {w : Walk} (hw : Consistent t f w) (hbound : remaining dirs w ≤ bound) :
    Consistent t f (l.foldl go w) ∧ Advance t f reached w (l.foldl go w) ∧ l ⊆ (l.foldl go w).listed := by
  induction l generalizing w with
  | nil => exact ⟨hw, .refl w, List.nil_subset _⟩
  | cons d l ih =>
    obtain ⟨hw₁, ha₁, hd⟩ := hgo d List.mem_cons_self w hw hbound
    obtain ⟨hw₂, ha₂, hl⟩ := ih (fun d hd => hgo d (List.mem_cons_of_mem _ hd)) hw₁
      ((remaining_le_of_subset dirs ha₁.keeps).trans hbound)
    exact ⟨hw₂, ha₁.trans ha₂, List.cons_subset.mpr ⟨ha₂.keeps hd, hl⟩⟩

/-- A visit lists its directory and all to be entered below what it newly lists. Every directory it may
enter is one of `dirs`; the one it starts from need not be. -/
theorem visit_spec (hcase : f.caseSensitive = true) (hreal : ∀ p, t.realpath p = p) {dirs : List Text}
    (hdirs : ∀ d, reached d → entered t f d ⊆ dirs) (hreached : ∀ d, reached d → ∀ inner ∈ entered t f d, reached inner)
    (level : Nat) {d : Text} (hd : reached d) {w : Walk} (hw : Consistent t f w)
    (hlevel : remaining dirs w + (if d ∈ dirs then 0 else 1) ≤ level) :
    Consistent t f (visit t f level d d none w) ∧ Advance t f reached w (visit t f level d d none w) ∧
      d ∈ (visit t f level d d none w).listed := by
  induction level generalizing d w with
  | zero =>
    -- nothing remains, so the directory is listed already
    have hd' : d ∈ dirs := by
      by_contra hd'
      rw [if_neg hd'] at hlevel
      omega
    have hm : d ∈ w.listed := by
      by_contra hm
      have := remaining_list_lt (t := t) (f := f) hd' hm
      omega
    exact ⟨hw, .refl w, hm⟩
  | succ level ih =>
    by_cases hm : d ∈ w.listed
    · rw [visit_of_mem hcase hreal hw hm]
      exact ⟨hw, .refl w, hm⟩
    · rw [visit_of_not_mem hcase hreal hw hm]
      have hbound : remaining dirs (w.list t f d) ≤ level := by
        by_cases hd' : d ∈ dirs
        · have := remaining_list_lt (t := t) (f := f) hd' hm
          rw [if_pos hd'] at hlevel
          omega
        · have hsub : w.listed ⊆ (w.list t f d).listed := List.subset_append_left _ _
          have := remaining_le_of_subset dirs hsub
          rw [if_neg hd'] at hlevel
          omega
      have hvisit : ∀ inner ∈ entered t f d, ∀ w, Consistent t f w → remaining dirs w ≤ level →
          Consistent t f (visit t f level inner inner none w) ∧
            Advance t f reached w (visit t f level inner inner none w) ∧
            inner ∈ (visit t f level inner inner none w).listed := by
        intro inner hi w hw hb
        refine ih (hreached d hd inner hi) hw ?_
        rw [if_pos (hdirs d hd hi)]
        exact hb
      obtain ⟨hw', ha, hl⟩ := foldl_visits hvisit (hw.list hm) hbound
      have hlisted : ∀ x, x ∈ (w.list t f d).listed ↔ x ∈ w.listed ∨ x = d := by simp [Walk.list]
      refine ⟨hw', ⟨fun x hx => ha.keeps ((hlisted x).mpr (Or.inl hx)), fun x hx => ?_, fun x hx => ?_⟩,
        ha.keeps ((hlisted d).mpr (Or.inr rfl))⟩
      · rcases ha.fresh x hx with h | h
        · rcases (hlisted x).mp h with h | rfl
          · exact Or.inl h
          · exact Or.inr hd
        · exact Or.inr h
      · rcases ha.closed x hx with h | h
        · rcases (hlisted x).mp h with h | rfl
          · exact Or.inl h
          · exact Or.inr hl
        · exact Or.inr h

/-! ## Files -/

/-- A file that has a group has one of the extensions, and nothing excludes it. -/
theorem accepted_of_groupOf {f : Filter} {name file : Text} {g : Nat} (h : f.groupOf name file = some g) :
    f.hasExtension name = true ∧ f.isExcluded file = false := by
  unfold Filter.groupOf at h
  split at h
  · cases h
  · rename_i hcond
    rwa [Bool.or_eq_true, not_or, Bool.not_eq_true', Bool.not_eq_false, Bool.not_eq_true] at hcond

theorem groupOf_lt {f : Filter} {name file : Text} {g : Nat} (h : f.groupOf name file = some g) : g < f.groups := by
  unfold Filter.groupOf at h
  unfold Filter.groups
  split at h
  · cases h
  · cases hfiles : f.files with
    | none =>
      rw [hfiles] at h
      obtain rfl := Option.some.inj h
      simp
    | some patterns =>
      rw [hfiles] at h
      have hlt := (List.findIdx?_eq_some_iff_getElem.mp h).1
      simp only [Option.map_some, Option.getD_some]
      omega

theorem Walk.mem_files {w : Walk} {groups : Nat} {F : Text} : F ∈ w.files groups ↔ ∃ g < groups, (g, F) ∈ w.found := by
  simp [Walk.files]

theorem Walk.nodup_files {w : Walk} (groups : Nat) (h : (w.found.map (·.2)).Nodup) : (w.files groups).Nodup := by
  refine List.nodup_flatMap.mpr ⟨fun g _ => h.sublist (List.filter_sublist.map _), ?_⟩
  refine List.pairwise_lt_range.imp fun {g g'} hlt F hF hF' => ?_
  simp only [List.mem_map, List.mem_filter, decide_eq_true_eq] at hF hF'
  obtain ⟨x, ⟨hx, rfl⟩, rfl⟩ := hF
  obtain ⟨y, ⟨hy, rfl⟩, he⟩ := hF'
  obtain rfl := List.inj_on_of_nodup_map h hy hx he
  exact Nat.lt_irrefl _ hlt

/-- Files come in the order of their groups. -/
theorem Walk.pairwise_files {w : Walk} (groups : Nat) {r : Text → Text → Prop}
    (h : ∀ g F g' G, (g, F) ∈ w.found → (g', G) ∈ w.found → g ≤ g' → r F G) : (w.files groups).Pairwise r := by
  have hmem : ∀ g F, F ∈ (w.found.filter (·.1 = g)).map (·.2) → (g, F) ∈ w.found := by simp
  refine List.pairwise_flatMap.mpr ⟨fun g _ => ?_, List.pairwise_lt_range.imp fun {g g'} hlt F hF G hG => ?_⟩
  · exact List.pairwise_of_forall_mem_list fun F hF G hG => h g F g G (hmem g F hF) (hmem g G hG) (Nat.le_refl g)
  · exact h g F g' G (hmem g F hF) (hmem g' G hG) (Nat.le_of_lt hlt)

end TsProject.Glob
