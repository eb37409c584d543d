/-
  TsProject.Proofs.Directory — the directories above a path.

  The directory of a path in normal form is again in normal form. It is a start of the
  path, so going up ends: at the root for a path that starts there, and at the empty path
  for any other.

  - `normalize_directory`: a directory is in normal form.
  - `directory_eq_or_shorter`: it is the path itself or shorter.
  - `eq_nil_of_directory_eq`: where going up ends for a relative path.
  - `join_eq_trimEnd`: only the root ends in a slash, so names go behind another one.
-/

import TsProject.Proofs.Normal

namespace TsProject.Path

open CodePoint

/-! ## Parents -/

theorem parent_start (p : Text) : parent p <+: p := by
  have hthrough : Text.throughLast slash p <+: p := by
    rw [Text.throughLast, ← List.reverse_suffix, List.reverse_reverse]
    exact List.dropWhile_suffix _
  rw [parent]
  split
  · exact hthrough
  · exact (Text.trimEnd_prefix _ _).trans hthrough

theorem getLast?_join_ne_slash {ns : List Text} (h : ∀ n ∈ ns, IsName n) :
    ∀ c ∈ (Text.join [slash] ns).getLast?, c ≠ slash := by
  cases ns with
  | nil => simp [Text.join]
  | cons n ns =>
    obtain ⟨hn, hns⟩ := List.forall_mem_cons.mp h
    intro c hc
    rw [join_eq_below] at hc
    by_cases hbelow : below ns = []
    · rw [hbelow, List.append_nil] at hc
      exact fun hslash => hn.2 (hslash ▸ List.mem_of_getLast? hc)
    · rw [List.getLast?_append_of_ne_nil _ hbelow] at hc
      exact getLast?_below_ne_slash hns c hc

theorem parent_join {ns : List Text} (h : ∀ n ∈ ns, IsName n) :
    parent (Text.join [slash] ns) = Text.join [slash] ns.dropLast := by
  rcases List.eq_nil_or_concat ns with rfl | ⟨ms, n, rfl⟩
  · rfl
  · rw [List.concat_eq_append] at h ⊢
    have hn : slash ∉ n := (h n List.mem_concat_self).2
    have hms : ∀ m ∈ ms, IsName m := fun m hm => h m (List.mem_append_left _ hm)
    rw [List.dropLast_concat]
    cases ms with
    | nil =>
      have hnone : Text.throughLast slash n = [] := by
        have hall : ∀ c ∈ n.reverse, (c != slash) = true := fun c hc =>
          bne_iff_ne.mpr fun hslash => hn (hslash ▸ List.mem_reverse.mp hc)
        have hdrop : (n.reverse ++ []).dropWhile (· != slash) = [] := List.dropWhile_append_of_pos hall
        rw [List.append_nil] at hdrop
        rw [Text.throughLast, hdrop]
        rfl
      change parent n = []
      rw [parent, hnone]
      rfl
    | cons m ms =>
      have hthrough : Text.throughLast slash (Text.join [slash] (m :: ms ++ [n])) = Text.join [slash] (m :: ms) ++ [slash] := by
        rw [Text.join_concat _ _ (List.cons_ne_nil m ms), List.append_assoc, List.singleton_append,
          Text.throughLast_append _ _ hn]
      obtain ⟨c, hc⟩ := List.exists_mem_of_ne_nil m (hms m List.mem_cons_self).1
      have hcs : c ≠ slash := fun hslash => (hms m List.mem_cons_self).2 (hslash ▸ hc)
      have hall : ¬ (Text.join [slash] (m :: ms) ++ [slash]).all (· == slash) = true := by
        rw [List.all_eq_true, join_eq_below]
        intro hall
        exact hcs (beq_iff_eq.mp (hall c (by simp [hc])))
      rw [parent, hthrough, if_neg hall]
      refine Text.trimEnd_append_of_not _ _ _ (fun c hc => ?_) (by simp)
      simpa using getLast?_join_ne_slash hms c hc

/-! ## Directories -/

theorem directory_unrooted {p : Text} (hp : startsAtRoot (forwardSlashes p) = false) :
    directory p = Text.join [slash] (fold false (segments (forwardSlashes p))).dropLast := by
  by_cases hnil : p = []
  · rw [hnil]
    rfl
  · rw [directory, normalize_unrooted hnil hp]
    split
    · rename_i hnone
      rw [hnone]
      rfl
    · exact parent_join fun n hn => (mem_fold_segments (b := false) (p := p) hn).1

/-- Without its last name a relative path climbs as before. -/
theorem fold_dropLast (l : List Text) : fold false (fold false l).dropLast = (fold false l).dropLast := by
  obtain ⟨k, names, hfold, hnames, -⟩ := fold_false l
  rw [hfold]
  rcases List.eq_nil_or_concat names with rfl | ⟨ns, n, rfl⟩
  · have hdots : fold false (List.replicate (k - 1) dotDotSegment ++ []) = List.replicate (k - 1) dotDotSegment ++ [] :=
      fold_climb (k - 1) (by simp)
    rw [List.append_nil] at hdots
    rw [List.append_nil, List.dropLast_replicate, hdots]
  · rw [List.concat_eq_append] at hnames ⊢
    rw [← List.append_assoc, List.dropLast_concat]
    exact fold_climb k fun h => hnames (List.mem_append_left _ h)

theorem normalize_directory (p : Text) : normalize (directory p) = directory p := by
  cases hroot : startsAtRoot (forwardSlashes p) with
  | true =>
    rw [directory_rooted hroot]
    exact normalize_absolute fun n hn => isPlain_of_mem_rootedNames (List.mem_of_mem_dropLast hn)
  | false =>
    rw [directory_unrooted hroot]
    by_cases hnone : (fold false (segments (forwardSlashes p))).dropLast = []
    · rw [hnone]
      rfl
    · obtain ⟨hslashes, hsegments, hstart⟩ := pieces_join_names fun n hn =>
        mem_fold_segments (b := false) (p := p) (List.mem_of_mem_dropLast hn)
      have hne : Text.join [slash] (fold false (segments (forwardSlashes p))).dropLast ≠ [] := by
        intro h
        rw [h] at hsegments
        exact hnone hsegments.symm
      rw [normalize_unrooted hne (by rw [hslashes, hstart]), hslashes, hsegments, fold_dropLast, if_neg hnone]

/-- Going up from a path in normal form leaves it where it is or makes it shorter. -/
theorem directory_eq_or_shorter {p : Text} (hp : normalize p = p) :
    directory p = p ∨ (directory p).length < p.length := by
  have hstart : directory p <+: p := by
    rw [directory, hp]
    exact parent_start p
  rcases Nat.lt_or_eq_of_le hstart.length_le with hlt | heq
  · exact Or.inr hlt
  · exact Or.inl (hstart.eq_of_length heq)

/-- Going up neither takes a path from the root nor brings it there. -/
theorem startsAtRoot_directory_eq (p : Text) : startsAtRoot (directory p) = startsAtRoot (forwardSlashes p) := by
  cases hroot : startsAtRoot (forwardSlashes p) with
  | true =>
    rw [directory_rooted hroot]
    exact startsAtRoot_absolute _
  | false =>
    by_cases hnil : directory p = []
    · rw [hnil]
      rfl
    · rw [← startsAtRoot_of_start hnil (parent_start (normalize p)), startsAtRoot_normalize_eq, hroot]

/-- Of the relative paths in normal form only the empty one is its own directory. -/
theorem eq_nil_of_directory_eq {p : Text} (hp : normalize p = p) (hstart : startsAtRoot p = false)
    (hself : directory p = p) : p = [] := by
  have hroot : startsAtRoot (forwardSlashes p) = false := by rw [← startsAtRoot_normalize_eq, hp, hstart]
  by_contra hne
  have hjoin : Text.join [slash] (fold false (segments (forwardSlashes p))).dropLast = p := by
    rw [← directory_unrooted hroot, hself]
  rw [normalize_unrooted hne hroot] at hp
  have hnames : ∀ n ∈ fold false (segments (forwardSlashes p)), IsName n ∧ n ≠ dotSegment ∧ backslash ∉ n :=
    fun n hn => mem_fold_segments (b := false) (p := p) hn
  generalize fold false (segments (forwardSlashes p)) = ns at hjoin hp hnames
  have hinit : ns.dropLast ≠ [] := by
    intro hnone
    rw [hnone] at hjoin
    exact hne hjoin.symm
  have hns : ns ≠ [] := by
    rintro rfl
    exact hinit rfl
  rw [if_neg hns] at hp
  -- the same path would have two lists of names
  obtain ⟨-, hsegments, -⟩ := pieces_join_names hnames
  obtain ⟨-, hsegments', -⟩ := pieces_join_names fun n hn => hnames n (List.mem_of_mem_dropLast hn)
  rw [hp] at hsegments
  rw [hjoin, hsegments] at hsegments'
  have hlength := congrArg List.length hsegments'
  rw [List.length_dropLast] at hlength
  have hpos := List.length_pos_iff.mpr hns
  omega

/-! ## What stands in a directory -/

/-- Of the paths in normal form only the root ends in a slash. -/
theorem eq_root_of_endsWith {p : Text} (hp : normalize p = p) (hends : Text.endsWith p [slash] = true) : p = [slash] := by
  obtain ⟨s, hs⟩ := endsWith_slash_iff.mp hends
  have hlast : slash ∈ p.getLast? := by simp [hs]
  have hne : p ≠ [] := by simp [hs]
  cases hroot : startsAtRoot (forwardSlashes p) with
  | true =>
    rw [normalize_rooted hroot] at hp
    by_cases hnone : rootedNames p = []
    · rw [← hp, hnone]
      rfl
    · rw [absolute_of_ne_nil hnone] at hp
      rw [← hp] at hlast
      exact absurd rfl (getLast?_below_ne_slash (fun n hn => (isPlain_of_mem_rootedNames hn).name) slash hlast)
  | false =>
    rw [normalize_unrooted hne hroot] at hp
    rw [← hp] at hlast
    split at hlast
    · cases hlast
    · exact absurd rfl (getLast?_join_ne_slash (fun n hn => (mem_fold_segments (b := false) (p := p) hn).1) slash hlast)

/-- A name in a directory in normal form, which must not be empty, stands behind a slash. -/
theorem join_eq_trimEnd {d p : Text} (hd : normalize d = d) (hne : d ≠ []) (hp : startsAtRoot p = false) :
    join d p = Text.trimEnd (· == slash) d ++ slash :: p := by
  have hempty : d.isEmpty = false := List.isEmpty_eq_false_iff.mpr hne
  by_cases hends : Text.endsWith d [slash] = true
  · rw [join, hp, if_neg Bool.false_ne_true, hends, Bool.or_true, if_pos rfl, eq_root_of_endsWith hd hends]
    rfl
  · have htrim : Text.trimEnd (· == slash) d = d := by
      have hlast : ∀ c ∈ d.getLast?, (c == slash) = false := by
        intro c hc
        rw [beq_eq_false_iff_ne]
        rintro rfl
        refine hends (endsWith_slash_iff.mpr ⟨d.dropLast, ?_⟩)
        exact (List.dropLast_append_getLast? slash hc).symm
      simpa using Text.trimEnd_append_of_not (· == slash) d [] hlast (by simp)
    rw [join, hp, if_neg Bool.false_ne_true, hempty, Bool.eq_false_iff.mpr hends, Bool.or_false, if_neg Bool.false_ne_true,
      htrim]

end TsProject.Path
