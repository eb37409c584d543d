/-
  TsProject.Proofs.Links — where the links of a file system in memory lead.

  A path follows the link at it, or one above it, and so on for as many links as are followed
  at all. Where nothing is listed below a link, an entry of a directory comes to where the
  same entry of the real directory comes to, as long as the links do not run out on the way.

  - `Memory.LinksApart`: the listed paths lie below the root, and none of them below a link.
  - `followOnce_entry` / `follow_entry`: what is entered from a directory follows its links.
  - `followOnce_realpath`: a directory that lists something has no link left to follow.
  - `realpath_file` / `realpath_directory`: the entries of two names of one directory.
-/

import TsProject.Proofs.Glob.Search
import TsProject.Proofs.Memory

namespace TsProject.Host.Memory

open CodePoint TsProject.Path TsProject.Glob

variable {m : Memory} {a d n p q : Text}

/-! ## Paths that go on -/

/-- A path that goes on behind a slash: it is not empty, and has no slash at its end. -/
def Solid (p : Text) : Prop := p ≠ [] ∧ p.getLast? ≠ some slash

instance (p : Text) : Decidable (Solid p) := inferInstanceAs (Decidable (_ ∧ _))

theorem Solid.entry_eq (hp : Solid p) (n : Text) : entry p n = p ++ slash :: n := by
  have hends : ¬ Text.endsWith p [slash] = true := by
    intro h
    obtain ⟨s, rfl⟩ := endsWith_slash_iff.mp h
    exact hp.2 List.getLast?_concat
  rw [entry, if_neg (by simpa using hp.1), if_neg hends]

theorem solid_absolute {ns : List Text} (hne : ns ≠ []) (hns : ∀ n ∈ ns, IsName n) : Solid (absolute ns) := by
  obtain ⟨t, ht⟩ := absolute_cons ns
  refine ⟨by simp [ht], ?_⟩
  intro hlast
  rw [absolute_of_ne_nil hne] at hlast
  exact getLast?_below_ne_slash hns slash hlast rfl

/-- Another start, and the path goes on all the same. -/
theorem Solid.replace (hq : Solid q) (hp : Solid (a ++ p)) : Solid (q ++ p) := by
  by_cases hrest : p = []
  · rw [hrest, List.append_nil]
    exact hq
  · refine ⟨List.append_ne_nil_of_left_ne_nil hq.1 p, ?_⟩
    rw [List.getLast?_append_of_ne_nil q hrest, ← List.getLast?_append_of_ne_nil a hrest]
    exact hp.2

/-! ## Ancestors -/

theorem ancestors_eq {k k' : Nat} (hk : p.length ≤ k) (hk' : p.length ≤ k') : ancestors k p = ancestors k' p := by
  induction k generalizing p k' with
  | zero =>
    obtain rfl : p = [] := List.length_eq_zero_iff.mp (Nat.le_zero.mp hk)
    cases k' with
    | zero => rfl
    | succ k' => rfl
  | succ k ih =>
    cases k' with
    | zero =>
      obtain rfl : p = [] := List.length_eq_zero_iff.mp (Nat.le_zero.mp hk')
      rfl
    | succ k' =>
      simp only [ancestors]
      by_cases hempty : (Text.throughLast slash p).dropLast.isEmpty = true
      · rw [if_pos hempty, if_pos hempty]
      · obtain ⟨t, ht⟩ := exists_last_slash (p := p) fun he => hempty (by rw [he]; rfl)
        have hlength := congrArg List.length ht
        rw [List.length_append, List.length_cons] at hlength
        rw [if_neg hempty, if_neg hempty]
        exact congrArg _ (ih (by omega) (by omega))

theorem ancestorsOrSelf_entry (hd : Solid d) (hn : slash ∉ n) :
    ancestorsOrSelf (entry d n) = entry d n :: ancestorsOrSelf d := by
  have hhead : (Text.throughLast slash (d ++ slash :: n)).dropLast = d := by
    rw [Text.throughLast_append slash d hn, List.dropLast_concat]
  have hlength : (d ++ slash :: n).length = d.length + n.length + 1 := by simp [Nat.add_assoc]
  rw [hd.entry_eq, ancestorsOrSelf, hlength, ancestors]
  simp only [hhead]
  rw [if_neg (by simpa using hd.1), ancestorsOrSelf, ancestors_eq (Nat.le_add_right _ _) (Nat.le_refl d.length)]

theorem prefix_of_mem_ancestorsOrSelf (h : a ∈ ancestorsOrSelf p) : a <+: p := by
  rcases List.mem_cons.mp h with rfl | h
  · exact List.prefix_refl a
  · obtain ⟨t, rfl⟩ := exists_of_mem_ancestors h
    exact List.prefix_append a _

theorem root_or_solid (hp : IsNamed p) : p = [slash] ∨ Solid p := by
  obtain ⟨ns, rfl, hns⟩ := hp
  by_cases hne : ns = []
  · exact Or.inl (by rw [hne, absolute_nil])
  · exact Or.inr (solid_absolute hne hns)

theorem absolute_concat (ms : List Text) (n : Text) : absolute (ms ++ [n]) = below ms ++ slash :: n := by
  simp [absolute_of_ne_nil]

theorem isNamed_of_mem_ancestors {k : Nat} (hp : IsNamed p) (h : a ∈ ancestors k p) : IsNamed a := by
  induction k generalizing p with
  | zero => cases h
  | succ k ih =>
    obtain ⟨ns, rfl, hns⟩ := hp
    rcases List.eq_nil_or_concat ns with rfl | ⟨ms, n, rfl⟩
    · cases h
    · rw [List.concat_eq_append] at hns h
      obtain ⟨hms, hn⟩ := List.forall_mem_append.mp hns
      have hhead : (Text.throughLast slash (absolute (ms ++ [n]))).dropLast = below ms := by
        rw [absolute_concat, Text.throughLast_append _ _ (hn n (List.mem_singleton_self n)).2, List.dropLast_concat]
      simp only [ancestors, hhead] at h
      by_cases hempty : (below ms).isEmpty = true
      · rw [if_pos hempty] at h
        cases h
      · rw [if_neg hempty] at h
        have hne : ms ≠ [] := by
          rintro rfl
          exact hempty rfl
        have habove : IsNamed (below ms) := ⟨ms, (absolute_of_ne_nil hne).symm, hms⟩
        rcases List.mem_cons.mp h with rfl | h
        · exact habove
        · exact ih habove h

theorem isNamed_of_mem_ancestorsOrSelf (hp : IsNamed p) (h : a ∈ ancestorsOrSelf p) : IsNamed a := by
  rcases List.mem_cons.mp h with rfl | h
  · exact hp
  · exact isNamed_of_mem_ancestors hp h

/-! ## Links that lie apart -/

/-- Files, directories and links are listed by paths from the root in normal form. Links lead to paths that go on,
nothing is listed below one, and no file at one. -/
structure LinksApart (m : Memory) : Prop where
  caseSensitive : m.caseSensitive = true
  normal : ∀ p ∈ m.files.map (·.1) ++ m.directories ++ m.links.map (·.1), startsAtRoot p = true ∧ normalize p = p
  targets : ∀ l ∈ m.links, l.1 ≠ [slash] ∧ Solid l.2
  noFile : ∀ l ∈ m.links, ∀ f ∈ m.files, f.1 ≠ l.1
  nothingBelow : ∀ l ∈ m.links, ∀ p ∈ m.files.map (·.1) ++ m.allDirectories, ¬ l.1 ++ [slash] <+: p

theorem LinksApart.key_eq (hm : m.LinksApart) (p : Text) : m.key p = p := by
  rw [key, hm.caseSensitive]
  rfl

theorem LinksApart.isNamed (hm : m.LinksApart) (hp : p ∈ m.files.map (·.1) ++ m.allDirectories) : IsNamed p := by
  have hnamed : ∀ x ∈ m.files.map (·.1) ++ m.directories ++ m.links.map (·.1), IsNamed x := by
    intro x hx
    obtain ⟨ns, rfl, hns⟩ := eq_absolute_of_normalize (hm.normal x hx).1 (hm.normal x hx).2
    exact ⟨ns, rfl, fun n hn => (hns n hn).name⟩
  simp only [List.forall_mem_append, List.forall_mem_map] at hnamed
  obtain ⟨⟨hfiles, hdirectories⟩, hlinks⟩ := hnamed
  simp only [allDirectories, List.mem_append, List.mem_map, List.mem_flatMap] at hp
  rcases hp with ⟨f, hf, rfl⟩ | (⟨f, hf, hp⟩ | ⟨x, hx, hp⟩) | ⟨l, hl, hp⟩
  · exact hfiles f hf
  · exact isNamed_of_mem_ancestors (hfiles f hf) hp
  · exact isNamed_of_mem_ancestorsOrSelf (hdirectories x hx) hp
  · exact isNamed_of_mem_ancestorsOrSelf (hlinks l hl) hp

/-- What is listed under a directory is an entry of it. -/
theorem LinksApart.entry_mem (hm : m.LinksApart) {paths : List Text} (hpaths : paths ⊆ m.files.map (·.1) ++ m.allDirectories)
    (h : n ∈ m.namesUnder d paths) : IsNamed d ∧ IsName n ∧ entry d n ∈ paths := by
  obtain ⟨p, hp, hne, hkey, rfl⟩ := mem_namesUnder_iff.mp h
  rw [hm.key_eq, hm.key_eq] at hkey
  obtain ⟨ns, rfl, hns⟩ := hm.isNamed (hpaths hp)
  rcases List.eq_nil_or_concat ns with rfl | ⟨ms, n, rfl⟩
  · exact absurd rfl hne
  · rw [List.concat_eq_append] at hns hp hkey ⊢
    obtain ⟨hms, hn⟩ := List.forall_mem_append.mp hns
    have hname : IsName n := hn n (List.mem_singleton_self n)
    have hlast : Text.afterLast slash (absolute (ms ++ [n])) = n := by rw [absolute_concat, Text.afterLast_append _ _ hname.2]
    have hparent : parentOf (absolute (ms ++ [n])) = absolute ms := by
      rw [parentOf, absolute_concat, Text.throughLast_append _ _ hname.2, List.dropLast_concat]
      exact below_or_root ms
    rw [hparent] at hkey
    rw [hlast, ← hkey, entry_absolute hms]
    exact ⟨⟨ms, rfl, hms⟩, hname, hp⟩

/-! ## Following links -/

theorem LinksApart.exists_link (hm : m.LinksApart) (h : m.followOnce d = some q) :
    ∃ l ∈ m.links, ∃ rest, d = l.1 ++ rest ∧ (rest = [] ∨ ∃ t, rest = slash :: t) ∧ q = l.2 ++ rest := by
  obtain ⟨a, rest, l, hl, rfl, hrest, hkey, rfl⟩ := exists_of_followOnce h
  rw [hm.key_eq, hm.key_eq] at hkey
  exact ⟨l, hl, rest, by rw [hkey], hrest, rfl⟩

theorem prefix_of_rest {s t rest : Text} (hrest : rest = [] ∨ ∃ t, rest = slash :: t) :
    s ++ [slash] <+: s ++ rest ++ slash :: t := by
  rcases hrest with rfl | ⟨u, rfl⟩
  · exact ⟨t, by simp⟩
  · exact ⟨u ++ slash :: t, by simp⟩

theorem LinksApart.followOnce_root (hm : m.LinksApart) : m.followOnce [slash] = none := by
  cases hq : m.followOnce [slash] with
  | none => rfl
  | some q =>
    exfalso
    obtain ⟨l, hl, rest, hpath, -⟩ := hm.exists_link hq
    have hstart := (hm.normal l.1 (List.mem_append_right _ (List.mem_map_of_mem hl))).1
    obtain ⟨t, ht⟩ := startsAtRoot_iff.mp hstart
    rw [ht, List.cons_append, List.cons.injEq] at hpath
    refine (hm.targets l hl).1 ?_
    rw [ht, (List.append_eq_nil_iff.mp hpath.2.symm).1]

/-- No link is followed at the directory of a listed path. -/
theorem LinksApart.followOnce_eq_none (hm : m.LinksApart) (hd : IsNamed d)
    (h : entry d n ∈ m.files.map (·.1) ++ m.allDirectories) : m.followOnce d = none := by
  rcases root_or_solid hd with rfl | hsolid
  · exact hm.followOnce_root
  · cases hq : m.followOnce d with
    | none => rfl
    | some q =>
      exfalso
      obtain ⟨l, hl, rest, rfl, hrest, -⟩ := hm.exists_link hq
      rw [hsolid.entry_eq] at h
      exact hm.nothingBelow l hl _ h (prefix_of_rest hrest)

/-- A link that is followed from a directory is followed from what is entered from there. -/
theorem LinksApart.followOnce_entry (hm : m.LinksApart) (hd : Solid d) (hn : slash ∉ n) (h : m.followOnce d = some q) :
    Solid q ∧ m.followOnce (entry d n) = some (entry q n) := by
  obtain ⟨l, hl, rest, rfl, hrest, rfl⟩ := hm.exists_link h
  have hsolid : Solid (l.2 ++ rest) := (hm.targets l hl).2.replace hd
  refine ⟨hsolid, ?_⟩
  -- nothing is listed at the entry, which is below a link
  have hnone : m.links.find? (fun l' => m.key l'.1 == m.key (entry (l.1 ++ rest) n)) = none := by
    rw [List.find?_eq_none]
    intro l' hl' hkey
    rw [beq_iff_eq, hm.key_eq, hm.key_eq, hd.entry_eq] at hkey
    refine hm.nothingBelow l hl l'.1 ?_ (hkey ▸ prefix_of_rest hrest)
    exact List.mem_append_right _ (List.mem_append_right _ (List.mem_flatMap.mpr ⟨l', hl', List.mem_cons_self⟩))
  obtain ⟨before, a, behind, hsplit, ha, hbefore⟩ := List.findSome?_eq_some_iff.mp h
  rw [followOnce, ancestorsOrSelf_entry hd hn, List.findSome?_eq_some_iff]
  refine ⟨entry (l.1 ++ rest) n :: before, a, behind, by rw [hsplit, List.cons_append], ?_, ?_⟩
  · obtain ⟨l', hl', heq⟩ := Option.map_eq_some_iff.mp ha
    have hlength : a.length ≤ (l.1 ++ rest).length :=
      (prefix_of_mem_ancestorsOrSelf (hsplit ▸ List.mem_append_right _ List.mem_cons_self)).length_le
    rw [hl', Option.map_some, hd.entry_eq, hsolid.entry_eq, List.drop_append_of_le_length hlength, ← heq, List.append_assoc]
  · refine List.forall_mem_cons.mpr ⟨by rw [hnone]; rfl, ?_⟩
    intro x hx
    rw [Option.map_eq_none_iff.mp (hbefore x hx)]
    rfl

theorem follow_of_none (h : m.followOnce p = none) (k : Nat) : m.follow k p = p := by
  cases k with
  | zero => rfl
  | succ k => rw [follow, h]

theorem follow_of_some (h : m.followOnce p = some q) (k : Nat) : m.follow (k + 1) p = m.follow k q := by
  rw [follow, h]

/-- Where no link is left to follow, nothing comes of following more. -/
theorem follow_add {k : Nat} (h : m.followOnce (m.follow k p) = none) (i : Nat) : m.follow (k + i) p = m.follow k p := by
  induction k generalizing p with
  | zero =>
    rw [Nat.zero_add]
    exact follow_of_none h i
  | succ k ih =>
    cases hq : m.followOnce p with
    | none => rw [follow_of_none hq, follow_of_none hq]
    | some q =>
      rw [follow_of_some hq] at h
      rw [Nat.succ_add_eq_add_succ, Nat.add_succ, follow_of_some hq, follow_of_some hq]
      exact ih h

theorem follow_unique {k k' : Nat} (h : m.followOnce (m.follow k p) = none) (h' : m.followOnce (m.follow k' p) = none) :
    m.follow k p = m.follow k' p := by
  rcases Nat.le_total k k' with hle | hle
  · obtain ⟨i, rfl⟩ := Nat.exists_eq_add_of_le hle
    exact (follow_add h i).symm
  · obtain ⟨i, rfl⟩ := Nat.exists_eq_add_of_le hle
    exact follow_add h' i

/-- Some of the links followed from an entry of a directory lead to the entry of where the directory leads. -/
theorem LinksApart.follow_entry (hm : m.LinksApart) {k : Nat} (hd : d = [slash] ∨ Solid d)
    (h : m.followOnce (m.follow k d) = none) :
    ∃ j ≤ k, ∀ i n, slash ∉ n → m.follow (j + i) (entry d n) = m.follow i (entry (m.follow k d) n) := by
  induction k generalizing d with
  | zero => exact ⟨0, Nat.le_refl 0, fun i n _ => by rw [Nat.zero_add]; rfl⟩
  | succ k ih =>
    cases hq : m.followOnce d with
    | none =>
      refine ⟨0, Nat.zero_le _, fun i n _ => ?_⟩
      rw [follow_of_none hq, Nat.zero_add]
    | some q =>
      have hsolid : Solid d := by
        refine hd.resolve_left ?_
        rintro rfl
        rw [hm.followOnce_root] at hq
        cases hq
      rw [follow_of_some hq] at h ⊢
      obtain ⟨l, hl, rest, rfl, -, rfl⟩ := hm.exists_link hq
      obtain ⟨j, hj, hfollow⟩ := ih (Or.inr ((hm.targets l hl).2.replace hsolid)) h
      refine ⟨j + 1, Nat.succ_le_succ hj, fun i n hn => ?_⟩
      rw [Nat.add_right_comm, follow_of_some (hm.followOnce_entry hsolid hn hq).2, hfollow i n hn]

/-! ## Real paths -/

/-- A directory that lists something has no link left to follow. -/
theorem LinksApart.followOnce_realpath (hm : m.LinksApart) (h : m.entries d ≠ ([], [])) :
    m.followOnce (m.realpath d) = none := by
  have hlisted : ∃ n, n ∈ (m.entries d).1 ∨ n ∈ (m.entries d).2 := by
    cases hfiles : (m.entries d).1 with
    | cons n _ => exact ⟨n, Or.inl List.mem_cons_self⟩
    | nil =>
      cases hdirectories : (m.entries d).2 with
      | cons n _ => exact ⟨n, Or.inr List.mem_cons_self⟩
      | nil => exact absurd (Prod.ext hfiles hdirectories) h
  obtain ⟨n, hn | hn⟩ := hlisted
  · obtain ⟨hd, -, hmem⟩ := hm.entry_mem (List.subset_append_left _ _) hn
    exact hm.followOnce_eq_none hd (List.mem_append_left _ hmem)
  · obtain ⟨hd, -, hmem⟩ := hm.entry_mem (List.subset_append_right _ _) hn
    exact hm.followOnce_eq_none hd (List.mem_append_right _ hmem)

/-- An entry of a directory comes to where the entry of the real directory leads, with what is left of the links. -/
theorem LinksApart.exists_realpath_entry (hm : m.LinksApart) (hd : IsNamed d) (h : m.followOnce (m.realpath d) = none) :
    ∃ i ≤ linkLimit, ∀ n, slash ∉ n → m.realpath (entry d n) = m.follow i (entry (m.realpath d) n) := by
  obtain ⟨j, hj, hfollow⟩ := hm.follow_entry (root_or_solid hd) h
  refine ⟨linkLimit - j, Nat.sub_le _ _, fun n hn => ?_⟩
  have hrest := hfollow (linkLimit - j) n hn
  rw [Nat.add_sub_cancel' hj] at hrest
  exact hrest

/-- A file has the real path of its directory in front. -/
theorem LinksApart.realpath_file (hm : m.LinksApart) (hd : IsNamed d) (h : n ∈ (m.entries d).1) :
    m.realpath (entry d n) = entry (m.realpath d) n := by
  obtain ⟨hreal, hname, hmem⟩ := hm.entry_mem (List.subset_append_left _ _) h
  obtain ⟨i, -, hfollow⟩ := hm.exists_realpath_entry hd (hm.followOnce_eq_none hreal (List.mem_append_left _ hmem))
  rw [hfollow n hname.2]
  apply follow_of_none
  cases hq : m.followOnce (entry (m.realpath d) n) with
  | none => rfl
  | some q =>
    exfalso
    obtain ⟨l, hl, rest, hpath, hrest, -⟩ := hm.exists_link hq
    obtain ⟨f, hf, hfile⟩ := List.mem_map.mp hmem
    rcases hrest with rfl | ⟨t, rfl⟩
    · rw [List.append_nil] at hpath
      exact hm.noFile l hl f hf (hfile.trans hpath)
    · exact hm.nothingBelow l hl _ (List.mem_append_left _ hmem) (hpath ▸ ⟨t, by simp⟩)

/-- A directory that is listed under two names of one directory comes to one real path from either, unless the links
run out. -/
theorem LinksApart.realpath_directory (hm : m.LinksApart) {d' : Text} (hd : IsNamed d) (hd' : IsNamed d')
    (hreal : m.realpath d = m.realpath d') (hn : n ∈ (m.entries d).2) (h : m.followOnce (m.realpath (entry d n)) = none)
    (h' : m.followOnce (m.realpath (entry d' n)) = none) : m.realpath (entry d n) = m.realpath (entry d' n) := by
  obtain ⟨hnamed, hname, hmem⟩ := hm.entry_mem (List.subset_append_right _ _) hn
  have hend := hm.followOnce_eq_none hnamed (List.mem_append_right _ hmem)
  obtain ⟨i, -, hfollow⟩ := hm.exists_realpath_entry hd hend
  obtain ⟨i', -, hfollow'⟩ := hm.exists_realpath_entry hd' (hreal ▸ hend)
  rw [hfollow n hname.2] at h ⊢
  rw [hfollow' n hname.2, ← hreal] at h' ⊢
  exact follow_unique h h'

end TsProject.Host.Memory
