/-
  TsProject.Proofs.Memory — what a file system in memory lists.

  Its files are listed by path, and a directory is listed by the real path it comes to.
  Where the listed paths are rooted and in normal form, no other spelling of a directory
  has entries: a `.`, a `..` or a second slash in it stays there when links are followed,
  and no file is listed under a path that has one.

  - `Memory.Tidy`: files and links are listed in normal form.
  - `isDirectory_of_follow`: what leads to a directory in normal form is in normal form.
  - `isNormal_entry`: so are the files that are listed, under whatever name.
  - `Memory.PlainlyNamed`: less is asked for, of names alone.
-/

import TsProject.Host.Memory
import TsProject.Proofs.Normal
import Mathlib.Data.List.TakeWhile

namespace TsProject.Host.Memory

open CodePoint TsProject.Path

/-- Files and links are listed by rooted paths in normal form. Where case is ignored, no drive is the one
letter that takes two in lower case. -/
structure Tidy (m : Memory) : Prop where
  files : ∀ f ∈ m.files, isRooted f.1 = true ∧ normalize f.1 = f.1
  links : ∀ l ∈ m.links, isRooted l.1 = true ∧ normalize l.1 = l.1 ∧ l.1 ≠ [slash]
  drives : m.caseSensitive = false → ∀ p ∈ m.files.map (·.1) ++ m.links.map (·.1), p.head? ≠ some 0x130

variable {m : Memory} {a d n p q x : Text}

/-! ## Keys -/

theorem isDirectory_of_key (hd : IsDirectory d) (hwide : m.caseSensitive = false → d.head? ≠ some 0x130)
    (h : m.key x = m.key d) : IsDirectory x := by
  unfold key Glob.canonical at h
  cases hcase : m.caseSensitive with
  | true =>
    rw [hcase] at h
    exact (show x = d from h) ▸ hd
  | false =>
    rw [hcase] at h
    exact hd.of_lower (hwide hcase) h

theorem isNormal_of_key (hp : IsNormal p) (hwide : m.caseSensitive = false → p.head? ≠ some 0x130)
    (h : m.key x = m.key p) : IsNormal x := by
  unfold key Glob.canonical at h
  cases hcase : m.caseSensitive with
  | true =>
    rw [hcase] at h
    exact (show x = p from h) ▸ hp
  | false =>
    rw [hcase] at h
    exact hp.of_lower (hwide hcase) h

/-! ## Parents -/

/-- The directory of a path in normal form, and its name there. -/
theorem parentOf_of_isNormal (hp : IsNormal p) :
    IsDirectory (parentOf p) ∧ IsPlain (Text.afterLast slash p) ∧ (parentOf p).head? = p.head? := by
  obtain ⟨root, ns, hroot, hne, hns, hcut⟩ := hp
  obtain ⟨ms, n, rfl⟩ : ∃ ms n, ns = ms ++ [n] := by
    rcases List.eq_nil_or_concat ns with h | ⟨ms, n, h⟩
    · exact absurd h hne
    · exact ⟨ms, n, by rw [h, List.concat_eq_append]⟩
  have hn : IsPlain n := hns n (List.mem_append_right _ (List.mem_singleton_self n))
  have hms : ∀ m ∈ ms, IsPlain m := fun m hm => hns m (List.mem_append_left _ hm)
  have hpath : p = (root ++ below ms) ++ slash :: n := by
    rw [eq_below_of_splitOn hcut, below_append, List.append_assoc]
    simp
  have hhead : (Text.throughLast slash p).dropLast = root ++ below ms := by
    rw [hpath, Text.throughLast_append _ _ hn.name.2, List.dropLast_concat]
  have hlast : Text.afterLast slash p = n := by rw [hpath, Text.afterLast_append _ _ hn.name.2]
  rw [hlast]
  unfold parentOf
  simp only [hhead]
  by_cases hempty : root ++ below ms = []
  · rw [hempty, List.isEmpty_nil, if_pos rfl]
    rw [hempty] at hpath
    refine ⟨⟨List.cons_ne_nil _ _, [], [], [[]], .top, by simp, Or.inr rfl, rfl⟩, hn, ?_⟩
    rw [hpath]
    rfl
  · rw [if_neg (by simpa using hempty)]
    refine ⟨⟨hempty, root, ms, [], hroot, hms, Or.inl rfl, ?_⟩, hn, ?_⟩
    · rw [List.append_nil, splitOn_below hroot.not_mem.1 fun m hm => (hms m hm).name.2]
    · rw [hpath, List.head?_append_of_ne_nil _ hempty]

theorem exists_last_slash (h : (Text.throughLast slash p).dropLast ≠ []) :
    ∃ t, p = (Text.throughLast slash p).dropLast ++ slash :: t := by
  have hmem : slash ∈ p := by
    by_contra hno
    apply h
    have hall : ∀ x ∈ p.reverse, (x != slash) = true := by
      intro x hx
      apply bne_iff_ne.mpr
      rintro rfl
      exact hno (List.mem_reverse.mp hx)
    have hnone : p.reverse.dropWhile (· != slash) = [] := List.dropWhile_eq_nil_iff.mpr hall
    rw [Text.throughLast, hnone]
    rfl
  obtain ⟨s, t, rfl, ht⟩ := Text.exists_last hmem
  refine ⟨t, ?_⟩
  rw [Text.throughLast_append _ _ ht, List.dropLast_concat]

/-- An ancestor of a path is what stands before one of its slashes. -/
theorem exists_of_mem_ancestors {k : Nat} (h : a ∈ ancestors k p) : ∃ t, p = a ++ slash :: t := by
  induction k generalizing p with
  | zero => cases h
  | succ k ih =>
    simp only [ancestors] at h
    by_cases hempty : (Text.throughLast slash p).dropLast.isEmpty = true
    · rw [if_pos hempty] at h
      cases h
    · rw [if_neg hempty] at h
      obtain ⟨t, ht⟩ := exists_last_slash (p := p) fun he => hempty (by rw [he]; rfl)
      rcases List.mem_cons.mp h with rfl | h
      · exact ⟨t, ht⟩
      · obtain ⟨u, hu⟩ := ih h
        refine ⟨u ++ slash :: t, ?_⟩
        rw [hu, List.append_assoc, List.cons_append] at ht
        exact ht

/-! ## Links -/

/-- Following a link replaces the start of a path, up to a slash or to its end. -/
theorem exists_of_followOnce (h : m.followOnce d = some q) :
    ∃ a rest, ∃ l ∈ m.links, d = a ++ rest ∧ (rest = [] ∨ ∃ t, rest = slash :: t) ∧ m.key a = m.key l.1 ∧ q = l.2 ++ rest := by
  obtain ⟨a, ha, hlink⟩ := List.exists_of_findSome?_eq_some h
  obtain ⟨l, hl, rfl⟩ := Option.map_eq_some_iff.mp hlink
  have hkey : m.key l.1 = m.key a := by simpa using List.find?_some hl
  rcases List.mem_cons.mp ha with rfl | ha
  · exact ⟨a, [], l, List.mem_of_find?_eq_some hl, by simp, Or.inl rfl, hkey.symm, by simp⟩
  · obtain ⟨t, rfl⟩ := exists_of_mem_ancestors ha
    refine ⟨a, slash :: t, l, List.mem_of_find?_eq_some hl, rfl, Or.inr ⟨t, rfl⟩, hkey.symm, ?_⟩
    rw [List.drop_left]

/-- The last pieces of a directory in normal form are plain names, perhaps with a slash behind them. -/
theorem exists_names_behind {pieces behind ns tail : List Text} (hns : ∀ n ∈ ns, IsPlain n)
    (htail : tail = [] ∨ tail = [[]]) (h : pieces ++ behind = ns ++ tail) :
    ∃ ms tail', (∀ m ∈ ms, IsPlain m) ∧ (tail' = [] ∨ tail' = [[]]) ∧ behind = ms ++ tail' := by
  rcases List.append_eq_append_iff.mp h with ⟨ms, hsplit, hbehind⟩ | ⟨rest, -, hrest⟩
  · refine ⟨ms, tail, fun m hm => hns m ?_, htail, hbehind⟩
    rw [hsplit]
    exact List.mem_append_right _ hm
  · -- the pieces reach into the tail, of which the rest is left
    refine ⟨[], behind, by simp, ?_, rfl⟩
    rcases htail with rfl | rfl
    · exact Or.inl (List.append_eq_nil_iff.mp hrest.symm).2
    · cases rest with
      | nil => exact Or.inr hrest.symm
      | cons piece rest =>
        obtain ⟨-, hnone⟩ := List.cons.inj hrest
        exact Or.inl (List.append_eq_nil_iff.mp hnone.symm).2

/-- What leads to a directory in normal form by one link is in normal form itself. -/
theorem isDirectory_of_followOnce (hm : m.Tidy) (h : m.followOnce d = some q) (hq : IsDirectory q) : IsDirectory d := by
  obtain ⟨a, rest, l, hl, rfl, hrest, hkey, rfl⟩ := exists_of_followOnce h
  obtain ⟨hrooted, hnormal, hnotRoot⟩ := hm.links l hl
  have hwide : m.caseSensitive = false → l.1.head? ≠ some 0x130 := fun hcase =>
    hm.drives hcase l.1 (List.mem_append_right _ (List.mem_map_of_mem hl))
  obtain ⟨root, ns, hroot, hne, hns, hcut⟩ := isNormal_of_key (isNormal_of_normalize hrooted hnormal hnotRoot) hwide hkey
  have hane : a ≠ [] := by
    rintro rfl
    have hlength := congrArg List.length hcut
    simp only [Text.splitOn, List.length_cons, List.length_nil] at hlength
    exact hne (List.length_eq_zero_iff.mp (by omega))
  obtain ⟨-, root', ns', tail', -, hns', htail', hcut'⟩ := hq
  rcases hrest with rfl | ⟨t, rfl⟩
  · rw [List.append_nil]
    exact ⟨hane, root, ns, [], hroot, hns, Or.inl rfl, by rw [List.append_nil]; exact hcut⟩
  · -- behind the link the two paths have the same pieces
    rw [Text.splitOn_append_sep] at hcut'
    obtain ⟨piece, pieces, hpieces⟩ := List.exists_cons_of_ne_nil (Text.splitOn_ne_nil slash l.2)
    rw [hpieces, List.cons_append] at hcut'
    obtain ⟨-, hbehind⟩ := List.cons.inj hcut'
    obtain ⟨ms, tail, hms, htail, hsplit⟩ := exists_names_behind hns' htail' hbehind
    refine ⟨by simp, root, ns ++ ms, tail, hroot, List.forall_mem_append.mpr ⟨hns, hms⟩, htail, ?_⟩
    rw [Text.splitOn_append_sep, hcut, hsplit, List.cons_append, List.append_assoc]

/-- The same for any number of links. -/
theorem isDirectory_of_follow (hm : m.Tidy) {k : Nat} (h : IsDirectory (m.follow k d)) : IsDirectory d := by
  induction k generalizing d with
  | zero => exact h
  | succ k ih =>
    rw [follow] at h
    cases hq : m.followOnce d with
    | none =>
      rw [hq] at h
      exact h
    | some q =>
      rw [hq] at h
      exact isDirectory_of_followOnce hm hq (ih h)

/-! ## Entries -/

theorem mem_namesUnder_iff {paths : List Text} : n ∈ m.namesUnder d paths ↔
    ∃ p ∈ paths, p ≠ [slash] ∧ m.key (parentOf p) = m.key d ∧ Text.afterLast slash p = n := by
  simp only [namesUnder, List.mem_mergeSort, List.mem_eraseDups, List.mem_map, List.mem_filter, Bool.and_eq_true,
    bne_iff_ne, beq_iff_eq, and_assoc]

/-- A file that is listed has a path in normal form, whatever name its directory is listed under. -/
theorem isNormal_entry (hm : m.Tidy) (h : n ∈ (m.entries d).1) : IsNormal (entry d n) := by
  obtain ⟨p, hp, hnotRoot, hkey, rfl⟩ := mem_namesUnder_iff.mp h
  obtain ⟨f, hf, rfl⟩ := List.mem_map.mp hp
  obtain ⟨hrooted, hnormal⟩ := hm.files f hf
  obtain ⟨hparent, hname, hhead⟩ := parentOf_of_isNormal (isNormal_of_normalize hrooted hnormal hnotRoot)
  have hwide : m.caseSensitive = false → (parentOf f.1).head? ≠ some 0x130 := by
    intro hcase
    rw [hhead]
    exact hm.drives hcase f.1 (List.mem_append_left _ hp)
  have hreal : IsDirectory (m.realpath d) := isDirectory_of_key hparent hwide hkey.symm
  exact (isDirectory_of_follow hm hreal).entry hname

/-! ## Names -/

/-- Files and directories have names that normalization leaves alone, and no path has a line feed in it. -/
structure PlainlyNamed (m : Memory) : Prop where
  names : ∀ p ∈ m.files.map (·.1) ++ m.allDirectories, p ≠ [slash] → IsPlain (Text.afterLast slash p)
  oneLine : ∀ p ∈ m.files.map (·.1) ++ m.allDirectories, lineFeed ∉ p

theorem isPlain_of_mem_entries (hm : m.PlainlyNamed) (h : n ∈ (m.entries d).1 ∨ n ∈ (m.entries d).2) : IsPlain n := by
  rcases h with h | h
  · obtain ⟨p, hp, hnotRoot, -, rfl⟩ := mem_namesUnder_iff.mp h
    exact hm.names p (List.mem_append_left _ hp) hnotRoot
  · obtain ⟨p, hp, hnotRoot, -, rfl⟩ := mem_namesUnder_iff.mp h
    exact hm.names p (List.mem_append_right _ hp) hnotRoot

theorem lineFeed_mem_key : lineFeed ∈ m.key p ↔ lineFeed ∈ p := by
  unfold key Glob.canonical
  split
  · exact Iff.rfl
  · exact Text.mem_lower_iff rfl p

theorem lineFeed_not_mem_parentOf (hp : lineFeed ∉ p) : lineFeed ∉ parentOf p := by
  have hhead : lineFeed ∉ (Text.throughLast slash p).dropLast := by
    intro h
    have hrest := List.mem_reverse.mp (List.mem_of_mem_dropLast h)
    exact hp (List.mem_reverse.mp ((List.dropWhile_suffix _).subset hrest))
  unfold parentOf
  simp only
  split
  · decide
  · exact hhead

/-- A line feed stays in a path when links are followed. -/
theorem lineFeed_mem_follow (hm : m.PlainlyNamed) {k : Nat} (h : lineFeed ∈ d) : lineFeed ∈ m.follow k d := by
  induction k generalizing d with
  | zero => exact h
  | succ k ih =>
    rw [follow]
    cases hq : m.followOnce d with
    | none => exact h
    | some q =>
      obtain ⟨a, rest, l, hl, rfl, -, hkey, rfl⟩ := exists_of_followOnce hq
      have hdirectory : l.1 ∈ m.allDirectories :=
        List.mem_append_right _ (List.mem_flatMap.mpr ⟨l, hl, List.mem_cons_self⟩)
      have hlink : lineFeed ∉ a := by
        rw [← lineFeed_mem_key (m := m), hkey, lineFeed_mem_key]
        exact hm.oneLine _ (List.mem_append_right _ hdirectory)
      exact ih (List.mem_append_right _ ((List.mem_append.mp h).resolve_left hlink))

/-- So no file is listed under a name with a line feed in it. -/
theorem lineFeed_not_mem_entry (hm : m.PlainlyNamed) (h : n ∈ (m.entries d).1) : lineFeed ∉ entry d n := by
  obtain ⟨p, hp, -, hkey, rfl⟩ := mem_namesUnder_iff.mp h
  have hfile : lineFeed ∉ p := hm.oneLine p (List.mem_append_left _ hp)
  have hdirectory : lineFeed ∉ d := by
    intro hd
    have hreal := (lineFeed_mem_key (m := m)).mpr (lineFeed_mem_follow hm (k := linkLimit) hd)
    have hparent : lineFeed ∈ m.key (parentOf p) := hkey ▸ hreal
    exact lineFeed_not_mem_parentOf hfile (lineFeed_mem_key.mp hparent)
  have hname : lineFeed ∉ Text.afterLast slash p := by
    intro h
    have hlast := (List.takeWhile_prefix _).subset (List.mem_reverse.mp h)
    exact hfile (List.mem_reverse.mp hlast)
  unfold entry
  split
  · exact hname
  · split
    · exact List.not_mem_append hdirectory hname
    · exact List.not_mem_append hdirectory (List.not_mem_cons_of_ne_of_not_mem (by decide) hname)

end TsProject.Host.Memory
