/-
  TsProject.Proofs.Glob.Drive — paths on a drive.

  The path of a file on a drive starts with the drive where others start with a slash, and the
  drive is the first of its names.

  - `located`: paths from the root and on a drive.
  - `exists_located`: a rooted path in normal form is one of them.
  - `enters_located`: every directory on the way to a file that an include matches is entered.
-/

import TsProject.Proofs.Glob.Search
import TsProject.Proofs.Stem

namespace TsProject.Glob

open CodePoint Pattern TsProject.Path

variable {spec : Text} {ns segs pre post : List Text} {atRoot : Bool}

/-! ## Paths -/

/-- The path of some names from the root, or from a drive, which is the first of them. -/
def located (atRoot : Bool) (ns : List Text) : Text := if atRoot then absolute ns else Text.join [slash] ns

theorem names_located (atRoot : Bool) (hns : ∀ n ∈ ns, IsName n) : names (located atRoot ns) = ns := by
  cases atRoot with
  | true => exact names_absolute hns
  | false => exact names_join hns

theorem startsAtRoot_located (hfirst : atRoot = false → ns ≠ []) (hns : ∀ n ∈ ns, IsName n) :
    startsAtRoot (located atRoot ns) = atRoot := by
  cases atRoot with
  | true => exact startsAtRoot_absolute ns
  | false =>
    obtain ⟨n, ms, rfl⟩ := List.exists_cons_of_ne_nil (hfirst rfl)
    have hn : IsName n := hns n List.mem_cons_self
    rw [located, if_neg Bool.false_ne_true, join_eq_below, startsAtRoot_of_start hn.1 (List.prefix_append n _),
      Bool.eq_false_iff]
    intro hroot
    obtain ⟨t, rfl⟩ := startsAtRoot_iff.mp hroot
    exact hn.2 List.mem_cons_self

theorem descend_located (hfirst : atRoot = false → ns ≠ []) (hns : ∀ n ∈ ns, IsName n) {ms : List Text}
    (hms : ∀ m ∈ ms, IsName m) : descend (located atRoot ns) ms = located atRoot (ns ++ ms) := by
  cases atRoot with
  | true => exact descend_absolute hns hms
  | false => exact descend_join (hfirst rfl) hns hms

/-- A rooted path in normal form that does not start at the root: a drive with plain names below it. -/
theorem exists_names_on_drive {p : Text} (hrooted : isRooted p = true) (hnormal : normalize p = p)
    (hstart : startsAtRoot p = false) : ∃ x n ms, IsRoot [x, colon] ∧ (∀ m ∈ n :: ms, IsPlain m) ∧
      p = located false ([x, colon] :: n :: ms) := by
  have htop : p ≠ [slash] := by
    rintro rfl
    cases hstart
  obtain ⟨root, ns, hroot, hne, hplain, hcut⟩ := isNormal_of_normalize hrooted hnormal htop
  obtain ⟨n, ms, rfl⟩ := List.exists_cons_of_ne_nil hne
  have hp := eq_below_of_splitOn hcut
  cases hroot with
  | top =>
    rw [hp] at hstart
    cases hstart
  | @drive x hslash hbackslash =>
    refine ⟨x, n, ms, .drive hslash hbackslash, hplain, ?_⟩
    rw [hp, ← join_eq_below]
    rfl

/-- A rooted path in normal form is reached from the directory of the root, or of a drive, by plain names. -/
theorem exists_located {p : Text} (hrooted : isRooted p = true) (hnormal : normalize p = p) :
    ∃ top atRoot first ms, isRooted top = true ∧ (∀ m ∈ ms, IsPlain m) ∧ p = descend top ms ∧
      p = located atRoot (first ++ ms) ∧ first.length = (if atRoot then 0 else 1) ∧
      ∀ c ∈ first, IsName c ∧ (lineFeed ∈ c → p.head? = some lineFeed) := by
  cases hstart : startsAtRoot p with
  | true =>
    obtain ⟨ms, rfl, hms⟩ := eq_absolute_of_normalize hstart hnormal
    refine ⟨absolute [], true, [], ms, rfl, hms, ?_, rfl, rfl, by simp⟩
    exact (descend_absolute (List.forall_mem_nil _) fun m hm => (hms m hm).name).symm
  | false =>
    obtain ⟨x, n, ms, hdrive, hplain, rfl⟩ := exists_names_on_drive hrooted hnormal hstart
    have hname : IsName [x, colon] := ⟨List.cons_ne_nil _ _, hdrive.not_mem.1⟩
    refine ⟨[x, colon, slash], false, [[x, colon]], n :: ms, ?_, hplain, ?_, rfl, rfl, ?_⟩
    · unfold isRooted
      split
      · rfl
      · rfl
      · rename_i h
        exact absurd rfl (h _ _)
    · have hentry : entry [x, colon, slash] n = Text.join [slash] ([x, colon] :: [n]) := rfl
      change _ = descend (entry [x, colon, slash] n) ms
      rw [hentry, descend_join (List.cons_ne_nil _ _)]
      · rfl
      · exact List.forall_mem_cons.mpr ⟨hname, List.forall_mem_singleton.mpr (hplain n List.mem_cons_self).name⟩
      · exact fun m hm => (hplain m (List.mem_cons_of_mem n hm)).name
    · refine List.forall_mem_singleton.mpr ⟨hname, fun h => ?_⟩
      have hx : x = lineFeed := by
        rcases List.mem_cons.mp h with h | h
        · exact h.symm
        · exact absurd (List.mem_singleton.mp h) (by decide)
      change (Text.join [slash] ([x, colon] :: n :: ms)).head? = _
      rw [join_eq_below, hx]
      rfl

/-! ## The way to a file -/

/-- Every directory on the way to a file that an include matches is entered, unless the file is excluded. -/
theorem enters_located {s : Search} (hcase : s.caseSensitive = true) (habsolute : s.absolutePath = s.path)
    (hspec : spec ∈ s.includes) (hne : spec ≠ []) (hsegs : ∀ n ∈ segs, IsEntryName n) (hsplit : segs = pre ++ post)
    (hpre : pre ≠ []) (hpost : post ≠ []) (hm : matchesInclude s.path spec (located atRoot segs) = true)
    (hexcluded : s.filter.isExcluded (located atRoot segs) = false) : s.filter.enters (located atRoot pre) = true := by
  cases atRoot with
  | true =>
    have hbelow : ∀ {ns : List Text}, ns ≠ [] → located true ns = below ns := fun hns => absolute_of_ne_nil hns
    rw [hbelow (by simp [hsplit, hpre])] at hm hexcluded
    rw [hbelow hpre]
    exact enters_of_included (w := []) hcase habsolute hspec hne List.not_mem_nil List.not_mem_nil hsegs hsplit hpost hm
      hexcluded
  | false =>
    obtain ⟨drive, pre, rfl⟩ := List.exists_cons_of_ne_nil hpre
    have hbelow : ∀ ns : List Text, located false (drive :: ns) = drive ++ below ns := fun ns => join_eq_below drive ns
    rw [hsplit, List.cons_append] at hsegs hm hexcluded
    obtain ⟨hdrive, hrest⟩ := List.forall_mem_cons.mp hsegs
    rw [hbelow] at hm hexcluded ⊢
    exact enters_of_included hcase habsolute hspec hne hdrive.name.2 hdrive.noLineFeed hrest rfl hpost hm hexcluded

end TsProject.Glob
