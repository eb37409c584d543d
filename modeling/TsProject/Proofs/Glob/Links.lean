/-
  TsProject.Proofs.Glob.Links — a directory with two names is listed under one of them.

  The walk passes over a directory whose real path it knows, while the specs are matched
  against names. So whatever has a way down to it on which every name passes is found under
  some name, unless a directory of that way is listed under another name and the way does not
  go on from there.

  - `Reaches`: a way down from a stop on which every name passes.
  - `Shadowed`: a directory of the way is listed under a name from which the way does not go on.
  - `Reaches.not_shadowed`: only a second name shadows a way.
  - `Linked`: where links lead, all is as it is where they lead to.
  - `Reaches.found_or_shadowed`: what the walk does along a way.
  - `linked_memory` / `bounded_memory`: trees in memory are linked, unless the links run out.
  - `matchFiles_reached`: a file that is reached is found, unless its way is shadowed.
-/

import TsProject.Proofs.Glob.Itinerary
import TsProject.Proofs.Glob.Once
import TsProject.Proofs.Glob.Search
import TsProject.Proofs.Links

namespace TsProject.Glob

open CodePoint TsProject.Path TsProject.Host

variable {t : Tree} {f : Filter} {s : Search}

/-! ## Ways -/

/-- The stop that some names lead down to. -/
def Stop.down (v : Stop) (ns : List Text) : Stop := ns.foldl Stop.child v

/-- The names lead down from a stop to a file, each directory on the way is entered, and the file has a group. -/
def Reaches (t : Tree) (f : Filter) (v : Stop) : List Text → Text → Prop
  | [], n => n ∈ (t.entries v.directory).1 ∧ (f.groupOf (entry v.directory n) (entry v.absolute n)).isSome = true
  | m :: ms, n => m ∈ (t.entries v.directory).2 ∧ f.enters (entry v.absolute m) = true ∧ Reaches t f (v.child m) ms n

instance decidableReaches (t : Tree) (f : Filter) (v : Stop) :
    (ns : List Text) → (n : Text) → Decidable (Reaches t f v ns n)
  | [], _ => inferInstanceAs (Decidable (_ ∧ _))
  | m :: ms, n =>
    have := decidableReaches t f (v.child m) ms n
    inferInstanceAs (Decidable (_ ∧ _ ∧ _))

/-- From a stop, the way does not go on: the next directory is not entered, or the file has no group. -/
def Blocked (f : Filter) (u : Stop) : List Text → Text → Prop
  | [], n => f.groupOf (entry u.directory n) (entry u.absolute n) = none
  | m :: _, _ => f.enters (entry u.absolute m) = false

/-- A stop that is met, and whose directory the walk lists. -/
def Visits (t : Tree) (s : Search) (u : Stop) : Prop := Met t s.filter s.starts u ∧ u.directory ∈ (walk t s).listed

/-- A directory of the way is listed under a name from which the way does not go on. -/
def Shadowed (t : Tree) (s : Search) (v : Stop) (ns : List Text) (n : Text) : Prop :=
  ∃ ms rest, ns = ms ++ rest ∧
    ∃ u, Visits t s u ∧ u.real t s.filter = (v.down ms).real t s.filter ∧ Blocked s.filter u rest n

/-- Directories that come to one real path list the same names, and what is listed in one of them comes to one real
path from either, where the walk lists the directory under one of the two names. Nothing is asked of a directory that
lists nothing, as when the links that lead to it go round in circles. -/
structure Linked (t : Tree) (s : Search) : Prop where
  entries : ∀ u v, Met t s.filter s.starts u → Met t s.filter s.starts v → u.real t s.filter = v.real t s.filter →
    t.entries u.directory = t.entries v.directory
  files : ∀ u v, Visits t s u → Met t s.filter s.starts v → u.real t s.filter = v.real t s.filter →
    ∀ n ∈ (t.entries v.directory).1, (u.child n).real t s.filter = (v.child n).real t s.filter
  directories : ∀ u v, Visits t s u → Met t s.filter s.starts v → u.real t s.filter = v.real t s.filter →
    ∀ n ∈ (t.entries v.directory).2, t.entries (v.child n).directory ≠ ([], []) →
      (u.child n).real t s.filter = (v.child n).real t s.filter

theorem Reaches.entries_ne {v : Stop} {ns : List Text} {n : Text} (h : Reaches t f v ns n) :
    t.entries v.directory ≠ ([], []) := by
  intro hnone
  cases ns with
  | nil =>
    obtain ⟨hn, -⟩ := h
    rw [hnone] at hn
    cases hn
  | cons m ms =>
    obtain ⟨hm, -⟩ := h
    rw [hnone] at hm
    cases hm

theorem Reaches.down {v : Stop} {ms rest : List Text} {n : Text} (h : Reaches t f v (ms ++ rest) n) :
    Reaches t f (v.down ms) rest n := by
  induction ms generalizing v with
  | nil => exact h
  | cons m ms ih => exact ih h.2.2

/-- Only a second name shadows a way: from the names of the way itself it goes on. -/
theorem Reaches.not_shadowed {v : Stop} {ns : List Text} {n : Text} (h : Reaches t s.filter v ns n)
    (hnames : ∀ ms rest, ns = ms ++ rest → ∀ u, Visits t s u → u.real t s.filter = (v.down ms).real t s.filter →
      u.directory = (v.down ms).directory ∧ u.absolute = (v.down ms).absolute) : ¬ Shadowed t s v ns n := by
  rintro ⟨ms, rest, hsplit, u, hu, hreal, hblocked⟩
  obtain ⟨hdirectory, habsolute⟩ := hnames ms rest hsplit u hu hreal
  have hdown : Reaches t s.filter (v.down ms) rest n := (hsplit ▸ h).down
  cases rest with
  | nil =>
    obtain ⟨-, hgroup⟩ := hdown
    rw [Blocked, hdirectory, habsolute] at hblocked
    rw [hblocked] at hgroup
    cases hgroup
  | cons m rest =>
    obtain ⟨-, henters, -⟩ := hdown
    rw [Blocked, habsolute, henters] at hblocked
    cases hblocked

theorem Shadowed.below {v : Stop} {m : Text} {ms : List Text} {n : Text} (h : Shadowed t s (v.child m) ms n) :
    Shadowed t s v (m :: ms) n := by
  obtain ⟨pre, rest, rfl, u, hu⟩ := h
  exact ⟨m :: pre, rest, rfl, u, hu⟩

/-- From each directory of the way that is listed under some name, so is the next one, or else the way is shadowed. -/
theorem Reaches.found_or_shadowed {stops : List Stop} (hcourse : Itinerary t s.filter [] s.starts stops)
    (hwalk : walk t s = Walk.after t s.filter {} stops) (hlinked : Linked t s) (hdepth : s.depth = none) {v : Stop}
    (hv : Met t s.filter s.starts v) (hlisted : ∃ u ∈ stops, u.real t s.filter = v.real t s.filter) {ns : List Text}
    {n : Text} (h : Reaches t s.filter v ns n) :
    (∃ u, Visits t s u ∧ entry u.directory n ∈ matchFiles t s ∧
      (u.child n).real t s.filter = ((v.down ns).child n).real t s.filter) ∨ Shadowed t s v ns n := by
  have hvisits : ∀ u ∈ stops, Visits t s u := by
    intro u hu
    refine ⟨hcourse.met (fun _ => .first) u hu, ?_⟩
    rw [hwalk, listed_after]
    exact List.mem_append_right _ (List.mem_map_of_mem hu)
  have hunbounded : ∀ w, Met t s.filter s.starts w → w.depth = none := by
    refine fun w => Met.depth_eq_none fun start hstart => ?_
    obtain ⟨base, -, rfl⟩ := List.mem_map.mp hstart
    exact hdepth
  -- the stop that is listed under some name is followed down the way
  induction ns generalizing v with
  | nil =>
    obtain ⟨u, hu, hreal⟩ := hlisted
    obtain ⟨hn, -⟩ := h
    have hn' : n ∈ (t.entries u.directory).1 := by
      rw [hlinked.entries u v (hvisits u hu).1 hv hreal]
      exact hn
    cases hgroup : s.filter.groupOf (entry u.directory n) (entry u.absolute n) with
    | none => exact Or.inr ⟨[], [], rfl, u, hvisits u hu, hreal, hgroup⟩
    | some g =>
      refine Or.inl ⟨u, hvisits u hu, ?_, hlinked.files u v (hvisits u hu) hv hreal n hn⟩
      exact (mem_matchFiles_of_course hwalk).mpr ⟨u, hu, n, hn', rfl, g, hgroup⟩
  | cons m ms ih =>
    obtain ⟨u, hu, hreal⟩ := hlisted
    obtain ⟨hm, henters, hrest⟩ := h
    have hm' : m ∈ (t.entries u.directory).2 := by
      rw [hlinked.entries u v (hvisits u hu).1 hv hreal]
      exact hm
    cases hgoes : s.filter.enters (entry u.absolute m) with
    | false => exact Or.inr ⟨[], m :: ms, rfl, u, hvisits u hu, hreal, hgoes⟩
    | true =>
      have hinner : u.child m ∈ u.inner t s.filter := Stop.child_mem_inner (hunbounded u (hvisits u hu).1) hm' hgoes
      have hmet : Met t s.filter s.starts (v.child m) := .inner hv (Stop.child_mem_inner (hunbounded v hv) hm henters)
      obtain ⟨w, hw, hsame⟩ := (hcourse.closed.2 u hu _ hinner).resolve_left List.not_mem_nil
      have hnext : w.real t s.filter = (v.child m).real t s.filter :=
        hsame.trans (hlinked.directories u v (hvisits u hu) hv hreal m hm hrest.entries_ne)
      exact (ih hmet ⟨w, hw, hnext⟩ hrest).imp_right Shadowed.below

/-! ## Trees in memory -/

variable {m : Memory}

/-- What a search by relative includes meets in memory lies below the root, under its own name. -/
theorem Ordinary.met_memory (hm : m.LinksApart) (hs : Ordinary s) {v : Stop} (h : Met m.tree s.filter s.starts v) :
    v.directory = v.absolute ∧ IsNamed v.absolute := by
  induction h with
  | first hv =>
    obtain ⟨ns, hpath, hns⟩ := hs.path
    obtain ⟨d, hd, rfl⟩ := List.mem_map.mp hv
    rw [hs.normalized, hpath] at hd
    obtain ⟨ds, rfl, hds, -⟩ := mem_cover hns (fun spec hspec => (hs.relative spec hspec).2) hd
    have hresolve : Path.resolve (absolute ds) (normalize s.currentDirectory) = absolute ds := by
      rw [resolve_of_startsAtRoot (startsAtRoot_forwardSlashes (startsAtRoot_absolute ds)), normalize_absolute hds]
    rw [hresolve]
    exact ⟨rfl, ds, rfl, fun n hn => (hds n hn).name⟩
  | @inner v u _ hu ih =>
    obtain ⟨n, hn, -, rfl⟩ := Stop.exists_child_of_mem_inner hu
    obtain ⟨hsame, ns, hpath, hns⟩ := ih
    obtain ⟨-, hname, -⟩ := hm.entry_mem (List.subset_append_right _ _) hn
    refine ⟨congrArg (entry · n) hsame, ns ++ [n], ?_, ?_⟩
    · change entry v.absolute n = _
      rw [hpath, entry_absolute hns]
    · exact List.forall_mem_append.mpr ⟨hns, List.forall_mem_singleton.mpr hname⟩

/-- In memory all is the same where links lead and where they lead to, as long as no directory that is listed has an
entry from which more links are left than are followed. -/
theorem linked_memory (hm : m.LinksApart) (hs : Ordinary s)
    (hends : ∀ d ∈ (walk m.tree s).listed, ∀ n ∈ (m.entries d).2, m.followOnce (m.realpath (entry d n)) = none) :
    Linked m.tree s := by
  have hreal : ∀ v : Stop, v.real m.tree s.filter = m.realpath v.absolute := fun v => Stop.real_eq hs.caseSensitive
  have hentries : ∀ u v, Met m.tree s.filter s.starts u → Met m.tree s.filter s.starts v →
      u.real m.tree s.filter = v.real m.tree s.filter → m.entries u.directory = m.entries v.directory := by
    intro u v hu hv h
    rw [hreal, hreal] at h
    rw [(hs.met_memory hm hu).1, (hs.met_memory hm hv).1, Memory.entries, Memory.entries, h]
  constructor
  · exact hentries
  · intro u v hu hv h n hn
    obtain ⟨hsame, hnamed⟩ := hs.met_memory hm hu.1
    obtain ⟨hsame', hnamed'⟩ := hs.met_memory hm hv
    have hn' : n ∈ (m.entries u.directory).1 := by
      rw [hentries u v hu.1 hv h]
      exact hn
    change n ∈ (m.entries v.directory).1 at hn
    rw [hsame'] at hn
    rw [hsame] at hn'
    rw [hreal, hreal] at h ⊢
    exact (hm.realpath_file hnamed hn').trans (h ▸ (hm.realpath_file hnamed' hn).symm)
  · intro u v hu hv h n hn hlists
    obtain ⟨hsame, hnamed⟩ := hs.met_memory hm hu.1
    obtain ⟨hsame', hnamed'⟩ := hs.met_memory hm hv
    have hn' : n ∈ (m.entries u.directory).2 := by
      rw [hentries u v hu.1 hv h]
      exact hn
    have hend := hends u.directory hu.2 n hn'
    have hend' := hm.followOnce_realpath hlists
    change m.followOnce (m.realpath (entry v.directory n)) = none at hend'
    rw [hsame'] at hend'
    rw [hsame] at hn' hend
    rw [hreal, hreal] at h ⊢
    exact hm.realpath_directory hnamed hnamed' h hn' hend hend'

/-- The real paths are those of the listed directories, and what comes of following their links. -/
theorem bounded_memory (hm : m.LinksApart) (hs : Ordinary s) : Bounded m.tree s := by
  refine ⟨m.allDirectories.flatMap fun p => (List.range (Memory.linkLimit + 1)).map fun i => m.follow i p, ?_, ?_⟩
  · intro v hv u hu
    obtain ⟨n, hn, -, rfl⟩ := Stop.exists_child_of_mem_inner hu
    obtain ⟨hsame, hnamed⟩ := hs.met_memory hm hv
    change n ∈ (m.entries v.directory).2 at hn
    rw [hsame] at hn
    obtain ⟨hreal, hname, hmem⟩ := hm.entry_mem (List.subset_append_right _ _) hn
    obtain ⟨i, hi, hfollow⟩ :=
      hm.exists_realpath_entry hnamed (hm.followOnce_eq_none hreal (List.mem_append_right _ hmem))
    rw [Stop.real_eq hs.caseSensitive]
    change m.realpath (entry v.absolute n) ∈ _
    rw [hfollow n hname.2]
    exact List.mem_flatMap.mpr ⟨_, hmem, List.mem_map_of_mem (List.mem_range.mpr (Nat.lt_succ_of_le hi))⟩
  · change _ < (m.allDirectories.length + 2) * (Memory.linkLimit + 2)
    simp only [List.length_flatMap, List.length_map, List.length_range, List.map_const', List.sum_replicate_nat]
    exact Nat.mul_lt_mul'' (by omega) (Nat.lt_succ_self _)

/-! ## What is reached -/

/-- A file that is reached from a start of the search, with every name on the way let through, is found under some name
with its real path, unless a directory of the way is listed under a name from which the way does not go on. -/
theorem matchFiles_reached (hbounded : Bounded t s) (hlinked : Linked t s) (hcase : s.caseSensitive = true)
    (hdepth : s.depth = none) {v : Stop} (hv : v ∈ s.starts) {ns : List Text} {n : Text} (h : Reaches t s.filter v ns n) :
    (∃ u, Visits t s u ∧ entry u.directory n ∈ matchFiles t s ∧
      t.realpath (entry u.absolute n) = t.realpath (entry (v.down ns).absolute n)) ∨ Shadowed t s v ns n := by
  obtain ⟨stops, hcourse, hwalk⟩ := walk_follows hbounded
  have hitinerary : Itinerary t s.filter [] s.starts stops := (hcourse stops).mpr rfl
  have hlisted := (hitinerary.closed.1 v hv).resolve_left List.not_mem_nil
  refine (h.found_or_shadowed hitinerary hwalk hlinked hdepth (.first hv) hlisted).imp_left ?_
  rintro ⟨u, hu, hfound, hreal⟩
  rw [Stop.real_eq hcase, Stop.real_eq hcase] at hreal
  exact ⟨u, hu, hfound, hreal⟩

/-- A link leads back to the directory that is searched, and the way to the file goes through it. -/
theorem matchFiles_reached_loop :
    let m : Memory := { files := [(Text.of "/proj/src/a.ts", none)], links := [(Text.of "/proj/src/up", Text.of "/proj")] }
    let s : Search := { path := Text.of "/proj", includes := [Text.of "**/*"] }
    let v : Stop := ⟨Text.of "/proj", Text.of "/proj", none⟩
    let ns := [Text.of "src", Text.of "up", Text.of "src"]
    let n := Text.of "a.ts"
    (Bounded m.tree s ∧ Linked m.tree s ∧ v ∈ s.starts ∧ Reaches m.tree s.filter v ns n) ∧
      (walk m.tree s).listed = [Text.of "/proj", Text.of "/proj/src"] ∧
      ((∃ u, Visits m.tree s u ∧ entry u.directory n ∈ matchFiles m.tree s ∧
        m.tree.realpath (entry u.absolute n) = m.tree.realpath (entry (v.down ns).absolute n)) ∨
          Shadowed m.tree s v ns n) := by
  intro m s v ns n
  have hm : m.LinksApart := ⟨rfl, by decide, by decide, by decide, by decide⟩
  have hs : Ordinary s := ⟨rfl, rfl, rfl, by decide, by decide, by decide⟩
  have hlisted : (walk m.tree s).listed = [Text.of "/proj", Text.of "/proj/src"] := by decide +kernel
  have hbounded : Bounded m.tree s := bounded_memory hm hs
  have hlinked : Linked m.tree s := by
    apply linked_memory hm hs
    rw [hlisted]
    decide +kernel
  have hv : v ∈ s.starts := by decide +kernel
  have hreaches : Reaches m.tree s.filter v ns n := by decide +kernel
  exact ⟨⟨hbounded, hlinked, hv, hreaches⟩, hlisted, matchFiles_reached hbounded hlinked rfl rfl hv hreaches⟩

/-- The library is listed under the link, for the sake of an include that leads further, and the include for the
library itself does not let its files through under that name. -/
theorem matchFiles_shadowed :
    let m : Memory := { files := [(Text.of "/lib/f.ts", none)], links := [(Text.of "/proj/a", Text.of "/lib")] }
    let s : Search := { path := Text.of "/proj", includes := [Text.of "../lib/*.ts", Text.of "a/sub/*.ts"] }
    let v : Stop := ⟨Text.of "/lib", Text.of "/lib", none⟩
    (m.LinksApart ∧ Ordinary s ∧ v ∈ s.starts ∧ Reaches m.tree s.filter v [] (Text.of "f.ts")) ∧
      matchFiles m.tree s = [] := by
  intro m s v
  have hcover : cover s.caseSensitive (normalize s.path) s.includes = [Text.of "/proj", Text.of "/lib"] := by
    rw [cover_of_sorted (by decide)]
    decide +kernel
  have hm : m.LinksApart := ⟨rfl, by decide, by decide, by decide, by decide⟩
  have hs : Ordinary s := ⟨rfl, rfl, rfl, by decide, by decide, by decide⟩
  refine ⟨⟨hm, hs, ?_, ?_⟩, ?_⟩
  · rw [Search.starts, hcover]
    decide +kernel
  · decide +kernel
  · rw [matchFiles, walk, hcover]
    decide +kernel

end TsProject.Glob
