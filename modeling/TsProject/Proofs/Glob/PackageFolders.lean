/-
  TsProject.Proofs.Glob.PackageFolders — package folders are entered only where they are named.

  Every segment that a wildcard takes is looked at before, and is no package folder. Only a
  component of word characters and blanks is exempt, and it takes the segment it spells. The
  directories a search starts from are not looked at, but their names are those of the path
  that is searched and of the includes. So a search that names no package folder lists none and
  finds no file in one, on any tree, whatever else it names.

  - `not_mem_packageFolders`: what a component takes is no package folder, unless it is one itself.
  - `walk_packageFree`: the directories a walk lists, and the files it finds.
-/

import TsProject.Proofs.Glob.Once
import TsProject.Proofs.Glob.Segments
import TsProject.Proofs.Glob.Spelling

namespace TsProject.Glob

open CodePoint Pattern TsProject.Path

variable {u : Usage} {c seg after rest : Text}

/-! ## Components -/

theorem visible_of_noWildcard (u : Usage) (h : c.any isWildcard = false) : visible u c = literal c := by
  rw [← spelled_of_noWildcard u h]
  unfold visible
  split
  · exact absurd h (by simp [isWildcard])
  · exact absurd h (by simp [isWildcard])
  · rfl

theorem lineFeed_not_mem_packageFolder : ∀ f ∈ packageFolders, lineFeed ∉ f := by decide

/-- What a component takes is no package folder, unless the component is. -/
theorem not_mem_packageFolders (hu : u ≠ .exclude) (hc : c ∉ packageFolders) (hstops : Stops after rest)
    (h : Leaves exact (componentPattern u c) (seg ++ after) rest) : seg ∉ packageFolders := by
  have hpattern : componentPattern u c = if isPlain c then visible u c else .seq notPackageFolder (visible u c) := by
    cases u
    · rfl
    · rfl
    · exact absurd rfl hu
  rw [hpattern] at h
  split at h
  · rename_i hplain
    rw [visible_of_noWildcard u (noWildcard_of_isPlain hplain)] at h
    obtain ⟨w, hw, hspells⟩ := (leaves_literal _ _ _).mp h
    obtain rfl := spells_exact.mp hspells
    intro hfolder
    rcases hstops.2 with rfl | ⟨rfl, rfl⟩
    · exact hc (List.append_cancel_right hw ▸ hfolder)
    · apply lineFeed_not_mem_packageFolder seg hfolder
      rw [← List.append_nil seg, hw]
      simp
  · obtain ⟨m, hahead, -⟩ := h
    rw [← isPackageFolder_exact]
    exact (not_isPackageFolder_of_leaves delimits_exact hstops.1 hahead).2

/-- Nor is what a round of a `**` takes. -/
theorem not_mem_packageFolders_round (hstops : Stops after rest) (h : Leaves exact oneDeeper (slash :: (seg ++ after)) rest) :
    seg ∉ packageFolders := by
  obtain ⟨m, ⟨x, hx, -⟩, m', hahead, -⟩ := h
  obtain ⟨-, rfl⟩ := List.cons.inj hx
  rw [← isPackageFolder_exact]
  exact (not_isPackageFolder_of_leaves delimits_exact hstops.1 hahead).2

/-! ## Searches -/

/-- A search by relative includes, none of which ends in `**`, that names no package folder. -/
structure PackageFree (s : Search) : Prop where
  caseSensitive : s.caseSensitive = true
  rooted : startsAtRoot s.path = true
  includes : s.includes ≠ []
  relative : ∀ spec ∈ s.includes, spec ≠ [] ∧ isRooted spec = false
  effective : ∀ spec ∈ s.includes, (names (resolve spec s.path)).getLast? ≠ some recursive
  path : ∀ n ∈ names (normalize s.path), n ∉ packageFolders
  specs : ∀ spec ∈ s.includes, ∀ n ∈ names (resolve spec s.path), n ∉ packageFolders

variable {t : Tree} {s : Search}

theorem absolutePath_eq_normalize (hpath : startsAtRoot s.path = true) : s.absolutePath = normalize s.path := by
  rw [Search.absolutePath, resolve_of_startsAtRoot (startsAtRoot_forwardSlashes (startsAtRoot_normalize hpath)),
    normalize_normalize]

/-- What an include of the search matches is in no package folder. -/
theorem PackageFree.of_leaves (hs : PackageFree s) (hu : u ≠ .exclude) {spec : Text} (hspec : spec ∈ s.includes) {p : Pattern}
    (hp : ofSpec? u s.absolutePath spec = some p) {x r : Text} (hr : AtLast r) (h : Leaves (sameOn s.caseSensitive) p x r) :
    ∀ n ∈ names x, n ∉ packageFolders := by
  rw [hs.caseSensitive] at h
  refine forall_names_of_leaves delimits_exact hu (fun _ _ _ => not_mem_packageFolders_round) hp (by decide) ?_ hr h
  intro c hc _ seg after rest
  apply not_mem_packageFolders hu
  rw [absolutePath_eq_normalize hs.rooted, resolve_normalize hs.rooted] at hc
  rcases hc with rfl | hc | rfl
  · decide
  · exact hs.specs spec hspec c hc
  · decide

/-- The walk is led by a pattern of directories. -/
theorem PackageFree.directories (hs : PackageFree s) : ∃ d, s.filter.directories = some d := by
  obtain ⟨spec, hspec⟩ := List.exists_mem_of_ne_nil _ hs.includes
  obtain ⟨hne, hrelative⟩ := hs.relative spec hspec
  have hof : ∃ p, ofSpec? .directories s.absolutePath spec = some p := by
    have hstart : startsAtRoot (resolve spec s.path) = true := by
      rw [resolve_relative (startsAtRoot_forwardSlashes hs.rooted) hrelative]
      exact startsAtRoot_absolute _
    rw [absolutePath_eq_normalize hs.rooted, ofSpec?_eq (resolve_normalize hs.rooted spec ▸ hstart), resolve_normalize hs.rooted,
      if_neg fun h => hs.effective spec hspec h.2]
    exact ⟨_, rfl⟩
  obtain ⟨p, hp⟩ := hof
  obtain ⟨ps, -, hps⟩ := exists_ofSpecs? hspec hne hp
  exact ⟨_, hps⟩

/-- A search starts from directories that are read under their own names, and are in no package folder. -/
theorem PackageFree.of_mem_starts (hs : PackageFree s) {v : Stop} (hv : v ∈ s.starts) :
    v.absolute = v.directory ∧ ∀ n ∈ names v.directory, n ∉ packageFolders := by
  obtain ⟨d, hd, rfl⟩ := List.mem_map.mp hv
  have hpath := normalize_rooted (startsAtRoot_forwardSlashes hs.rooted)
  have hname : ∀ n ∈ rootedNames s.path, IsPlain n := fun _ => isPlain_of_mem_rootedNames
  rw [hpath] at hd
  obtain ⟨ds, rfl, hds, hcases⟩ := mem_cover hname (fun spec h => (hs.relative spec h).2) hd
  constructor
  · change Path.resolve (absolute ds) _ = absolute ds
    rw [resolve_of_startsAtRoot (startsAtRoot_forwardSlashes (startsAtRoot_absolute ds)), normalize_absolute hds]
  · change ∀ n ∈ names (absolute ds), n ∉ packageFolders
    rw [names_absolute fun n hn => (hds n hn).name]
    rcases hcases with rfl | ⟨spec, hspec, rfl⟩
    · have hfree := hs.path
      rwa [hpath, names_absolute fun n hn => (hds n hn).name] at hfree
    · intro n hn
      apply hs.specs spec hspec
      rw [← resolve_normalize hs.rooted, hpath]
      exact baseNames_subset _ n hn

/-- So is every directory that is met. -/
theorem PackageFree.of_met (hs : PackageFree s) {v : Stop} (hv : Met t s.filter s.starts v) :
    v.absolute = v.directory ∧ ∀ n ∈ names v.directory, n ∉ packageFolders := by
  induction hv with
  | first hv => exact hs.of_mem_starts hv
  | @inner v u _ hu ih =>
    obtain ⟨n, -, henters, rfl⟩ := Stop.exists_child_of_mem_inner hu
    obtain ⟨d, hd⟩ := hs.directories
    obtain ⟨spec, hspec, p, hp, r, hr, h⟩ := exists_spec_of_enters hd henters
    rw [ih.1] at h
    refine ⟨?_, hs.of_leaves (by decide) hspec hp hr h⟩
    change entry v.absolute n = entry v.directory n
    rw [ih.1]

/-- On any tree, a search that names no package folder lists none and finds no file in one. -/
theorem walk_packageFree (hs : PackageFree s) :
    (∀ d ∈ (walk t s).listed, ∀ n ∈ names d, n ∉ packageFolders) ∧
      ∀ F ∈ matchFiles t s, ∀ n ∈ names F, n ∉ packageFolders := by
  constructor
  · intro d hd
    obtain ⟨v, hv, rfl⟩ := (mem_walk t s).1 d hd
    exact (hs.of_met hv).2
  · intro F hF
    obtain ⟨v, hv, n, -, rfl, g, hg⟩ := exists_met_of_mem_matchFiles hF
    obtain ⟨spec, hspec, p, hp, r, hr, h⟩ := exists_spec_of_groupOf hs.includes hg
    rw [(hs.of_met hv).1] at h
    exact hs.of_leaves (by decide) hspec hp hr h

/-- A project with package folders in it. -/
def vendored : Tree where
  entries d :=
    if d = Text.of "/proj" then ([Text.of "a.ts"], [Text.of "node_modules", Text.of "src"])
    else if d = Text.of "/proj/src" then ([Text.of "b.ts"], [Text.of "bower_components"])
    else ([Text.of "c.ts"], [])
  realpath d := d
  levels := 5

theorem walk_packageFree_vendored :
    let s : Search := { path := Text.of "/proj", includes := [Text.of "**/*", Text.of "*/*.ts", Text.of "./src/?ower_*/**/*"] }
    PackageFree s ∧ (walk vendored s).listed = [Text.of "/proj", Text.of "/proj/src"] ∧
      (∀ d ∈ (walk vendored s).listed, ∀ n ∈ names d, n ∉ packageFolders) ∧
      ∀ F ∈ matchFiles vendored s, ∀ n ∈ names F, n ∉ packageFolders := by
  intro s
  have hs : PackageFree s :=
    ⟨by decide, by decide, by decide, by decide, by decide, by decide, by decide⟩
  have hlisted : (walk vendored s).listed = [Text.of "/proj", Text.of "/proj/src"] := by
    rw [walk, cover_of_sorted (by decide)]
    decide
  exact ⟨hs, hlisted, walk_packageFree hs⟩

end TsProject.Glob
