/-
  TsProject.Proofs.Glob.Hidden — how a hidden entry comes to be selected.

  A wildcard at the start of a component takes no dot that begins a name, and a `**` goes
  through no hidden directory. So a hidden name is taken by a component that spells its dot.
  But the `*` at the start of a component may stand for nothing, and then what follows it
  stands at the start of the name: `*.ts` takes `.ts`, and in `*?*` the second wildcard takes
  any dot. Besides, a search starts from the base of a rooted include as that is spelled,
  with every name in it that normalization takes away.

  - `reveals_of_leaves`: how a component takes a hidden name.
  - `exists_reveals_of_mem_matchFiles`: where the hidden names of the files found come from.
-/

import TsProject.Proofs.Glob.Once
import TsProject.Proofs.Glob.PackageFolders

namespace TsProject.Glob

open CodePoint Pattern TsProject.Path

/-! ## Components -/

variable {same : CodePoint → CodePoint → Bool} {c seg after rest : Text}

/-- How a component takes a hidden name: it spells the dot, or the `*` at its start stands for nothing and what follows
that takes the name. -/
inductive Reveals (same : CodePoint → CodePoint → Bool) (c seg : Text) : Prop
  | spells : c.head? = some dot → Reveals same c seg
  | behindStar {more after rest : Text} : c = asterisk :: more → c ≠ recursive →
      (∃ x ∈ more.head?, x = dot ∨ isWildcard x = true) → Stops after rest →
      Leaves same (spelled .files more) (seg ++ after) rest → Reveals same c seg

/-- What is spelled takes a dot by a dot or by a wildcard. -/
theorem head?_of_leaves_spelled (hd : Delimits same) {u : Usage} {s : Text} (h : Leaves same (spelled u c) (dot :: s) rest)
    (hrest : rest ≠ dot :: s) : ∃ x ∈ c.head?, x = dot ∨ isWildcard x = true := by
  cases c with
  | nil => exact absurd h hrest
  | cons x c =>
    refine ⟨x, rfl, ?_⟩
    by_cases hwild : isWildcard x = true
    · exact Or.inr hwild
    · left
      rw [isWildcard_iff, not_or] at hwild
      obtain ⟨m, hfirst, -⟩ := h
      rw [piece, if_neg hwild.1, if_neg hwild.2] at hfirst
      obtain ⟨y, hy, hxy⟩ := hfirst
      obtain ⟨rfl, -⟩ := List.cons.inj hy
      exact (hd.dot x).2.mp hxy

/-- A pattern does not stop at the start of a hidden name. -/
theorem Stops.ne_hidden (h : Stops after rest) {s : Text} : rest ≠ dot :: s ++ after := by
  intro heq
  rcases h.2 with rfl | ⟨rfl, rfl⟩
  · have hlength := congrArg List.length heq
    rw [List.length_append, List.length_cons] at hlength
    omega
  · cases heq

theorem reveals_of_leaves (hd : Delimits same) (hc : c ≠ recursive) (hhidden : seg.head? = some dot)
    (hstops : Stops after rest) (h : Leaves same (componentPattern .files c) (seg ++ after) rest) : Reveals same c seg := by
  obtain ⟨s, rfl⟩ := List.head?_eq_some_iff.mp hhidden
  have hfirst : ∀ {m}, ¬ Leaves same (.noneOf [dot, slash]) (dot :: s ++ after) m := by
    rintro m ⟨x, hx, hnone⟩
    obtain ⟨rfl, -⟩ := List.cons.inj hx
    have hdot := hnone dot List.mem_cons_self
    rw [(hd.dot dot).1.mpr rfl] at hdot
    cases hdot
  have hvisible : Leaves same (visible .files c) (dot :: s ++ after) rest := by
    unfold componentPattern at h
    split at h
    · contradiction
    · split at h
      · exact h
      · obtain ⟨m, ⟨rfl, -⟩, h⟩ := h
        exact h
  unfold visible at hvisible
  split at hvisible
  · rename_i more
    obtain ⟨m, hstar, hmore⟩ := hvisible
    rcases hstar with ⟨m', hnone, -⟩ | rfl
    · exact absurd hnone hfirst
    · exact .behindStar rfl hc (head?_of_leaves_spelled hd hmore hstops.ne_hidden) hstops hmore
  · obtain ⟨m, hnone, -⟩ := hvisible
    exact absurd hnone hfirst
  · rename_i hasterisk hquestion
    obtain ⟨x, hx, hcases⟩ := head?_of_leaves_spelled hd hvisible hstops.ne_hidden
    obtain ⟨c', rfl⟩ := List.head?_eq_some_iff.mp hx
    rcases hcases with rfl | hwild
    · exact .spells rfl
    · rcases isWildcard_iff.mp hwild with rfl | rfl
      · exact absurd rfl (hasterisk c')
      · exact absurd rfl (hquestion c')

/-- A `**` goes through no hidden directory. -/
theorem not_hidden_of_round (hd : Delimits same) (h : Leaves same oneDeeper (slash :: (seg ++ after)) rest) :
    seg.head? ≠ some dot := by
  intro hhidden
  obtain ⟨s, rfl⟩ := List.head?_eq_some_iff.mp hhidden
  obtain ⟨m, ⟨x, hx, -⟩, m', ⟨rfl, -⟩, m'', ⟨y, hy, hnone⟩, -⟩ := h
  obtain ⟨-, rfl⟩ := List.cons.inj hx
  obtain ⟨rfl, -⟩ := List.cons.inj hy
  have hdot := hnone dot (by simp)
  rw [(hd.dot dot).1.mpr rfl] at hdot
  cases hdot

/-! ## Searches -/

variable {t : Tree} {s : Search}

/-- A directory that a search starts from is read under its own name, unless it is the base of a rooted include. -/
theorem absolute_eq_or_exists_of_mem_starts (hpath : startsAtRoot s.path = true) {v : Stop} (hv : v ∈ s.starts) :
    v.absolute = v.directory ∨ ∃ spec ∈ s.includes, isRooted spec = true ∧ v.directory = baseOf spec := by
  obtain ⟨d, hd, rfl⟩ := List.mem_map.mp hv
  have hread : ∀ {ns}, (∀ n ∈ ns, IsPlain n) → Path.resolve (absolute ns) (normalize s.currentDirectory) = absolute ns := by
    intro ns hns
    rw [resolve_of_startsAtRoot (startsAtRoot_forwardSlashes (startsAtRoot_absolute ns)), normalize_absolute hns]
  rw [normalize_rooted (startsAtRoot_forwardSlashes hpath)] at hd
  rcases eq_or_exists_of_mem_cover hd with rfl | ⟨spec, hspec, rfl⟩
  · exact Or.inl (hread fun _ => isPlain_of_mem_rootedNames)
  · cases hrooted : isRooted spec with
    | false =>
      left
      obtain ⟨hbase, hplain⟩ := baseOf_absoluteInclude (rootedNames s.path) hrooted
      change Path.resolve (baseOf _) _ = baseOf _
      rw [hbase, hread hplain]
    | true =>
      right
      exact ⟨spec, hspec, hrooted, by rw [absoluteInclude, if_pos hrooted]⟩

/-- A hidden name of what an include matches is revealed by a component. -/
theorem exists_reveals_of_groupOf (hpath : startsAtRoot s.path = true) (hincludes : s.includes ≠ []) {F x : Text} {g : Nat}
    (hg : s.filter.groupOf F x = some g) {n : Text} (hn : n ∈ names x) (hhidden : n.head? = some dot) :
    ∃ spec ∈ s.includes, ∃ c ∈ names (resolve spec s.path), Reveals (sameOn s.caseSensitive) c n := by
  have hd := delimits_sameOn s.caseSensitive
  obtain ⟨spec, hspec, p, hp, r, hr, h⟩ := exists_spec_of_groupOf hincludes hg
  refine ⟨spec, hspec, ?_⟩
  have hall : ∀ seg ∈ names x, seg.head? = some dot →
      ∃ c ∈ names (resolve spec s.path), Reveals (sameOn s.caseSensitive) c seg := by
    refine forall_names_of_leaves hd (by decide) ?_ hp (fun hlf => absurd hlf (by decide)) ?_ hr h
    · exact fun seg after rest _ hround hhidden => absurd hhidden (not_hidden_of_round hd hround)
    · intro c hc hne seg after rest hstops hleaves hhidden
      have hreveals := reveals_of_leaves hd hne hhidden hstops hleaves
      rw [absolutePath_eq_normalize hpath, resolve_normalize hpath] at hc
      rcases hc with rfl | hc | rfl
      · cases hreveals with
        | spells hdot => cases hdot
        | behindStar hstar => cases hstar
      · exact ⟨c, hc, hreveals⟩
      · cases hreveals with
        | spells hdot => cases hdot
        | behindStar hstar _ hmore =>
          obtain ⟨-, rfl⟩ := List.cons.inj hstar
          obtain ⟨x, hx, -⟩ := hmore
          cases hx
  exact hall n hn hhidden

/-- The hidden names of a file that is found, on any tree: each is taken by a component of an include that reveals it, or
stands in the base of a rooted include as that is spelled. -/
theorem exists_reveals_of_mem_matchFiles (hpath : startsAtRoot s.path = true) (hincludes : s.includes ≠ []) {F : Text}
    (hF : F ∈ matchFiles t s) {n : Text} (hn : n ∈ names F) (hhidden : n.head? = some dot) :
    ∃ spec ∈ s.includes, (∃ c ∈ names (resolve spec s.path), Reveals (sameOn s.caseSensitive) c n) ∨
      (isRooted spec = true ∧ n ∈ names (baseOf spec)) := by
  obtain ⟨v, hv, file, -, rfl, g, hg⟩ := exists_met_of_mem_matchFiles hF
  obtain ⟨start, hstart, ns, -, hdirectory, habsolute⟩ := hv.descends
  -- below the start of the walk, the listed and the absolute path have the same names
  rw [hdirectory, names_entry, names_descend, List.append_assoc, List.mem_append] at hn
  have hmatched : n ∈ names (entry v.absolute file) →
      ∃ spec ∈ s.includes, ∃ c ∈ names (resolve spec s.path), Reveals (sameOn s.caseSensitive) c n := fun hn =>
    exists_reveals_of_groupOf hpath hincludes hg hn hhidden
  rcases hn with hn | hn
  · rcases absolute_eq_or_exists_of_mem_starts hpath hstart with heq | ⟨spec, hspec, hrooted, hbase⟩
    · obtain ⟨spec, hspec, hreveals⟩ := hmatched (by
        rw [habsolute, names_entry, names_descend, heq]
        exact List.mem_append_left _ (List.mem_append_left _ hn))
      exact ⟨spec, hspec, Or.inl hreveals⟩
    · exact ⟨spec, hspec, Or.inr ⟨hrooted, hbase ▸ hn⟩⟩
  · obtain ⟨spec, hspec, hreveals⟩ := hmatched (by
      rw [habsolute, names_entry, names_descend, List.append_assoc]
      exact List.mem_append_right _ hn)
    exact ⟨spec, hspec, Or.inl hreveals⟩

/-- A project with a hidden file and a hidden directory. -/
def withHidden : Tree where
  entries d :=
    if d = Text.of "/proj" then ([Text.of ".env.ts"], [Text.of ".config"])
    else if d = Text.of "/proj/.config" then ([Text.of "a.ts"], [])
    else ([], [])
  realpath d := d
  levels := 5

theorem exists_reveals_of_mem_matchFiles_config :
    let s : Search := { path := Text.of "/proj", includes := [Text.of ".con*/*"] }
    startsAtRoot s.path = true ∧ s.includes ≠ [] ∧ Text.of "/proj/.config/a.ts" ∈ matchFiles withHidden s ∧
      ∃ spec ∈ s.includes, (∃ c ∈ names (resolve spec s.path), Reveals (sameOn s.caseSensitive) c (Text.of ".config")) ∨
        (isRooted spec = true ∧ Text.of ".config" ∈ names (baseOf spec)) := by
  intro s
  have hF : Text.of "/proj/.config/a.ts" ∈ matchFiles withHidden s := by
    rw [matchFiles, walk, cover_of_sorted (by decide)]
    decide
  exact ⟨by decide, by decide, hF, exists_reveals_of_mem_matchFiles (by decide) (by decide) hF (by decide) (by decide)⟩

/-- The second of two wildcards takes the dot of a hidden file. -/
theorem matchFiles_secondWildcard :
    let s : Search := { path := Text.of "/proj", includes := [Text.of "*?*"] }
    startsAtRoot s.path = true ∧ s.includes ≠ [] ∧ (∀ spec ∈ s.includes, spec ≠ []) ∧
      (∀ spec ∈ s.includes, ∀ c ∈ names (resolve spec s.path), c.head? ≠ some dot) ∧
      matchFiles withHidden s = [Text.of "/proj/.env.ts"] := by
  intro s
  refine ⟨by decide, by decide, by decide, by decide, ?_⟩
  rw [matchFiles, walk, cover_of_sorted (by decide)]
  decide

end TsProject.Glob
