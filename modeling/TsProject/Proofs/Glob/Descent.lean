/-
  TsProject.Proofs.Glob.Descent — from a file to the directories above it.

  The pattern of the directories and the excludes prune a walk. Neither loses a file:

  - `mem_components`: the components of a spec, whatever path it leads to.
  - `leaves_directories_first`: what components take as a file, they take every path on the way
    to as a directory. Before the first slash of a path stands nothing, or the drive.
  - `isMatch_directories`: the pattern of the directories matches every path on the way
    to a path that one of the includes matches.
  - `directories_cover_files`: and there is such a pattern wherever there is such an include.
  - `isMatch_exclude_append`: what excludes a directory excludes all below it.
  - `isMatch_exclude_below`: a path in normal form excludes what is below it, even if its names
    have wildcards in them.

  As built an empty include has files and no directories: `directories_emptyInclude` is a file it
  matches in a folder that the pattern of the directories refuses.
-/

import TsProject.Proofs.Glob.Alignment

namespace TsProject.Glob

open CodePoint Pattern TsProject.Path Relation

variable {same : CodePoint → CodePoint → Bool} {base spec : Text}

/-! ## The components of a spec -/

theorem names_takeWhile_append_dropWhile (p : Text) :
    names p = names (p.takeWhile (· != slash)) ++ names (p.dropWhile (· != slash)) := by
  have hcut : p.takeWhile (· != slash) ++ p.dropWhile (· != slash) = p := List.takeWhile_append_dropWhile
  cases hrest : p.dropWhile (· != slash) with
  | nil =>
    rw [hrest, List.append_nil] at hcut
    rw [hcut]
    exact (List.append_nil _).symm
  | cons c rest =>
    have hc : c = slash := by
      have hhead := List.head?_dropWhile_not (· != slash) p
      simpa [hrest] using hhead
    have hnames : names (slash :: rest) = names rest := names_append_slash [] rest
    rw [hrest, hc] at hcut
    rw [hc, hnames, ← names_append_slash, hcut]

/-- What stands before the first slash of a spec in absolute form, and the names behind it. -/
theorem exists_root (spec base : Text) : ∃ first rest, rootAndComponents spec base = (first ++ [slash], rest) ∧
    slash ∉ first ∧ names (resolve spec base) = names first ++ rest := by
  unfold rootAndComponents
  split
  · rename_i rest hresolve
    refine ⟨[], names rest, rfl, List.not_mem_nil, ?_⟩
    rw [hresolve]
    exact names_append_slash [] rest
  · refine ⟨_, _, rfl, ?_, names_takeWhile_append_dropWhile _⟩
    intro hslash
    exact absurd (List.all_eq_true.mp List.all_takeWhile slash hslash) (by simp)

/-- The components a pattern is made of are the names of the spec, or stand for what is below it. -/
theorem mem_components {c : Text} (hc : c ∈ components (rootAndComponents spec base).1 (rootAndComponents spec base).2) :
    c = [] ∨ c ∈ names (resolve spec base) ∨ c = recursive ∨ c = [asterisk] := by
  obtain ⟨first, rest, hroot, hslash, hnames⟩ := exists_root spec base
  rw [hroot, components_root hslash, List.mem_cons, List.mem_append] at hc
  rw [hnames, List.mem_append]
  rcases hc with rfl | hc | hc
  · by_cases hempty : c = []
    · exact Or.inl hempty
    · rw [names_of_isName ⟨hempty, hslash⟩]
      exact Or.inr (Or.inl (Or.inl (List.mem_singleton_self c)))
  · exact Or.inr (Or.inl (Or.inr hc))
  · split at hc
    · simp only [List.mem_cons, List.not_mem_nil, or_false] at hc
      exact Or.inr (Or.inr hc)
    · cases hc

theorem slash_not_mem_component {c : Text}
    (hc : c = [] ∨ c ∈ names (resolve spec base) ∨ c = recursive ∨ c = [asterisk]) : slash ∉ c := by
  rcases hc with rfl | hc | rfl | rfl
  · exact List.not_mem_nil
  · exact (isName_of_mem_names hc).2
  · decide
  · decide

theorem exists_components {u : Usage} {p : Pattern} (h : ofSpec? u base spec = some p) :
    ∃ cs, p = ofComponents u false cs ∧ ∀ c ∈ cs, c = [] ∨ c ∈ names (resolve spec base) ∨ c = recursive ∨ c = [asterisk] := by
  simp only [ofSpec?] at h
  split at h
  · cases h
  · exact ⟨_, (Option.some.inj h).symm, fun c hc => mem_components hc⟩

/-- The pattern of the directories is made of the same components as that of the files. -/
theorem ofSpec?_directories {p : Pattern} (h : ofSpec? .files base spec = some p) :
    ∃ cs, p = ofComponents .files false cs ∧ ofSpec? .directories base spec = some (ofComponents .directories false cs) ∧
      ∀ c ∈ cs, slash ∉ c := by
  simp only [ofSpec?, ne_eq, reduceCtorEq, not_false_eq_true, true_and] at h ⊢
  split at h
  · cases h
  · rename_i hlast
    exact ⟨_, (Option.some.inj h).symm, if_neg hlast, fun c hc => slash_not_mem_component (mem_components hc)⟩

/-! ## Several specs -/

theorem ofSpecs?_eq_some {u : Usage} {base : Text} {specs : List Text} {p : Pattern} (h : ofSpecs? u base specs = some p) :
    ∃ ps, (specs.filter (!·.isEmpty)).filterMap (ofSpec? u base) = ps ∧ ps ≠ [] ∧
      p = .seq (.group (oneOf (ps.map .group))) (terminator u) := by
  simp only [ofSpecs?] at h
  split at h
  · cases h
  · rename_i ps hps
    exact ⟨_, rfl, hps, (Option.some.inj h).symm⟩

theorem leaves_ofSpecs {u : Usage} {ps : List Pattern} (hne : ps ≠ []) (s r : Text) :
    Leaves same (.seq (.group (oneOf (ps.map .group))) (terminator u)) s r ↔
      ∃ p ∈ ps, ∃ m, Leaves same p s m ∧ Leaves same (terminator u) m r := by
  have hg : ∀ m, Leaves same (.group (oneOf (ps.map .group))) s m ↔ ∃ p ∈ ps, Leaves same p s m := by
    intro m
    change Leaves same (oneOf _) s m ↔ _
    rw [leaves_oneOf (by simpa using hne)]
    simp only [List.mem_map, exists_exists_and_eq_and]
    rfl
  constructor
  · rintro ⟨m, h1, h2⟩
    obtain ⟨p, hp, h1⟩ := (hg m).mp h1
    exact ⟨p, hp, m, h1, h2⟩
  · rintro ⟨p, hp, m, h1, h2⟩
    exact ⟨m, (hg m).mpr ⟨p, hp, h1⟩, h2⟩

/-- The pattern of one spec is part of that of all specs. -/
theorem exists_ofSpecs? {u : Usage} {base spec : Text} {specs : List Text} (hspec : spec ∈ specs) (hne : spec ≠ []) {q : Pattern}
    (hq : ofSpec? u base spec = some q) :
    ∃ ps : List Pattern, q ∈ ps ∧ ofSpecs? u base specs = some (.seq (.group (oneOf (ps.map .group))) (terminator u)) := by
  have hmem : q ∈ (specs.filter (!·.isEmpty)).filterMap (ofSpec? u base) :=
    List.mem_filterMap.mpr ⟨spec, List.mem_filter.mpr ⟨hspec, by simpa using hne⟩, hq⟩
  refine ⟨_, hmem, ?_⟩
  unfold ofSpecs?
  split
  · rename_i hnone
    rw [hnone] at hmem
    cases hmem
  · rfl

/-- More specs match no less. -/
theorem isMatch_ofSpecs_append {caseSensitive : Bool} {u : Usage} {base : Text} {specs : List Text} (more : List Text)
    {p : Pattern} (h : ofSpecs? u base specs = some p) :
    ∃ q, ofSpecs? u base (specs ++ more) = some q ∧ ∀ s, p.isMatch caseSensitive s = true → q.isMatch caseSensitive s = true := by
  obtain ⟨ps, hps, hne, rfl⟩ := ofSpecs?_eq_some h
  obtain ⟨all, hall⟩ : ∃ all, all = ps ++ (more.filter (!·.isEmpty)).filterMap (ofSpec? u base) := ⟨_, rfl⟩
  have hallNe : all ≠ [] := by simp [hall, hne]
  refine ⟨.seq (.group (oneOf (all.map .group))) (terminator u), ?_, fun s hm => ?_⟩
  · rw [ofSpecs?, List.filter_append, List.filterMap_append, hps, ← hall]
    split
    · exact absurd rfl hallNe
    · rfl
  · rw [isMatch_iff] at hm ⊢
    obtain ⟨r, hm⟩ := hm
    obtain ⟨p, hp, m, hpm⟩ := (leaves_ofSpecs hne s r).mp hm
    exact ⟨r, (leaves_ofSpecs hallNe s r).mpr ⟨p, hall ▸ List.mem_append_left _ hp, m, hpm⟩⟩

/-- What the pattern of one spec takes to the end, the pattern of all specs matches. -/
theorem isMatch_ofSpecs_of_leaves {caseSensitive : Bool} {u : Usage} (hu : u ≠ .exclude) {base spec : Text} {specs : List Text}
    (hspec : spec ∈ specs) (hne : spec ≠ []) {q p : Pattern} (hq : ofSpec? u base spec = some q)
    (hp : ofSpecs? u base specs = some p) {s : Text} (h : Leaves (sameOn caseSensitive) q s []) :
    p.isMatch caseSensitive s = true := by
  obtain ⟨ps, hmem, hps⟩ := exists_ofSpecs? hspec hne hq
  obtain rfl := Option.some.inj (hps.symm.trans hp)
  have hend : Leaves (sameOn caseSensitive) (terminator u) [] [] := by
    cases u with
    | exclude => exact absurd rfl hu
    | files => exact ⟨rfl, Or.inl rfl⟩
    | directories => exact ⟨rfl, Or.inl rfl⟩
  rw [isMatch_iff]
  exact ⟨[], (leaves_ofSpecs (List.ne_nil_of_mem hmem) _ _).mpr ⟨q, hmem, [], h, hend⟩⟩

/-! ## Directories -/

variable {segs pre : List Text} {w : Text}

/-- Every path on the way to what the components of a spec take is a directory they lead through. Before the first slash
of a path stands nothing, or the drive. -/
theorem leaves_directories_first (hd : Delimits same) {cs : List Text} (hcs : ∀ c ∈ cs, slash ∉ c) (hw : slash ∉ w)
    (hlf : lineFeed ∉ w) (hs : ∀ n ∈ segs, IsEntryName n)
    (h : Leaves same (ofComponents .files false cs) (w ++ below segs) []) (hpre : pre <+: segs) :
    Leaves same (ofComponents .directories false cs) (w ++ below pre) [] := by
  have hpres : ∀ n ∈ pre, IsEntryName n := fun n hn => hs n (hpre.subset hn)
  cases cs with
  | nil =>
    obtain ⟨hnil, hbelow⟩ := List.append_eq_nil_iff.mp (show [] = w ++ below segs from h).symm
    cases segs with
    | nil => rw [hnil, List.prefix_nil.mp hpre]; rfl
    | cons seg segs => cases hbelow
  | cons c cs =>
    obtain ⟨hc, hcs⟩ := List.forall_mem_cons.mp hcs
    by_cases hrecursive : c = recursive
    · -- a `**` starts at a slash, so nothing stands before it
      have hinner : Leaves same (ofComponents .files true (c :: cs)) (w ++ below segs) [] := by
        rwa [hrecursive, ofComponents_recursive] at h ⊢
      have hnil : w = [] := by
        cases w with
        | nil => rfl
        | cons x w =>
          have hx : x = slash := atBoundary_of_leaves_files hd hinner x rfl
          exact absurd (hx ▸ List.mem_cons_self) hw
      rw [hnil, List.nil_append] at hinner ⊢
      have hal := aligned_of_leaves_files hd (List.forall_mem_cons.mpr ⟨hc, hcs⟩) hs hinner
      have hdirectories := leaves_directories hd hs hal hpre
      rwa [hrecursive, ofComponents_recursive] at hdirectories ⊢
    · simp only [ofComponents, hrecursive, if_false, if_true, Bool.false_eq_true, reduceCtorEq] at h ⊢
      obtain ⟨m, rfl, m', hfirst, hrest⟩ := h
      obtain rfl := eq_below_of_leaves hd hc hw (atBoundary_of_leaves_files hd hrest) hfirst
      have hal := aligned_of_leaves_files hd hcs hs hrest
      exact Or.inl ⟨_, rfl, _, Takes.directories hd hw hlf hs hpres hfirst, leaves_directories hd hs hal hpre⟩

/-- Every path on the way to what an include matches is matched by the pattern of the directories. -/
theorem isMatch_directories {caseSensitive : Bool} {specs : List Text} (hspec : spec ∈ specs) (hne : spec ≠ [])
    {p d : Pattern} (hp : ofInclude? base spec = some p) (hdir : ofSpecs? .directories base specs = some d)
    (hw : slash ∉ w) (hlf : lineFeed ∉ w) (hs : ∀ n ∈ segs, IsEntryName n)
    (hm : p.isMatch caseSensitive (w ++ below segs) = true) (hpre : pre <+: segs) :
    d.isMatch caseSensitive (w ++ below pre) = true := by
  obtain ⟨q, hq, rfl⟩ := Option.map_eq_some_iff.mp hp
  obtain ⟨cs, rfl, hof, hcs⟩ := ofSpec?_directories hq
  have hnoLf : lineFeed ∉ w ++ below segs := fun hm => (List.mem_append.mp hm).elim hlf (lineFeed_not_mem_below hs)
  have hleaves := (leaves_atEnd hnoLf).mp ((isMatch_iff _ _ _).mp hm)
  exact isMatch_ofSpecs_of_leaves (by decide) hspec hne hof hdir
    (leaves_directories_first (delimits_sameOn caseSensitive) hcs hw hlf hs hleaves hpre)

/-- Where one of the non-empty includes matches a file, there is a pattern of the directories, and it matches every path on
the way to the file. -/
theorem directories_cover_files {caseSensitive : Bool} {specs : List Text} (hspec : spec ∈ specs) (hne : spec ≠ [])
    {p : Pattern} (hp : ofInclude? base spec = some p) (hw : slash ∉ w) (hlf : lineFeed ∉ w)
    (hs : ∀ n ∈ segs, IsEntryName n) (hm : p.isMatch caseSensitive (w ++ below segs) = true) :
    ∃ d, ofSpecs? .directories base specs = some d ∧
      ∀ pre, pre <+: segs → d.isMatch caseSensitive (w ++ below pre) = true := by
  obtain ⟨q, hq, -⟩ := Option.map_eq_some_iff.mp hp
  obtain ⟨cs, -, hof, -⟩ := ofSpec?_directories hq
  obtain ⟨ps, -, hdir⟩ := exists_ofSpecs? hspec hne hof
  exact ⟨_, hdir, fun pre hpre => isMatch_directories hspec hne hp hdir hw hlf hs hm hpre⟩

/-- The includes of a folder and of another one beside it, and of an empty one. -/
theorem directories_cover_files_beside :
    let base := Text.of "/proj"
    let specs := [Text.of "x/*", Text.of "src/**/*.ts", []]
    ∃ p d, ofInclude? base (Text.of "src/**/*.ts") = some p ∧ p.isMatch false (Text.of "/proj/SRC/a/b.ts") = true ∧
      ofSpecs? .directories base specs = some d ∧ d.isMatch false (Text.of "/proj/SRC/a") = true ∧
      d.isMatch false (Text.of "/proj/SRC") = true ∧ d.isMatch false (Text.of "/proj") = true := by
  intro base specs
  obtain ⟨p, hp, hm⟩ := (Option.any_eq_true (fun p => p.isMatch false (Text.of "/proj/SRC/a/b.ts"))
    (ofInclude? base (Text.of "src/**/*.ts"))).mp (by decide +kernel)
  have hspec : Text.of "src/**/*.ts" ∈ specs := List.mem_cons_of_mem _ List.mem_cons_self
  have hs : ∀ n ∈ [Text.of "proj", Text.of "SRC", Text.of "a", Text.of "b.ts"], IsEntryName n := by decide
  obtain ⟨d, hd, hcover⟩ :=
    directories_cover_files (w := []) hspec (by decide) hp List.not_mem_nil List.not_mem_nil hs hm
  exact ⟨p, d, hp, hm, hd, hcover [Text.of "proj", Text.of "SRC", Text.of "a"] (by decide),
    hcover [Text.of "proj", Text.of "SRC"] (by decide), hcover [Text.of "proj"] (by decide)⟩

/-- An empty include, which stands for the base and all below it, has no part in the pattern of the directories. -/
theorem directories_emptyInclude :
    let base := Text.of "/proj"
    ∃ p d, ofInclude? base [] = some p ∧ p.isMatch true (Text.of "/proj/y/a.ts") = true ∧
      ofSpecs? .directories base [[], Text.of "x/*"] = some d ∧ d.isMatch true (Text.of "/proj/y") = false := by
  intro base
  obtain ⟨p, hp, hm⟩ := (Option.any_eq_true (fun p => p.isMatch true (Text.of "/proj/y/a.ts")) (ofInclude? base [])).mp
    (by decide +kernel)
  obtain ⟨d, hd, hn⟩ := (Option.any_eq_true (fun d => !d.isMatch true (Text.of "/proj/y"))
    (ofSpecs? .directories base [[], Text.of "x/*"])).mp (by decide +kernel)
  exact ⟨p, d, hp, hm, hd, (Bool.not_eq_true' _).mp hn⟩

/-! ## Excludes -/

theorem looksNowhere_ofComponents (inner : Bool) (cs : List Text) :
    looksNowhere (ofComponents .exclude inner cs) = true := by
  induction cs generalizing inner with
  | nil => rfl
  | cons c cs ih =>
    by_cases hc : c = recursive
    · rw [hc, ofComponents_recursive]
      exact Bool.and_eq_true_iff.mpr ⟨by decide, ih true⟩
    · have hspelled : looksNowhere (componentPattern .exclude c) = true := looksNowhere_spelled (by decide) c
      simp only [ofComponents, hc, if_false, reduceCtorEq]
      cases inner <;> exact Bool.and_eq_true_iff.mpr ⟨rfl, Bool.and_eq_true_iff.mpr ⟨hspelled, ih true⟩⟩

theorem looksNowhere_ofSpec {base spec : Text} {p : Pattern} (h : ofSpec? .exclude base spec = some p) :
    looksNowhere p = true := by
  simp only [ofSpec?, ne_eq, not_true_eq_false, false_and, if_false, Option.some.injEq] at h
  exact h ▸ looksNowhere_ofComponents _ _

/-- What is below an excluded path is excluded, unless the path ends in a line feed: before that, the end of the
path is found too. -/
theorem isMatch_exclude_append {caseSensitive : Bool} {base : Text} {specs : List Text} {e : Pattern}
    (he : ofSpecs? .exclude base specs = some e) (hslash : sameOn caseSensitive slash slash = true) {s t : Text}
    (hs : ¬ [lineFeed] <:+ s) (hm : e.isMatch caseSensitive s = true) : e.isMatch caseSensitive (s ++ slash :: t) = true := by
  obtain ⟨ps, hps, hpne, rfl⟩ := ofSpecs?_eq_some he
  rw [isMatch_iff] at hm ⊢
  obtain ⟨r, hm⟩ := hm
  obtain ⟨p, hp, m, h1, h2⟩ := (leaves_ofSpecs hpne _ _).mp hm
  obtain ⟨spec, -, hspec⟩ := List.mem_filterMap.mp (hps ▸ hp)
  obtain ⟨w, rfl, hw⟩ := h1.regardless (looksNowhere_ofSpec hspec)
  -- the match stops where `s` ends or at a slash in it, and so it does when more follows
  have hend : ∃ r', Leaves (sameOn caseSensitive) (terminator .exclude) (m ++ slash :: t) r' := by
    rcases h2 with ⟨-, rfl | rfl⟩ | ⟨x, rfl, hx⟩
    · exact ⟨t, Or.inr ⟨slash, rfl, hslash⟩⟩
    · exact absurd (List.suffix_append w [lineFeed]) hs
    · exact ⟨_, Or.inr ⟨x, rfl, hx⟩⟩
  obtain ⟨r', hend⟩ := hend
  exact ⟨r', (leaves_ofSpecs hpne _ _).mpr ⟨p, hp, m ++ slash :: t, by rw [List.append_assoc]; exact hw _, hend⟩⟩

/-! ## A path as an exclude -/

/-- An excluded component takes its own name, whatever characters that has: a wildcard takes itself. -/
theorem leaves_spelled_self (hd : Delimits same) (hself : ∀ c, same c c = true) {c : Text} (hc : slash ∉ c) (r : Text) :
    Leaves same (spelled .exclude c) (c ++ r) r := by
  induction c with
  | nil => rfl
  | cons x c ih =>
    obtain ⟨hx, hc⟩ := List.ne_and_not_mem_of_not_mem_cons hc
    have hother : ∀ y ∈ [slash], same y x = false := by
      intro y hy
      rw [List.mem_singleton.mp hy, ← Bool.not_eq_true, (hd.slash x).1]
      exact Ne.symm hx
    have hpiece : Leaves same (piece .exclude x) (x :: (c ++ r)) (c ++ r) := by
      unfold piece
      split
      · exact (leaves_many_noneOf _ _ _).mpr ⟨[x], rfl, List.forall_mem_singleton.mpr hother⟩
      · split
        · exact ⟨x, rfl, hother⟩
        · exact ⟨x, rfl, hself x⟩
    exact ⟨c ++ r, hpiece, ih hc⟩

theorem ofComponents_exclude {c : Text} (hc : c ≠ recursive) (cs : List Text) : ofComponents .exclude true (c :: cs) =
    .seq (.char slash) (.seq (spelled .exclude c) (ofComponents .exclude true cs)) := by
  simp [ofComponents, hc, componentPattern]

/-- The names of a path, as excluded components, take the path. -/
theorem leaves_below_self (hd : Delimits same) (hself : ∀ c, same c c = true) {ns more : List Text} (hns : ∀ n ∈ ns, slash ∉ n)
    {s r : Text} (h : Leaves same (ofComponents .exclude true more) s r) :
    Leaves same (ofComponents .exclude true (ns ++ more)) (below ns ++ s) r := by
  induction ns with
  | nil => exact h
  | cons n ns ih =>
    obtain ⟨hn, hns⟩ := List.forall_mem_cons.mp hns
    rw [below_cons, List.cons_append, List.cons_append, List.append_assoc]
    by_cases hrecursive : n = recursive
    · -- `**` takes itself as one level below a slash
      rw [hrecursive, ofComponents_recursive]
      have hstars : Leaves same (.repeated .someLazy .anyInLine) (recursive ++ (below ns ++ s)) (below ns ++ s) :=
        ⟨asterisk :: (below ns ++ s), ⟨asterisk, rfl, by decide⟩, .single ⟨asterisk, rfl, by decide⟩⟩
      exact ⟨below ns ++ s, Or.inl ⟨_, ⟨slash, rfl, hself slash⟩, hstars⟩, ih hns⟩
    · rw [ofComponents_exclude hrecursive]
      exact ⟨_, ⟨slash, rfl, hself slash⟩, _, leaves_spelled_self hd hself hn _, ih hns⟩

/-- What an exclude without dot and wildcard adds to its names takes one more. -/
theorem leaves_anything (hd : Delimits same) (hself : ∀ c, same c c = true) {m : Text} (hm : slash ∉ m) (r : Text) :
    Leaves same (ofComponents .exclude true [recursive, [asterisk]]) (slash :: (m ++ r)) r := by
  rw [ofComponents_recursive, ofComponents_exclude (by decide)]
  have hother : ∀ x ∈ m, ∀ y ∈ [slash], same y x = false := by
    intro x hx y hy
    rw [List.mem_singleton.mp hy, ← Bool.not_eq_true, (hd.slash x).1]
    exact fun e => hm (e ▸ hx)
  have hstar : Leaves same (spelled .exclude [asterisk]) (m ++ r) r := ⟨r, (leaves_many_noneOf _ _ _).mpr ⟨m, rfl, hother⟩, rfl⟩
  exact ⟨_, Or.inr rfl, _, ⟨slash, rfl, hself slash⟩, r, hstar, rfl⟩

/-- A path in normal form excludes everything below it, whatever its names are. -/
theorem isMatch_exclude_below (caseSensitive : Bool) (base : Text) {specs ns : List Text} (hns : ∀ n ∈ ns, IsPlain n)
    (hspec : absolute ns ∈ specs) {m : Text} (hm : slash ∉ m) (ms : List Text) :
    ∃ e, ofSpecs? .exclude base specs = some e ∧ e.isMatch caseSensitive (below (ns ++ m :: ms)) = true := by
  have hd := delimits_sameOn caseSensitive
  have hself := sameOn_self caseSensitive
  have hname : ∀ n ∈ ns, IsName n := fun n hn => (hns n hn).name
  have hresolve : resolve (absolute ns) base = absolute ns := by
    rw [resolve_of_startsAtRoot (startsAtRoot_forwardSlashes (startsAtRoot_absolute ns)), normalize_absolute hns]
  obtain ⟨more, hmore, hcomponents⟩ : ∃ more, (more = [] ∨ more = [recursive, [asterisk]]) ∧
      specComponents (absolute ns) base = ns ++ more := by
    rw [specComponents, hresolve, names_absolute hname]
    split
    · exact ⟨_, Or.inr rfl, rfl⟩
    · exact ⟨_, Or.inl rfl, rfl⟩
  have hstart : startsAtRoot (resolve (absolute ns) base) = true := by
    rw [hresolve]
    exact startsAtRoot_absolute ns
  have hof : ofSpec? .exclude base (absolute ns) = some (ofComponents .exclude false ([] :: (ns ++ more))) := by
    rw [ofSpec?_eq hstart, if_neg fun h => h.1 rfl, hcomponents]
  obtain ⟨root, hroot⟩ := absolute_cons ns
  obtain ⟨ps, hmem, hps⟩ := exists_ofSpecs? hspec (hroot ▸ List.cons_ne_nil _ _) hof
  have hslash : ∀ t, Leaves (sameOn caseSensitive) (terminator .exclude) (slash :: t) t := fun t => Or.inr ⟨slash, rfl, hself slash⟩
  -- the pattern stops behind the names of the path, or one name further
  have hleaves : ∃ mid r, Leaves (sameOn caseSensitive) (ofComponents .exclude true (ns ++ more))
      (below ns ++ below (m :: ms)) mid ∧ Leaves (sameOn caseSensitive) (terminator .exclude) mid r := by
    rcases hmore with rfl | rfl
    · exact ⟨_, _, leaves_below_self hd hself (fun n hn => (hname n hn).2) rfl, hslash _⟩
    · refine ⟨below ms, ?_⟩
      have hmid := leaves_below_self hd hself (fun n hn => (hname n hn).2) (leaves_anything hd hself hm (below ms))
      cases ms with
      | nil => exact ⟨[], hmid, Or.inl ⟨rfl, Or.inl rfl⟩⟩
      | cons k ms => exact ⟨_, hmid, hslash _⟩
  obtain ⟨mid, r, hmid, hend⟩ := hleaves
  refine ⟨_, hps, (isMatch_iff _ _ _).mpr ⟨r, (leaves_ofSpecs (List.ne_nil_of_mem hmem) _ _).mpr ⟨_, hmem, mid, ?_, hend⟩⟩⟩
  rw [below_append, leaves_ofComponents (by decide)]
  exact hmid

end TsProject.Glob
