/-
  TsProject.Proofs.Glob.Subtree — what is excluded with a directory.

  What excludes a path excludes everything below it. An exclude without wildcards is a path,
  and excludes the subtree there: everything below the path, and the path itself only if its
  last name has a dot. One without a dot is taken for a directory, and the directory is left
  in with nothing in it. A name that only begins like the last one is never taken.

  - `exists_trunk`: the components of a spec are its path, cut at its slashes.
  - `leaves_trunk`: components without wildcards take themselves.
  - `isMatch_exclude_iff`: what a single exclude without wildcards matches.
  - `exclude_subtree`: excludes are closed downwards, and what one of them excludes.
-/

import TsProject.Proofs.Glob.Cover
import TsProject.Proofs.Glob.Descent
import TsProject.Proofs.Glob.Includes

namespace TsProject.Glob

open CodePoint Pattern TsProject.Path

variable {same : CodePoint → CodePoint → Bool} {base spec first w p r s : Text} {rest ns more : List Text}

/-! ## Trunks -/

/-- The directory whose entries begin with the trunk and a slash. -/
def ofTrunk (w : Text) : Text := if w = [] then [slash] else w

theorem entry_ofTrunk (hw : ∀ c ∈ w.getLast?, c ≠ slash) (r : Text) : entry (ofTrunk w) r = w ++ slash :: r := by
  by_cases hnil : w = []
  · rw [hnil]
    rfl
  · have hends : ¬ Text.endsWith w [slash] = true := by
      intro h
      obtain ⟨t, rfl⟩ := endsWith_slash_iff.mp h
      exact hw slash (by simp) rfl
    rw [ofTrunk, if_neg hnil, entry, if_neg (by simpa using hnil), if_neg hends]

theorem getLast?_trunk (hfirst : slash ∉ first) (hrest : ∀ n ∈ rest, IsName n) :
    ∀ c ∈ (first ++ below rest).getLast?, c ≠ slash := by
  intro c hc
  cases rest with
  | nil =>
    rw [below_nil, List.append_nil] at hc
    exact fun e => hfirst (e ▸ List.mem_of_getLast? hc)
  | cons n ns =>
    rw [List.getLast?_append_of_ne_nil _ (by simp)] at hc
    exact getLast?_below_ne_slash hrest c hc

/-- The components of a spec are its path, cut at its slashes. -/
theorem exists_trunk (hspec : spec ≠ []) (base : Text) : ∃ first rest, slash ∉ first ∧ (∀ n ∈ rest, IsName n) ∧
    resolve spec base = ofTrunk (first ++ below rest) ∧ rootAndComponents spec base = (first ++ [slash], rest) := by
  obtain ⟨p, hp, hresolve⟩ : ∃ p, p ≠ [] ∧ resolve spec base = normalize p := by
    refine ⟨_, ?_, rfl⟩
    have hspec' : forwardSlashes spec ≠ [] := by simpa [forwardSlashes] using hspec
    unfold join
    split_ifs <;> simp [hspec']
  cases hroot : startsAtRoot (forwardSlashes p) with
  | true =>
    have hname : ∀ n ∈ rootedNames p, IsName n := fun n hn => (isPlain_of_mem_rootedNames hn).name
    have habsolute : resolve spec base = absolute (rootedNames p) := by rw [hresolve, normalize_rooted hroot]
    refine ⟨[], rootedNames p, List.not_mem_nil, hname, ?_, ?_⟩
    · rw [habsolute, ← below_or_root, ofTrunk, List.nil_append]
      simp only [List.isEmpty_iff]
    · have hstart : startsAtRoot (resolve spec base) = true := by rw [habsolute, startsAtRoot_absolute]
      rw [rootAndComponents_of_startsAtRoot hstart, habsolute, names_absolute hname]
      rfl
  | false =>
    obtain ⟨n, ns, hnames, hjoin⟩ : ∃ n ns, (∀ m ∈ n :: ns, IsName m) ∧ resolve spec base = n ++ below ns := by
      rw [hresolve, normalize_unrooted hp hroot]
      split
      · exact ⟨dotSegment, [], by decide, by simp⟩
      · rename_i hne
        obtain ⟨n, ns, hns⟩ := List.exists_cons_of_ne_nil hne
        refine ⟨n, ns, fun m hm => ?_, by rw [hns, join_eq_below]⟩
        exact (mem_fold_segments (b := false) (p := p) (hns ▸ hm)).1
    obtain ⟨hn, hns⟩ := List.forall_mem_cons.mp hnames
    have hne : n ++ below ns ≠ [] := List.append_ne_nil_of_left_ne_nil hn.1 _
    exact ⟨n, ns, hn.2, hns, by rw [hjoin, ofTrunk, if_neg hne], rootAndComponents_of_names hjoin hn hns⟩

/-- Whether the last component has a dot is seen from the path. -/
theorem dot_mem_baseName_iff (hfirst : slash ∉ first) (hrest : ∀ n ∈ rest, IsName n) :
    dot ∈ baseName (ofTrunk (first ++ below rest)) ↔ dot ∈ rest.getLast?.getD (first ++ [slash]) := by
  cases hlast : rest.getLast? with
  | none =>
    rw [List.getLast?_eq_none_iff.mp hlast, below_nil, List.append_nil, Option.getD_none]
    by_cases hnil : first = []
    · rw [hnil]
      decide
    · have hslash : dot ∉ [slash] := by decide
      rw [ofTrunk, if_neg hnil, baseName, Text.afterLast_of_not_mem hfirst, List.mem_append, or_iff_left hslash]
  | some n =>
    obtain ⟨ms, rfl⟩ := List.getLast?_eq_some_iff.mp hlast
    have hn : slash ∉ n := (hrest n (by simp)).2
    have hne : first ++ below (ms ++ [n]) ≠ [] := by simp
    rw [ofTrunk, if_neg hne, below_append, below_cons, below_nil, List.append_nil, ← List.append_assoc, baseName,
      Text.afterLast_append _ _ hn, Option.getD_some]

theorem isImplicit_iff {c : Text} (hc : hasWildcard c = false) : isImplicit c = true ↔ dot ∉ c := by
  refine ⟨fun h hdot => ?_, fun h => isImplicit_of_noWildcard h hc⟩
  exact absurd (List.all_eq_true.mp h dot hdot) (by decide)

/-! ## Components without wildcards -/

theorem ne_recursive_of_noWildcard {c : Text} (hc : hasWildcard c = false) : c ≠ recursive := by
  rintro rfl
  cases hc

theorem leaves_names (hns : ∀ n ∈ ns, hasWildcard n = false) (s r : Text) :
    Leaves same (ofComponents .exclude true (ns ++ more)) s r ↔
      ∃ m, Leaves same (literal (below ns)) s m ∧ Leaves same (ofComponents .exclude true more) m r := by
  induction ns generalizing s with
  | nil => exact ⟨fun h => ⟨s, rfl, h⟩, fun ⟨m, hm, h⟩ => (show m = s from hm) ▸ h⟩
  | cons n ns ih =>
    obtain ⟨hn, hns⟩ := List.forall_mem_cons.mp hns
    rw [List.cons_append, ofComponents_exclude (ne_recursive_of_noWildcard hn), spelled_of_noWildcard _ hn, below_cons]
    constructor
    · rintro ⟨t, hslash, m, hname, h⟩
      obtain ⟨m', hbelow, h⟩ := (ih hns m).mp h
      exact ⟨m', ⟨t, hslash, (leaves_literal_append _ _ _ _).mpr ⟨m, hname, hbelow⟩⟩, h⟩
    · rintro ⟨m', ⟨t, hslash, h'⟩, h⟩
      obtain ⟨m, hname, hbelow⟩ := (leaves_literal_append _ _ _ _).mp h'
      exact ⟨t, hslash, m, hname, (ih hns m).mpr ⟨m', hbelow, h⟩⟩

/-- Components without wildcards take themselves, up to letters that count as the same. -/
theorem leaves_trunk (hfirst : hasWildcard first = false) (hrest : ∀ n ∈ rest, hasWildcard n = false) (s r : Text) :
    Leaves same (ofComponents .exclude false (first :: (rest ++ more))) s r ↔
      ∃ w m, s = w ++ m ∧ Spells same (first ++ below rest) w ∧ Leaves same (ofComponents .exclude true more) m r := by
  have heq : ofComponents .exclude false (first :: (rest ++ more)) =
      .seq .empty (.seq (literal first) (ofComponents .exclude true (rest ++ more))) := by
    simp [ofComponents, ne_recursive_of_noWildcard hfirst, componentPattern, spelled_of_noWildcard _ hfirst]
  have hliteral : Leaves same (ofComponents .exclude false (first :: (rest ++ more))) s r ↔
      ∃ m, Leaves same (literal (first ++ below rest)) s m ∧ Leaves same (ofComponents .exclude true more) m r := by
    rw [heq]
    constructor
    · rintro ⟨t, ht, m, hname, h⟩
      obtain rfl : t = s := ht
      obtain ⟨m', hbelow, h⟩ := (leaves_names hrest m r).mp h
      exact ⟨m', (leaves_literal_append _ _ _ _).mpr ⟨m, hname, hbelow⟩, h⟩
    · rintro ⟨m', h', h⟩
      obtain ⟨m, hname, hbelow⟩ := (leaves_literal_append _ _ _ _).mp h'
      exact ⟨s, rfl, m, hname, (leaves_names hrest m r).mpr ⟨m', hbelow, h⟩⟩
  rw [hliteral]
  constructor
  · rintro ⟨m, h', h⟩
    obtain ⟨w, rfl, hw⟩ := (leaves_literal _ _ _).mp h'
    exact ⟨w, m, rfl, hw, h⟩
  · rintro ⟨w, m, rfl, hw, h⟩
    exact ⟨m, (leaves_literal _ _ _).mpr ⟨w, rfl, hw⟩, h⟩

/-! ## Where an exclude ends -/

/-- A name has been taken as a whole, or the one that a directory stands for below it. -/
theorem leaves_terminator (hd : Delimits same) {m : Text} (hm : ¬ [lineFeed] <:+ m) :
    (∃ r, Leaves same (terminator .exclude) m r) ↔ m = [] ∨ ∃ t, m = slash :: t := by
  constructor
  · rintro ⟨r, ⟨-, rfl | rfl⟩ | ⟨x, rfl, hx⟩⟩
    · exact Or.inl rfl
    · exact absurd (List.suffix_refl _) hm
    · exact Or.inr ⟨r, by rw [(hd.slash x).1.mp hx]⟩
  · rintro (rfl | ⟨t, rfl⟩)
    · exact ⟨[], Or.inl ⟨rfl, Or.inl rfl⟩⟩
    · exact ⟨t, Or.inr ⟨slash, rfl, (hd.slash slash).1.mpr rfl⟩⟩

theorem leaves_subtree (hd : Delimits same) (hself : ∀ c, same c c = true) {m : Text} :
    (∃ k r, Leaves same (ofComponents .exclude true [recursive, [asterisk]]) m k ∧ Leaves same (terminator .exclude) k r) ↔
      ∃ t, m = slash :: t := by
  constructor
  · rintro ⟨k, r, h, -⟩
    rw [ofComponents_recursive, ofComponents_exclude (by decide)] at h
    obtain ⟨m', hany, k', hslash, -⟩ := h
    obtain ⟨x, hm', hx⟩ := hslash
    rcases hany with ⟨t, ⟨y, rfl, hy⟩, -⟩ | rfl
    · exact ⟨t, by rw [(hd.slash y).1.mp hy]⟩
    · exact ⟨k', by rw [hm', (hd.slash x).1.mp hx]⟩
  · rintro ⟨t, rfl⟩
    -- one name is taken by the `*`, and the rest is at its end or at a slash
    have hname : slash ∉ t.takeWhile (· != slash) := by
      intro h
      exact absurd (List.all_eq_true.mp List.all_takeWhile slash h) (by simp)
    have hmid := leaves_anything hd hself hname (t.dropWhile (· != slash))
    rw [List.takeWhile_append_dropWhile] at hmid
    cases hrest : t.dropWhile (· != slash) with
    | nil => exact ⟨_, [], hrest ▸ hmid, Or.inl ⟨rfl, Or.inl rfl⟩⟩
    | cons x t' =>
      have hx : x = slash := by simpa [hrest] using List.head?_dropWhile_not (· != slash) t
      exact ⟨_, t', hrest ▸ hmid, Or.inr ⟨x, rfl, (hd.slash x).1.mpr hx⟩⟩

/-- What components without wildcards take, and then nothing, or a slash; only a slash if they stand for what is below
a directory. -/
theorem leaves_trunk_ended (hd : Delimits same) (hself : ∀ c, same c c = true) (hfirst : hasWildcard first = false)
    (hrest : ∀ n ∈ rest, hasWildcard n = false) (hp : ¬ [lineFeed] <:+ p) (directory : Bool) :
    (∃ k r, Leaves same (ofComponents .exclude false (first :: (rest ++ if directory then [recursive, [asterisk]] else []))) p k ∧
        Leaves same (terminator .exclude) k r) ↔
      ∃ w m, p = w ++ m ∧ Spells same (first ++ below rest) w ∧ ((∃ t, m = slash :: t) ∨ (m = [] ∧ directory = false)) := by
  cases directory with
  | true =>
    simp only [if_true, reduceCtorEq, and_false, or_false, leaves_trunk hfirst hrest]
    constructor
    · rintro ⟨k, r, ⟨w, m, hp, hw, hsubtree⟩, hend⟩
      exact ⟨w, m, hp, hw, (leaves_subtree hd hself).mp ⟨k, r, hsubtree, hend⟩⟩
    · rintro ⟨w, m, hp, hw, hslash⟩
      obtain ⟨k, r, hsubtree, hend⟩ := (leaves_subtree hd hself).mpr hslash
      exact ⟨k, r, ⟨w, m, hp, hw, hsubtree⟩, hend⟩
  | false =>
    simp only [if_false, Bool.false_eq_true, and_true, leaves_trunk hfirst hrest]
    have hterminator : ∀ {w m}, p = w ++ m → ((∃ r, Leaves same (terminator .exclude) m r) ↔ m = [] ∨ ∃ t, m = slash :: t) := by
      rintro w m rfl
      exact leaves_terminator hd fun hm => hp (hm.trans (List.suffix_append w m))
    constructor
    · rintro ⟨k, r, ⟨w, m, hp, hw, rfl⟩, hend⟩
      exact ⟨w, k, hp, hw, ((hterminator hp).mp ⟨r, hend⟩).symm⟩
    · rintro ⟨w, m, hp, hw, hm⟩
      obtain ⟨r, hend⟩ := (hterminator hp).mpr hm.symm
      exact ⟨m, r, ⟨w, m, hp, hw, rfl⟩, hend⟩

/-! ## A path as an exclude -/

theorem spells_ofTrunk (hd : Delimits same) {d : Text} :
    Spells same (ofTrunk w) d ↔ ∃ w', Spells same w w' ∧ d = ofTrunk w' := by
  by_cases hnil : w = []
  · subst hnil
    constructor
    · intro h
      obtain ⟨x, d', hx, hd', rfl⟩ := List.forall₂_cons_left_iff.mp h
      obtain rfl := List.forall₂_nil_left_iff.mp hd'
      exact ⟨[], .nil, by rw [(hd.slash x).1.mp hx]; rfl⟩
    · rintro ⟨w', hw', rfl⟩
      obtain rfl := List.forall₂_nil_left_iff.mp hw'
      exact .cons ((hd.slash slash).1.mpr rfl) .nil
  · have hne : ∀ {w'}, Spells same w w' → ofTrunk w' = w' := by
      intro w' h
      refine if_neg ?_
      rintro rfl
      exact hnil (List.forall₂_nil_right_iff.mp h)
    rw [ofTrunk, if_neg hnil]
    exact ⟨fun h => ⟨d, h, (hne h).symm⟩, fun ⟨w', h, hw'⟩ => by rw [hw', hne h]; exact h⟩

theorem hasWildcard_ofTrunk (w : Text) : hasWildcard (ofTrunk w) = hasWildcard w := by
  unfold ofTrunk
  split
  · rename_i hnil
    rw [hnil]
    decide
  · rfl

/-- A trunk that is spelled still does not end in a slash. -/
theorem getLast?_ne_slash_of_spells (hd : Delimits same) (hw : ∀ c ∈ w.getLast?, c ≠ slash) (h : Spells same w s) :
    ∀ c ∈ s.getLast?, c ≠ slash := by
  have hreverse : Spells same w.reverse s.reverse := List.rel_reverse h
  rw [← List.head?_reverse] at hw ⊢
  cases hw' : w.reverse with
  | nil =>
    rw [hw'] at hreverse
    rw [List.forall₂_nil_left_iff.mp hreverse]
    nofun
  | cons x w' =>
    rw [hw'] at hreverse hw
    obtain ⟨y, s', hxy, -, hs'⟩ := List.forall₂_cons_left_iff.mp hreverse
    rw [hs']
    intro c hc hslash
    obtain rfl : y = c := by simpa using hc
    exact hw x rfl ((hd.slash x).2.mp (hslash ▸ hxy))

/-- A trunk, and then nothing or a slash, is a path or an entry of it. -/
theorem spells_entry (hd : Delimits same) (hw : ∀ c ∈ w.getLast?, c ≠ slash) {directory : Bool}
    (hroot : w = [] → directory = true) :
    (∃ w' m, p = w' ++ m ∧ Spells same w w' ∧ ((∃ t, m = slash :: t) ∨ (m = [] ∧ directory = false))) ↔
      ∃ d, Spells same (ofTrunk w) d ∧ ((∃ r, p = entry d r) ∨ (p = d ∧ directory = false)) := by
  have hself : directory = false → ∀ {w'}, Spells same w w' → ofTrunk w' = w' := by
    rintro hfile w' h
    refine if_neg ?_
    rintro rfl
    rw [hroot (List.forall₂_nil_right_iff.mp h)] at hfile
    cases hfile
  constructor
  · rintro ⟨w', m, rfl, h, ⟨t, rfl⟩ | ⟨rfl, hfile⟩⟩
    · exact ⟨ofTrunk w', (spells_ofTrunk hd).mpr ⟨w', h, rfl⟩,
        Or.inl ⟨t, (entry_ofTrunk (getLast?_ne_slash_of_spells hd hw h) t).symm⟩⟩
    · exact ⟨ofTrunk w', (spells_ofTrunk hd).mpr ⟨w', h, rfl⟩,
        Or.inr ⟨by rw [List.append_nil, hself hfile h], hfile⟩⟩
  · rintro ⟨d, hspells, hp⟩
    obtain ⟨w', h, rfl⟩ := (spells_ofTrunk hd).mp hspells
    rcases hp with ⟨t, rfl⟩ | ⟨rfl, hfile⟩
    · exact ⟨w', slash :: t, entry_ofTrunk (getLast?_ne_slash_of_spells hd hw h) t, h, Or.inl ⟨t, rfl⟩⟩
    · exact ⟨w', [], by rw [hself hfile h, List.append_nil], h, Or.inr ⟨rfl, hfile⟩⟩

/-- The pattern of one spec, and where it may end. -/
theorem isMatch_ofSpec {u : Usage} {q : Pattern} (hspec : spec ≠ []) (hq : ofSpec? u base spec = some q) :
    ∃ e, ofSpecs? u base [spec] = some e ∧ ∀ caseSensitive p, e.isMatch caseSensitive p = true ↔
      ∃ m r, Leaves (sameOn caseSensitive) q p m ∧ Leaves (sameOn caseSensitive) (terminator u) m r := by
  have hempty : (!spec.isEmpty) = true := by simpa using hspec
  have hpatterns : ([spec].filter (!·.isEmpty)).filterMap (ofSpec? u base) = [q] := by simp [hempty, hq]
  refine ⟨_, by rw [ofSpecs?, hpatterns], fun caseSensitive p => ?_⟩
  rw [isMatch_iff, exists_comm]
  refine exists_congr fun r => (leaves_ofSpecs (List.cons_ne_nil q []) p r).trans ?_
  simp only [List.mem_singleton, exists_eq_left]

/-- An exclude without wildcards matches, in any spelling of it that counts as the same, the path it names if that has
a last name with a dot, and everything below it. -/
theorem isMatch_exclude_iff (hspec : spec ≠ []) (hwild : hasWildcard (resolve spec base) = false) :
    ∃ e, ofSpecs? .exclude base [spec] = some e ∧ ∀ caseSensitive p, ¬ [lineFeed] <:+ p →
      (e.isMatch caseSensitive p = true ↔ ∃ d, Spells (sameOn caseSensitive) (resolve spec base) d ∧
        ((∃ r, p = entry d r) ∨ (p = d ∧ dot ∈ baseName (resolve spec base)))) := by
  obtain ⟨first, rest, hfirst, hrest, hresolve, hroot⟩ := exists_trunk hspec base
  rw [hresolve, hasWildcard_ofTrunk, hasWildcard, List.any_append, Bool.or_eq_false_iff, any_isWildcard_below] at hwild
  obtain ⟨hwildFirst, hwildRest⟩ := hwild
  have hwildNames : ∀ n ∈ rest, hasWildcard n = false := by simpa using hwildRest
  -- the last component, which decides whether the spec is taken for a directory
  obtain ⟨last, hlast⟩ : ∃ last, last = rest.getLast?.getD (first ++ [slash]) := ⟨_, rfl⟩
  have hwildLast : hasWildcard last = false := by
    rw [hlast]
    cases hl : rest.getLast? with
    | none => simp [hasWildcard, hwildFirst]; decide
    | some n => exact hwildNames n (List.mem_of_getLast? hl)
  have hfile : isImplicit last = false ↔ dot ∈ baseName (resolve spec base) := by
    rw [← Bool.not_eq_true, isImplicit_iff hwildLast, not_not, hresolve, dot_mem_baseName_iff hfirst hrest, hlast]
  have hrootDirectory : first ++ below rest = [] → isImplicit last = true := by
    intro hnil
    rw [isImplicit_iff hwildLast, hlast, ← dot_mem_baseName_iff hfirst hrest, hnil]
    decide
  have hof : ofSpec? .exclude base spec = some (ofComponents .exclude false (components (first ++ [slash]) rest)) := by
    simp only [ofSpec?, hroot, ne_eq, not_true_eq_false, false_and, if_false]
  obtain ⟨e, he, hmatch⟩ := isMatch_ofSpec hspec hof
  refine ⟨e, he, fun caseSensitive p hp => ?_⟩
  have hd := delimits_sameOn caseSensitive
  rw [hmatch, components_root hfirst, ← hlast,
    leaves_trunk_ended hd (sameOn_self caseSensitive) hwildFirst hwildNames hp,
    spells_entry hd (getLast?_trunk hfirst hrest) hrootDirectory, ← hresolve, hfile]

/-- Whatever the excludes are, with a path they match everything below it. One without wildcards matches what is
strictly below the path it names, and besides at most that path: if its last name has a dot. Where case is ignored,
the same is so of every path that spells the one it names. -/
theorem exclude_subtree (base : Text) :
    (∀ specs e, ofSpecs? .exclude base specs = some e → ∀ caseSensitive p, ¬ [lineFeed] <:+ p →
      e.isMatch caseSensitive p = true → ∀ r, e.isMatch caseSensitive (p ++ slash :: r) = true) ∧
    ∀ spec, spec ≠ [] → hasWildcard (resolve spec base) = false → ∃ e, ofSpecs? .exclude base [spec] = some e ∧
      ∀ p, ¬ [lineFeed] <:+ p →
        (e.isMatch true p = true ↔
          (∃ r, p = entry (resolve spec base) r) ∨ (p = resolve spec base ∧ dot ∈ baseName (resolve spec base))) ∧
        ∀ caseSensitive, e.isMatch caseSensitive p = true ↔ ∃ d, Spells (sameOn caseSensitive) (resolve spec base) d ∧
          ((∃ r, p = entry d r) ∨ (p = d ∧ dot ∈ baseName (resolve spec base))) := by
  refine ⟨fun specs e he caseSensitive p hp hm r => ?_, fun spec hspec hwild => ?_⟩
  · exact isMatch_exclude_append he (sameOn_self caseSensitive slash) hp hm
  · obtain ⟨e, he, hmatch⟩ := isMatch_exclude_iff hspec hwild
    refine ⟨e, he, fun p hp => ⟨?_, fun caseSensitive => hmatch caseSensitive p hp⟩⟩
    have hexact : ∀ d, Spells (sameOn true) (resolve spec base) d ↔ d = resolve spec base := fun _ => spells_exact
    simpa only [hexact, exists_eq_left] using hmatch true p hp

/-- With `build` goes what is below it, but not `builder`, and not the folder itself; `a.d` goes too. What lies in a
folder that a wildcard excludes goes with it. -/
theorem exclude_subtree_build :
    let base := Text.of "/proj"
    (∃ e, ofSpecs? .exclude base [Text.of "build", Text.of "*.gen"] = some e ∧
      e.isMatch true (Text.of "/proj/x.gen") = true ∧ e.isMatch true (Text.of "/proj/x.gen/deep/a.ts") = true) ∧
    (∃ e, ofSpecs? .exclude base [Text.of "../proj//build/"] = some e ∧
      e.isMatch true (Text.of "/proj/build/x.ts") = true ∧ e.isMatch true (Text.of "/proj/build") = false ∧
      e.isMatch true (Text.of "/proj/builder/x.ts") = false ∧ e.isMatch false (Text.of "/PROJ/Build/x.ts") = true) ∧
    ∃ e, ofSpecs? .exclude base [Text.of "lib\\a.d"] = some e ∧ e.isMatch true (Text.of "/proj/lib/a.d") = true := by
  intro base
  obtain ⟨hclosed, hsingle⟩ := exclude_subtree base
  refine ⟨?_, ?_, ?_⟩
  · obtain ⟨e, he⟩ : ∃ e, ofSpecs? .exclude base [Text.of "build", Text.of "*.gen"] = some e := ⟨_, rfl⟩
    have hgen : e.isMatch true (Text.of "/proj/x.gen") = true := by
      refine (Option.some.inj he) ▸ ?_
      decide +kernel
    exact ⟨e, he, hgen, hclosed _ e he true _ (by decide) hgen (Text.of "deep/a.ts")⟩
  · have hresolve : resolve (Text.of "../proj//build/") base = Text.of "/proj/build" := by decide +kernel
    obtain ⟨e, he, hmatch⟩ := hsingle (Text.of "../proj//build/") (by decide) (by decide +kernel)
    have hentry : ∀ r, entry (Text.of "/proj/build") r = Text.of "/proj/build/" ++ r := fun _ => rfl
    have hbelow : ∀ {p : Text}, ¬ Text.of "/proj/build/" <+: p → ∀ r, p ≠ Text.of "/proj/build/" ++ r :=
      fun hp r hr => hp ⟨r, hr.symm⟩
    rw [hresolve] at hmatch
    simp only [hentry] at hmatch
    refine ⟨e, he, ?_, ?_, ?_, ?_⟩
    · exact (hmatch _ (by decide)).1.mpr (Or.inl ⟨Text.of "x.ts", rfl⟩)
    · rw [← Bool.not_eq_true, (hmatch _ (by decide)).1]
      rintro (⟨r, hr⟩ | ⟨-, hdot⟩)
      · exact hbelow (by decide) r hr
      · exact absurd hdot (by decide)
    · rw [← Bool.not_eq_true, (hmatch _ (by decide)).1]
      rintro (⟨r, hr⟩ | ⟨hself, -⟩)
      · exact hbelow (by decide) r hr
      · exact absurd hself (by decide)
    · have hspells : Spells (sameOn false) (Text.of "/proj/build") (Text.of "/PROJ/Build") := by
        unfold Spells
        decide +kernel
      exact ((hmatch _ (by decide)).2 false).mpr ⟨_, hspells, Or.inl ⟨Text.of "x.ts", rfl⟩⟩
  · obtain ⟨e, he, hmatch⟩ := hsingle (Text.of "lib\\a.d") (by decide) (by decide +kernel)
    exact ⟨e, he, (hmatch _ (by decide)).1.mpr (Or.inr ⟨by decide +kernel, by decide +kernel⟩)⟩

end TsProject.Glob
