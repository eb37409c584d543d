/-
  TsProject.Proofs.Glob.Apart — the directories of a cover lie outside one another.

  The bases of the includes are taken in the order of their names, where a directory comes
  before what it holds. So none that is kept holds another, and none is in the project
  directory. But the project directory is kept before all of them: where an include starts
  above it, the search starts at a directory and again at one inside it, and the others
  alone would have been enough.

  - `isWithin_iff_holds`: a path lies in another one if its names start with the names
    of that one.
  - `cover_minimal`: what a cover holds, and when one of its directories is in another.
  - `cover_above`: an include that starts above the project directory.
-/

import TsProject.Proofs.Glob.Once

namespace TsProject.Glob

open CodePoint TsProject.Path

variable {caseSensitive : Bool} {as bs : List Text}

/-! ## Names up to case -/

/-- One path is the other or lies above it, name by name as the file system compares them. -/
def Holds (caseSensitive : Bool) (above p : Text) : Prop :=
  (names above).map (canonical caseSensitive) <+: (names p).map (canonical caseSensitive)

/-- One path lies above the other. -/
def LiesAbove (caseSensitive : Bool) (above p : Text) : Prop := Holds caseSensitive above p ∧ ¬ Holds caseSensitive p above

/-- Neither path holds the other. -/
def Apart (caseSensitive : Bool) (d e : Text) : Prop := ¬ Holds caseSensitive d e ∧ ¬ Holds caseSensitive e d

/-- Every base lies in one of the directories. -/
def Covers (caseSensitive : Bool) (directories bases : List Text) : Prop :=
  ∀ base ∈ bases, ∃ d ∈ directories, Holds caseSensitive d base

instance (caseSensitive : Bool) (above p : Text) : Decidable (Holds caseSensitive above p) :=
  inferInstanceAs (Decidable (_ <+: _))

instance (caseSensitive : Bool) (above p : Text) : Decidable (LiesAbove caseSensitive above p) :=
  inferInstanceAs (Decidable (_ ∧ _))

instance (caseSensitive : Bool) (directories bases : List Text) : Decidable (Covers caseSensitive directories bases) :=
  inferInstanceAs (Decidable (∀ base ∈ bases, _))

theorem Holds.trans {a b c : Text} (hab : Holds caseSensitive a b) (hbc : Holds caseSensitive b c) :
    Holds caseSensitive a c :=
  List.IsPrefix.trans hab hbc

theorem canonical_absolute (caseSensitive : Bool) (ns : List Text) :
    canonical caseSensitive (absolute ns) = absolute (ns.map (canonical caseSensitive)) := by
  cases caseSensitive with
  | true =>
    change absolute ns = absolute (ns.map id)
    rw [List.map_id]
  | false =>
    have hlower : Text.lower (slash :: Text.join [slash] ns) = slash :: Text.lower (Text.join [slash] ns) :=
      Text.lower_append_slash [] _
    change Text.lower (absolute ns) = absolute (ns.map Text.lower)
    rw [← slash_join, hlower, Text.lower_join, slash_join]

theorem isName_canonical (caseSensitive : Bool) (h : ∀ n ∈ as, IsName n) :
    ∀ n ∈ as.map (canonical caseSensitive), IsName n := by
  intro n hn
  obtain ⟨m, hm, rfl⟩ := List.mem_map.mp hn
  obtain ⟨hne, hslash⟩ := h m hm
  refine ⟨fun hnil => hne (canonical_eq_nil_iff.mp hnil), ?_⟩
  cases caseSensitive with
  | true => exact hslash
  | false => exact fun hs => hslash ((Text.mem_lower_iff rfl m).mp hs)

theorem prefix_absolute (h : as <+: bs) : absolute as <+: absolute bs := by
  obtain ⟨rest, rfl⟩ := h
  cases as with
  | nil =>
    obtain ⟨t, ht⟩ := absolute_cons rest
    rw [List.nil_append, ht]
    exact ⟨t, rfl⟩
  | cons a as =>
    have hne : a :: as ++ rest ≠ [] := List.cons_ne_nil a (as ++ rest)
    rw [absolute_of_ne_nil (List.cons_ne_nil a as), absolute_of_ne_nil hne, below_append]
    exact List.prefix_append _ _

/-- A path that is some names, each behind a slash. -/
def FromRoot (d : Text) : Prop := ∃ ns, d = absolute ns ∧ ∀ n ∈ ns, IsName n

theorem holds_absolute (has : ∀ n ∈ as, IsName n) (hbs : ∀ n ∈ bs, IsName n) :
    Holds caseSensitive (absolute as) (absolute bs) ↔
      as.map (canonical caseSensitive) <+: bs.map (canonical caseSensitive) := by
  rw [Holds, names_absolute has, names_absolute hbs]

/-- A path lies in another one by its spelling exactly if it does by its names. -/
theorem isWithin_iff_holds {d e : Text} (hd : FromRoot d) (he : FromRoot e) :
    isWithin caseSensitive d e = true ↔ Holds caseSensitive d e := by
  obtain ⟨as, rfl, has⟩ := hd
  obtain ⟨bs, rfl, hbs⟩ := he
  have hspelled : isWithin caseSensitive (absolute as) (absolute bs) =
      isWithin true (absolute (as.map (canonical caseSensitive))) (absolute (bs.map (canonical caseSensitive))) := by
    rw [← canonical_absolute, ← canonical_absolute]
    rfl
  have has' := isName_canonical caseSensitive has
  have hbs' := isName_canonical caseSensitive hbs
  rw [hspelled, holds_absolute has hbs]
  generalize as.map (canonical caseSensitive) = as' at has'
  generalize bs.map (canonical caseSensitive) = bs' at hbs'
  constructor
  · exact prefix_of_isWithin has' hbs'
  · intro h
    obtain ⟨rest, rfl⟩ := h
    cases rest with
    | nil => rw [List.append_nil]; exact isWithin_refl true _
    | cons n rest =>
      obtain ⟨t, ht⟩ := absolute_cons as'
      refine isWithin_of_stem (by simp [ht]) ?_
      have hentry : stem (absolute as') <+: absolute (as' ++ [n]) := by
        rw [← entry_absolute has' n, entry_eq_stem]
        exact List.prefix_append _ _
      exact hentry.trans (prefix_absolute (by simp))

/-- What a directory holds comes behind it. -/
theorem not_le_of_above {d e : Text} (hd : FromRoot d) (he : FromRoot e) (h : LiesAbove caseSensitive d e) :
    Text.le (canonical caseSensitive e) (canonical caseSensitive d) = false := by
  obtain ⟨as, rfl, has⟩ := hd
  obtain ⟨bs, rfl, hbs⟩ := he
  obtain ⟨hholds, hnot⟩ := h
  rw [holds_absolute has hbs] at hholds
  rw [holds_absolute hbs has] at hnot
  obtain ⟨t, ht⟩ := prefix_absolute hholds
  rw [canonical_absolute, canonical_absolute, ← ht]
  apply Text.not_le_append
  intro hnil
  -- the two would have the same names
  rw [hnil, List.append_nil] at ht
  rw [absolute_inj (isName_canonical caseSensitive has) (isName_canonical caseSensitive hbs) ht] at hnot
  exact hnot (List.prefix_refl _)

/-! ## Covers -/

/-- Where includes start, read in a directory. -/
def bases (path : Text) (includes : List Text) : List Text := includes.map fun spec => baseOf (resolve spec path)

variable {path : Text} {includes : List Text}

theorem fromRoot_of_normalize (hpath : startsAtRoot path = true) (hnormal : normalize path = path) : FromRoot path := by
  obtain ⟨ns, hns, hplain⟩ := eq_absolute_of_normalize hpath hnormal
  exact ⟨ns, hns, fun n hn => (hplain n hn).name⟩

theorem baseOf_resolve (hpath : FromRoot path) {spec : Text} (hspec : isRooted spec = false) :
    baseOf (absoluteInclude path spec) = baseOf (resolve spec path) ∧ FromRoot (baseOf (resolve spec path)) := by
  obtain ⟨ns, rfl, -⟩ := hpath
  obtain ⟨hbase, hplain⟩ := baseOf_absoluteInclude ns hspec
  rw [absoluteInclude_eq_resolve ns hspec] at hbase ⊢
  exact ⟨rfl, _, hbase, fun n hn => (hplain n hn).name⟩

theorem fromRoot_of_mem_bases (hpath : FromRoot path) (hi : ∀ spec ∈ includes, isRooted spec = false) :
    ∀ b ∈ bases path includes, FromRoot b := by
  intro b hb
  obtain ⟨spec, hspec, rfl⟩ := List.mem_map.mp hb
  exact (baseOf_resolve hpath (hi spec hspec)).2

/-- Behind the project directory a cover has bases of includes, which lie outside one another and outside it; and every
base lies in one of its directories. -/
theorem exists_cover_apart (caseSensitive : Bool) (hpath : FromRoot path) (hi : ∀ spec ∈ includes, isRooted spec = false) :
    ∃ others, cover caseSensitive path includes = path :: others ∧ others ⊆ bases path includes ∧
      others.Pairwise (Apart caseSensitive) ∧ (∀ d ∈ others, ¬ Holds caseSensitive path d) ∧
      Covers caseSensitive (path :: others) (bases path includes) := by
  obtain ⟨others, hcover, houtside, hsorted⟩ := exists_cover_eq caseSensitive path includes
  obtain ⟨hfirst, hrest⟩ := List.pairwise_cons.mp houtside
  have hbases := fromRoot_of_mem_bases hpath hi
  have hsub : others ⊆ bases path includes := by
    intro d hd
    have hmem : d ∈ cover caseSensitive path includes := by
      rw [hcover]
      exact List.mem_cons_of_mem path hd
    rcases eq_or_exists_of_mem_cover hmem with heq | ⟨spec, hspec, heq⟩
    · -- the project directory is not kept again
      rw [heq] at hd
      have hself := hfirst path hd
      rw [isWithin_refl] at hself
      cases hself
    · rw [heq, (baseOf_resolve hpath (hi spec hspec)).1]
      exact List.mem_map_of_mem hspec
  have hothers : ∀ d ∈ others, FromRoot d := fun d hd => hbases d (hsub hd)
  refine ⟨others, hcover, hsub, ?_, ?_, ?_⟩
  · refine (hrest.and hsorted).imp_of_mem fun {d e} hd he h => ?_
    obtain ⟨hout, hle⟩ := h
    have hnot : ¬ Holds caseSensitive d e := by
      rw [← isWithin_iff_holds (hothers d hd) (hothers e he), hout]
      exact Bool.false_ne_true
    refine ⟨hnot, fun hholds => ?_⟩
    rw [not_le_of_above (hothers e he) (hothers d hd) ⟨hholds, hnot⟩] at hle
    cases hle
  · intro d hd hholds
    rw [← isWithin_iff_holds hpath (hothers d hd), hfirst d hd] at hholds
    cases hholds
  · intro b hb
    obtain ⟨spec, hspec, rfl⟩ := List.mem_map.mp hb
    obtain ⟨d, hd, hwithin⟩ := exists_cover_isWithin caseSensitive path hspec
    rw [hcover] at hd
    rw [(baseOf_resolve hpath (hi spec hspec)).1] at hwithin
    have hroot : FromRoot d := by
      rcases List.mem_cons.mp hd with heq | hd
      · rw [heq]
        exact hpath
      · exact hothers d hd
    exact ⟨d, hd, (isWithin_iff_holds hroot (hbases _ hb)).mp hwithin⟩

/-- The directories of a cover hold every base. Those behind the project directory lie outside one another and outside
it; they are bases of includes. The project directory lies in none of them unless an include starts above it, and then
the others hold every base without it. -/
theorem cover_minimal (caseSensitive : Bool) (hpath : startsAtRoot path = true) (hnormal : normalize path = path)
    (hi : ∀ spec ∈ includes, isRooted spec = false) :
    ∃ others, cover caseSensitive path includes = path :: others ∧ others ⊆ bases path includes ∧
      Covers caseSensitive (path :: others) (bases path includes) ∧ others.Pairwise (Apart caseSensitive) ∧
      ((path :: others).Pairwise (Apart caseSensitive) ↔ ∀ b ∈ bases path includes, ¬ LiesAbove caseSensitive b path) ∧
      ((∃ b ∈ bases path includes, LiesAbove caseSensitive b path) → Covers caseSensitive others (bases path includes)) := by
  obtain ⟨others, hcover, hsub, hapart, hout, hcovers⟩ :=
    exists_cover_apart caseSensitive (fromRoot_of_normalize hpath hnormal) hi
  -- what holds a base above the project directory is another one, and holds the project directory as well
  have habove : ∀ b ∈ bases path includes, LiesAbove caseSensitive b path → ∃ d ∈ others, Holds caseSensitive d path := by
    intro b hb h
    obtain ⟨hholds, hnot⟩ := h
    obtain ⟨d, hd, hdb⟩ := hcovers b hb
    rcases List.mem_cons.mp hd with heq | hd
    · rw [heq] at hdb
      exact absurd hdb hnot
    · exact ⟨d, hd, hdb.trans hholds⟩
  refine ⟨others, hcover, hsub, hcovers, hapart, ⟨?_, ?_⟩, ?_⟩
  · intro h b hb hab
    obtain ⟨d, hd, hdp⟩ := habove b hb hab
    exact ((List.pairwise_cons.mp h).1 d hd).2 hdp
  · intro h
    refine List.pairwise_cons.mpr ⟨fun d hd => ⟨hout d hd, fun hdp => ?_⟩, hapart⟩
    exact h d (hsub hd) ⟨hdp, hout d hd⟩
  · intro h b hb
    obtain ⟨b', hb', hab⟩ := h
    obtain ⟨d, hd, hdb⟩ := hcovers b hb
    rcases List.mem_cons.mp hd with heq | hd
    · rw [heq] at hdb
      obtain ⟨e, he, hep⟩ := habove b' hb' hab
      exact ⟨e, he, hep.trans hdb⟩
    · exact ⟨d, hd, hdb⟩

/-- Includes that start above the project directory, below it and beside it, where in two spellings. -/
theorem cover_minimal_folding :
    let path := Text.of "/proj/src"
    let includes := [Text.of "../../LIB/x*.ts", Text.of "../../lib/**/*", Text.of "../*.ts", Text.of "A/*.ts"]
    cover false path includes = [path, Text.of "/LIB", Text.of "/proj"] ∧
      [Text.of "/LIB", Text.of "/proj"].Pairwise (Apart false) ∧
      Covers false [Text.of "/LIB", Text.of "/proj"] (bases path includes) := by
  intro path includes
  have hcover : cover false path includes = [path, Text.of "/LIB", Text.of "/proj"] := by
    rw [cover_of_sorted (by decide +kernel)]
    decide +kernel
  obtain ⟨others, hothers, -, -, hapart, -, hless⟩ :=
    @cover_minimal path includes false (by decide) (by decide) (by decide)
  obtain ⟨-, rfl⟩ := List.cons.inj (hcover.symm.trans hothers)
  exact ⟨hcover, hapart, hless ⟨Text.of "/proj", by decide +kernel, by decide +kernel⟩⟩

/-- An include that starts above the project directory: that lies in another directory of the cover, which alone would
hold what both includes start from. -/
theorem cover_above :
    let path := Text.of "/proj/src"
    let includes := [Text.of "../*.ts", Text.of "a/*.ts"]
    cover true path includes = [path, Text.of "/proj"] ∧ Holds true (Text.of "/proj") path ∧
      Covers true [Text.of "/proj"] (bases path includes) := by
  intro path includes
  refine ⟨?_, by decide, by decide⟩
  rw [cover_of_sorted (by decide)]
  decide

end TsProject.Glob
