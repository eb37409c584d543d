/-
  TsProject.Proofs.Glob.Cover — the cover reaches every file an include matches.

  The base of an include is a list of names without wildcards, so the segments of a
  path it matches start with them; and every base lies in a directory of the cover.

  - `baseOf_absolute`: the base of a spec in absolute form, as names.
  - `baseNames_prefix`: what an include matches lies below the base of the include.
  - `exists_cover`: every base lies in a directory of the cover.
-/

import TsProject.Proofs.Glob.Includes
import Mathlib.Data.List.TakeWhile

namespace TsProject.Glob

open CodePoint Pattern TsProject.Path

/-! ## Bases -/

def hasWildcard (n : Text) : Bool := n.any isWildcard

/-- The names before the first one with a wildcard. A spec without wildcards names a directory, or a
file if its last name has a dot. -/
def baseNames (ns : List Text) : List Text :=
  if ns.any hasWildcard then ns.takeWhile (!hasWildcard ·)
  else if ns.getLast?.any (·.contains dot) then ns.dropLast
  else ns

theorem any_isWildcard_below (ns : List Text) : (below ns).any isWildcard = ns.any hasWildcard := by
  induction ns with
  | nil => rfl
  | cons n ns ih =>
    have hslash : isWildcard slash = false := by decide
    simp [hslash, ← ih, hasWildcard]

/-- The part before the first wildcard ends within a name. -/
theorem takeWhile_below {ns : List Text} (h : ∀ n ∈ ns, IsName n) (hw : ns.any hasWildcard = true) :
    ∃ s, slash ∉ s ∧
      (below ns).takeWhile (!isWildcard ·) = below (ns.takeWhile (!hasWildcard ·)) ++ slash :: s := by
  induction ns with
  | nil => cases hw
  | cons n ns ih =>
    have hslash : isWildcard slash = false := by decide
    rw [below_cons, List.takeWhile_cons_of_pos (by simp [hslash])]
    by_cases hn : hasWildcard n = true
    · obtain ⟨x, hx, hxw⟩ := List.any_eq_true.mp hn
      have hlt : (n.takeWhile (!isWildcard ·)).length ≠ n.length := by
        intro he
        have := List.takeWhile_eq_self_iff.mp ((List.takeWhile_prefix _).eq_of_length he) x hx
        simp [hxw] at this
      refine ⟨n.takeWhile (!isWildcard ·), fun hm => ?_, ?_⟩
      · exact (h n List.mem_cons_self).2 ((List.takeWhile_prefix _).subset hm)
      · rw [List.takeWhile_append, if_neg hlt, List.takeWhile_cons_of_neg (by simp [hn])]
        rfl
    · have hall : ∀ x ∈ n, (!isWildcard x) = true := by
        intro x hx
        have := List.any_eq_false.mp (Bool.eq_false_iff.mpr hn) x hx
        simpa using this
      have hw : ns.any hasWildcard = true := by simpa [hn] using hw
      obtain ⟨s, hs, he⟩ := ih (fun m hm => h m (List.mem_cons_of_mem _ hm)) hw
      refine ⟨s, hs, ?_⟩
      rw [List.takeWhile_append_of_pos hall, he, List.takeWhile_cons_of_pos (by simp [hn])]
      simp

theorem baseName_absolute {ns : List Text} (h : ∀ n ∈ ns, IsName n) : baseName (absolute ns) = ns.getLast?.getD [] := by
  cases hns : ns.reverse with
  | nil => rw [List.reverse_eq_nil_iff.mp hns]; rfl
  | cons n ms =>
    have he : ns = ms.reverse ++ [n] := by rw [← List.reverse_reverse ns, hns]; simp
    have hn := h n (by rw [he]; simp)
    rw [he, absolute_of_ne_nil (by simp), below_append, below_cons, below_nil, List.append_nil, baseName,
      Text.afterLast_append _ _ hn.2]
    simp

theorem below_or_root (ns : List Text) : (if (below ns).isEmpty then [slash] else below ns) = absolute ns := by
  cases ns <;> rfl

theorem baseOf_absolute {ns : List Text} (h : ∀ n ∈ ns, IsPlain n) : baseOf (absolute ns) = absolute (baseNames ns) := by
  have hname : ∀ n ∈ ns, IsName n := fun n hn => (h n hn).name
  have hany : (absolute ns).any isWildcard = ns.any hasWildcard := by
    cases ns with
    | nil => rfl
    | cons n ns => exact any_isWildcard_below _
  unfold baseOf baseNames
  rw [hany]
  by_cases hw : ns.any hasWildcard = true
  · obtain ⟨s, hs, he⟩ := takeWhile_below hname hw
    have hne : ns ≠ [] := by rintro rfl; cases hw
    have hbase : (if (below ns).takeWhile (!isWildcard ·) |>.contains slash then
        (Text.throughLast slash ((below ns).takeWhile (!isWildcard ·))).dropLast else (below ns).dropLast) =
        below (ns.takeWhile (!hasWildcard ·)) := by
      rw [he, if_pos (by simp), Text.throughLast_append _ _ hs, List.dropLast_concat]
    rw [if_pos hw, if_pos hw, absolute_of_ne_nil hne]
    simp only [hbase]
    exact below_or_root _
  · rw [if_neg hw, if_neg hw, baseName_absolute hname]
    have hlast : (ns.getLast?.getD []).contains dot = ns.getLast?.any (·.contains dot) := by
      cases ns.getLast? <;> rfl
    rw [hlast, directory, normalize_absolute h, parent_absolute hname]
    split <;> rfl

theorem baseNames_subset (ns : List Text) : ∀ n ∈ baseNames ns, n ∈ ns := by
  intro n hn
  unfold baseNames at hn
  split at hn
  · exact (List.takeWhile_prefix _).subset hn
  · split at hn
    · exact List.dropLast_subset ns hn
    · exact hn

/-! ## What an include matches lies below its base -/

theorem Aligned.literals {enters : Text → Prop} {lits cs segs : List Text} (hl : ∀ c ∈ lits, hasWildcard c = false)
    (h : Aligned enters TakesSegment (lits ++ cs) segs) :
    ∃ segs', segs = lits ++ segs' ∧ Aligned enters TakesSegment cs segs' := by
  induction lits generalizing segs with
  | nil => exact ⟨segs, rfl, h⟩
  | cons c lits ih =>
    obtain ⟨hc, hl⟩ := List.forall_mem_cons.mp hl
    have hrec : c ≠ recursive := by rintro rfl; exact absurd hc (by decide)
    cases h with
    | skip => exact absurd rfl hrec
    | deeper => exact absurd rfl hrec
    | @component _ segs _ seg _ ht h =>
      have hseg : seg = c := by
        rw [TakesSegment, show c.any isWildcard = false from hc] at ht
        simpa using ht
      obtain ⟨segs', rfl, h'⟩ := ih hl h
      exact ⟨segs', by rw [hseg]; rfl, h'⟩

theorem Aligned.ne_nil {enters : Text → Prop} {takes : Text → Text → List Text → Prop} {cs segs : List Text}
    (hc : ∃ c ∈ cs, c ≠ recursive) (h : Aligned enters takes cs segs) : segs ≠ [] := by
  rintro rfl
  generalize he : ([] : List Text) = segs at h
  induction h with
  | nil => simp at hc
  | skip _ ih => exact ih (by simpa using hc) he
  | deeper => cases he
  | component => cases he

theorem isImplicit_of_noWildcard {c : Text} (hd : dot ∉ c) (hw : hasWildcard c = false) : isImplicit c = true := by
  refine List.all_eq_true.mpr fun x hx => ?_
  have hxw : isWildcard x = false := by simpa using List.any_eq_false.mp hw x hx
  have hxd : x ≠ dot := fun e => hd (e ▸ hx)
  simp only [isWildcard, Bool.or_eq_false_iff, beq_eq_false_iff_ne] at hxw
  simp [hxd, hxw.1, hxw.2]

/-- A spec that does not end in `**` has a component besides those of its base, and that is no `**`. -/
theorem exists_component_after_base {spec base : Text} (hlast : (names (resolve spec base)).getLast? ≠ some recursive) :
    ∃ cs, specComponents spec base = baseNames (names (resolve spec base)) ++ cs ∧ ∃ c ∈ cs, c ≠ recursive := by
  unfold specComponents
  generalize names (resolve spec base) = ns at hlast
  have hstar : [asterisk] ≠ recursive := by decide
  unfold baseNames
  split
  · rename_i hw
    refine ⟨ns.dropWhile (!hasWildcard ·) ++ if ns.getLast?.all isImplicit then [recursive, [asterisk]] else [], ?_, ?_⟩
    · rw [← List.append_assoc, List.takeWhile_append_dropWhile]
    · obtain ⟨n, hn, hnw⟩ := List.any_eq_true.mp hw
      have hne : ns.dropWhile (!hasWildcard ·) ≠ [] := by
        intro he
        have := List.dropWhile_eq_nil_iff.mp he n hn
        simp [hnw] at this
      refine ⟨_, List.mem_append_left _ (List.getLast_mem hne), fun he => hlast ?_⟩
      rw [List.getLast?_eq_some_getLast (List.ne_nil_of_mem hn), ← he]
      have hsuf := List.dropWhile_suffix (l := ns) (!hasWildcard ·)
      rw [hsuf.getLast hne]
  · rename_i hw
    have hplain : ∀ n ∈ ns, hasWildcard n = false := by simpa using hw
    split
    · rename_i hdot
      obtain ⟨l, hl, -⟩ := (Option.any_eq_true _ _).mp hdot
      refine ⟨l :: if ns.getLast?.all isImplicit then [recursive, [asterisk]] else [], ?_, l, List.mem_cons_self, ?_⟩
      · rw [List.append_cons, List.dropLast_append_getLast? l hl]
      · rintro rfl
        exact absurd (hplain _ (List.mem_of_getLast? hl)) (by decide)
    · rename_i hdot
      have himplicit : ns.getLast?.all isImplicit = true := by
        cases hl : ns.getLast? with
        | none => rfl
        | some l =>
          have hld : dot ∉ l := by simpa [hl] using hdot
          exact isImplicit_of_noWildcard hld (hplain l (List.mem_of_getLast? hl))
      exact ⟨[recursive, [asterisk]], by simp only [himplicit, if_true], [asterisk], by simp, hstar⟩

theorem baseNames_noWildcard (ns : List Text) : ∀ n ∈ baseNames ns, hasWildcard n = false := by
  intro n hn
  unfold baseNames at hn
  split at hn
  · simpa using List.mem_takeWhile_imp hn
  · rename_i hw
    have hplain : ∀ n ∈ ns, hasWildcard n = false := by simpa using hw
    split at hn
    · exact hplain n (List.dropLast_subset ns hn)
    · exact hplain n hn

/-- What an include matches lies below the base of the include. -/
theorem baseNames_prefix {spec base : Text} {segs : List Text} {enters : Text → Prop}
    (hlast : (names (resolve spec base)).getLast? ≠ some recursive)
    (h : Aligned enters TakesSegment (specComponents spec base) segs) :
    baseNames (names (resolve spec base)) <+: segs.dropLast := by
  obtain ⟨cs, hcs, hc⟩ := exists_component_after_base hlast
  rw [hcs] at h
  obtain ⟨rest, rfl, h'⟩ := h.literals (baseNames_noWildcard _)
  rw [List.dropLast_append_of_ne_nil (h'.ne_nil hc)]
  exact List.prefix_append _ _

/-! ## The cover -/

/-- The names of the base of an include, read in the directory with the given names. -/
def includeBase (path spec : Text) : List Text := baseNames (names (resolve spec path))

theorem absoluteInclude_eq_resolve (ns : List Text) {spec : Text} (hs : isRooted spec = false) :
    absoluteInclude (absolute ns) spec = resolve spec (absolute ns) := by
  have hroot : startsAtRoot (forwardSlashes (absolute ns)) = true := startsAtRoot_forwardSlashes (startsAtRoot_absolute ns)
  have hcat : startsAtRoot (forwardSlashes (absolute ns ++ slash :: spec)) = true := by
    obtain ⟨t, ht⟩ := absolute_cons ns
    rw [ht]; rfl
  rw [absoluteInclude, hs, if_neg (by decide), normalize_rooted hcat, resolve_relative hroot hs, rootedNames]
  simp [segments_append_slash]

theorem baseOf_absoluteInclude (ns : List Text) {spec : Text} (hs : isRooted spec = false) :
    baseOf (absoluteInclude (absolute ns) spec) = absolute (includeBase (absolute ns) spec) ∧
      ∀ n ∈ includeBase (absolute ns) spec, IsPlain n := by
  have hdrive : ¬ IsDriveRooted spec := fun hd => Bool.false_ne_true (hs.symm.trans hd.1)
  obtain ⟨ms, hms, hplain⟩ := exists_resolve_eq_absolute (startsAtRoot_absolute ns) hdrive
  have hn : names (resolve spec (absolute ns)) = ms := by rw [hms, names_absolute fun n hn => (hplain n hn).name]
  rw [absoluteInclude_eq_resolve ns hs, includeBase, hn, hms, baseOf_absolute hplain]
  exact ⟨rfl, fun n hn => hplain n (baseNames_subset ms n hn)⟩

theorem trimEnd_slash (s : Text) : Text.trimEnd (· == slash) s ++ [slash] <+: s ++ [slash] := by
  induction s using List.reverseRecOn with
  | nil => exact List.prefix_refl _
  | append_singleton s c ih =>
    rw [Text.trimEnd_concat]
    by_cases hc : c = slash
    · rw [if_pos (by simpa using hc), hc]
      exact ih.trans (List.prefix_append _ _)
    · rw [if_neg (by simpa using hc)]

theorem names_trimEnd (p : Text) : names (Text.trimEnd (· == slash) p) = names p := by
  have hslash : ∀ s : Text, names (s ++ [slash]) = names s := by
    intro s
    rw [names_append_slash]
    exact List.append_nil _
  induction p using List.reverseRecOn with
  | nil => rfl
  | append_singleton p c ih =>
    rw [Text.trimEnd_concat]
    by_cases hc : c = slash
    · rw [if_pos (by simpa using hc), ih, hc, hslash]
    · rw [if_neg (by simpa using hc)]

/-- A path that lies in another by its spelling starts with the names of that one. -/
theorem names_of_isWithin {d p : Text} (h : isWithin true d p = true) : names d <+: names p := by
  simp only [isWithin, canonical, if_true, Bool.or_eq_true, beq_iff_eq] at h
  rcases h with rfl | h
  · exact List.prefix_refl _
  · obtain ⟨t, rfl⟩ := List.isPrefixOf_iff_prefix.mp h
    rw [List.append_assoc, List.singleton_append, names_append_slash, names_trimEnd]
    exact List.prefix_append _ _

theorem prefix_of_isWithin {as bs : List Text} (ha : ∀ n ∈ as, IsName n) (hb : ∀ n ∈ bs, IsName n)
    (h : isWithin true (absolute as) (absolute bs) = true) : as <+: bs := by
  have hnames := names_of_isWithin h
  rwa [names_absolute ha, names_absolute hb] at hnames

/-- The part of a cover that a list of bases adds. -/
def keep (caseSensitive : Bool) (kept : List Text) (base : Text) : List Text :=
  if kept.any (isWithin caseSensitive · base) then kept else kept ++ [base]

theorem mem_foldl_keep {caseSensitive : Bool} {bases kept : List Text} {d : Text}
    (h : d ∈ bases.foldl (keep caseSensitive) kept) : d ∈ kept ∨ d ∈ bases := by
  induction bases generalizing kept with
  | nil => exact Or.inl h
  | cons b bases ih =>
    rcases ih h with hk | hb
    · unfold keep at hk
      split at hk
      · exact Or.inl hk
      · rcases List.mem_append.mp hk with hk | hk
        · exact Or.inl hk
        · exact Or.inr (List.mem_cons.mpr (Or.inl (List.mem_singleton.mp hk)))
    · exact Or.inr (List.mem_cons_of_mem _ hb)

theorem subset_foldl_keep (caseSensitive : Bool) (bases kept : List Text) :
    kept ⊆ bases.foldl (keep caseSensitive) kept := by
  induction bases generalizing kept with
  | nil => exact List.Subset.refl _
  | cons b bases ih =>
    refine List.Subset.trans ?_ (ih _)
    unfold keep
    split
    · exact List.Subset.refl _
    · exact List.subset_append_left _ _

theorem isWithin_refl (caseSensitive : Bool) (p : Text) : isWithin caseSensitive p p = true := by simp [isWithin]

theorem exists_foldl_keep {caseSensitive : Bool} {bases : List Text} {b : Text} (h : b ∈ bases) (kept : List Text) :
    ∃ d ∈ bases.foldl (keep caseSensitive) kept, isWithin caseSensitive d b = true := by
  induction bases generalizing kept with
  | nil => cases h
  | cons b' bases ih =>
    rcases List.mem_cons.mp h with rfl | h
    · have : ∃ d ∈ keep caseSensitive kept b, isWithin caseSensitive d b = true := by
        unfold keep
        split
        · exact List.any_eq_true.mp ‹_›
        · exact ⟨b, by simp, isWithin_refl _ _⟩
      obtain ⟨d, hd, hw⟩ := this
      exact ⟨d, subset_foldl_keep _ bases _ hd, hw⟩
    · exact ih h _

/-- Every base lies, by its spelling, in a directory of the cover. -/
theorem exists_cover_isWithin (caseSensitive : Bool) (path : Text) {includes : List Text} {spec : Text}
    (hspec : spec ∈ includes) : ∃ d ∈ cover caseSensitive path includes,
      isWithin caseSensitive d (baseOf (absoluteInclude path spec)) = true :=
  exists_foldl_keep (List.mem_mergeSort.mpr (List.mem_map_of_mem hspec)) [path]

/-- Bases that are in order already are taken as they come. -/
theorem cover_of_sorted {caseSensitive : Bool} {path : Text} {includes : List Text}
    (h : (includes.map fun spec => baseOf (absoluteInclude path spec)).Pairwise fun a b =>
      Text.le (canonical caseSensitive a) (canonical caseSensitive b) = true) :
    cover caseSensitive path includes =
      (includes.map fun spec => baseOf (absoluteInclude path spec)).foldl (keep caseSensitive) [path] := by
  rw [cover, List.mergeSort_of_pairwise h]
  rfl

/-- The directories of a cover are the project directory and the bases of includes. -/
theorem eq_or_exists_of_mem_cover {caseSensitive : Bool} {path : Text} {includes : List Text} {d : Text}
    (hd : d ∈ cover caseSensitive path includes) : d = path ∨ ∃ spec ∈ includes, d = baseOf (absoluteInclude path spec) := by
  rcases mem_foldl_keep hd with hd | hd
  · exact Or.inl (List.mem_singleton.mp hd)
  · obtain ⟨spec, hspec, rfl⟩ := List.mem_map.mp (List.mem_mergeSort.mp hd)
    exact Or.inr ⟨spec, hspec, rfl⟩

theorem mem_cover {caseSensitive : Bool} {ns : List Text} (h : ∀ n ∈ ns, IsPlain n) {includes : List Text}
    (hi : ∀ spec ∈ includes, isRooted spec = false) {d : Text} (hd : d ∈ cover caseSensitive (absolute ns) includes) :
    ∃ ds, d = absolute ds ∧ (∀ n ∈ ds, IsPlain n) ∧ (ds = ns ∨ ∃ spec ∈ includes, ds = includeBase (absolute ns) spec) := by
  rcases eq_or_exists_of_mem_cover hd with hd | ⟨spec, hspec, hd⟩
  · exact ⟨ns, hd, h, Or.inl rfl⟩
  · obtain ⟨he, hplain⟩ := baseOf_absoluteInclude ns (hi spec hspec)
    exact ⟨_, hd.trans he, hplain, Or.inr ⟨spec, hspec, rfl⟩⟩

/-- The base of every include lies in a directory of the cover. -/
theorem exists_cover {ns : List Text} (h : ∀ n ∈ ns, IsPlain n) {includes : List Text}
    (hi : ∀ spec ∈ includes, isRooted spec = false) {spec : Text} (hspec : spec ∈ includes) :
    ∃ ds, absolute ds ∈ cover true (absolute ns) includes ∧ (∀ n ∈ ds, IsPlain n) ∧
      ds <+: includeBase (absolute ns) spec := by
  obtain ⟨he, hplain⟩ := baseOf_absoluteInclude ns (hi spec hspec)
  obtain ⟨d, hd, hw⟩ := exists_cover_isWithin true (absolute ns) hspec
  obtain ⟨ds, rfl, hds, -⟩ := mem_cover h hi hd
  rw [he] at hw
  exact ⟨ds, hd, hds, prefix_of_isWithin (fun n hn => (hds n hn).name) (fun n hn => (hplain n hn).name) hw⟩

end TsProject.Glob
