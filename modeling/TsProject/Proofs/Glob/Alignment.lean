/-
  TsProject.Proofs.Glob.Alignment — the pattern of an include as an alignment.

  The components of a spec are laid along the segments of a path in order: `**` takes
  any number of segments it may go through, any other component takes one.

  - `leaves_files_iff`: the pattern of the components takes the whole path exactly when
    they align, whichever characters count as the same.
  - `leaves_directories`: where they align, the pattern of the directories takes every
    path on the way.
  - `isMatch_ofInclude`: an include that does not end in `**` matches the paths its
    components align with.
-/

import TsProject.Proofs.Glob.Component

namespace TsProject.Glob

open CodePoint Pattern TsProject.Path Relation

/-- Components laid along segments. `enters` tells the segments a `**` goes through, `takes` what any
other component takes where certain segments follow. -/
inductive Aligned (enters : Text → Prop) (takes : Text → Text → List Text → Prop) : List Text → List Text → Prop
  | nil : Aligned enters takes [] []
  | skip {cs segs : List Text} : Aligned enters takes cs segs → Aligned enters takes (recursive :: cs) segs
  | deeper {cs segs : List Text} {seg : Text} : enters seg → Aligned enters takes (recursive :: cs) segs →
      Aligned enters takes (recursive :: cs) (seg :: segs)
  | component {cs segs : List Text} {c seg : Text} : c ≠ recursive → takes c seg segs → Aligned enters takes cs segs →
      Aligned enters takes (c :: cs) (seg :: segs)

theorem Aligned.mono {enters enters' : Text → Prop} {takes takes' : Text → Text → List Text → Prop} {cs segs : List Text}
    (he : ∀ seg ∈ segs, enters seg → enters' seg)
    (ht : ∀ c ∈ cs, c ≠ recursive → ∀ seg after, seg :: after <:+ segs → takes c seg after → takes' c seg after)
    (h : Aligned enters takes cs segs) : Aligned enters' takes' cs segs := by
  induction h with
  | nil => exact .nil
  | skip _ ih => exact .skip (ih he fun c hc => ht c (List.mem_cons_of_mem _ hc))
  | deeper h _ ih =>
    exact .deeper (he _ List.mem_cons_self h) (ih (fun s hs => he s (List.mem_cons_of_mem _ hs))
      fun c hc hr seg after hsuf => ht c hc hr seg after (hsuf.trans (List.suffix_cons _ _)))
  | component hc h _ ih =>
    exact .component hc (ht _ List.mem_cons_self hc _ _ (List.suffix_refl _) h)
      (ih (fun s hs => he s (List.mem_cons_of_mem _ hs))
        fun c hc hr seg after hsuf => ht c (List.mem_cons_of_mem _ hc) hr seg after (hsuf.trans (List.suffix_cons _ _)))

variable {same : CodePoint → CodePoint → Bool}

/-! ## Segments that `**` goes through -/

/-- Neither hidden nor a package folder. -/
def Enterable (same : CodePoint → CodePoint → Bool) (seg : Text) : Prop :=
  seg.head? ≠ some dot ∧ ¬ IsPackageFolder same seg

/-- One round of a `**` in an include. -/
def oneDeeper : Pattern :=
  .group (.seq (.char slash) (.seq notPackageFolder (.seq (.noneOf [slash, dot]) (.repeated .many (.noneOf [slash])))))

theorem anyDepth_of_ne_exclude {u : Usage} (hu : u ≠ .exclude) : anyDepth u = .repeated .manyLazy oneDeeper := by
  cases u
  · rfl
  · rfl
  · exact absurd rfl hu

theorem leaves_oneDeeper (hd : Delimits same) {seg r : Text} {after : List Text} (hs : IsEntryName seg)
    (ha : ∀ n ∈ after, IsEntryName n) (hr : AtBoundary r) :
    Leaves same oneDeeper (below (seg :: after)) r ↔ r = below after ∧ Enterable same seg := by
  have hlf : lineFeed ∉ seg ++ below after := fun hm =>
    (List.mem_append.mp hm).elim hs.noLineFeed (lineFeed_not_mem_below ha)
  have hnp := leaves_notPackageFolder hd hs.name.2 (atBoundary_below after) hlf
  constructor
  · rintro ⟨m, ⟨x, hx, -⟩, m', h1, m'', ⟨y, hy, hyc⟩, hmany⟩
    obtain ⟨-, rfl⟩ := List.cons.inj hx
    obtain ⟨rfl, hpkg⟩ := (hnp m').mp h1
    obtain ⟨w, rfl, hw⟩ := (leaves_many_noneOf _ _ _).mp hmany
    have hyw : slash ∉ y :: w := by
      intro hm
      rcases List.mem_cons.mp hm with e | hm
      · have := hyc slash (by simp)
        rw [(hd.slash y).1.mpr e.symm] at this; cases this
      · have := hw slash hm slash (by simp)
        rw [(hd.slash slash).1.mpr rfl] at this; cases this
    obtain ⟨rfl, rfl⟩ := segment_inj hs.name.2 hyw (atBoundary_below after) hr hy
    refine ⟨rfl, fun hh => ?_, hpkg⟩
    have := hyc dot (by simp)
    rw [(hd.dot y).1.mpr (Option.some.inj hh)] at this; cases this
  · rintro ⟨rfl, hh, hpkg⟩
    obtain ⟨y, w, rfl⟩ := List.exists_cons_of_ne_nil hs.name.1
    have hne : ∀ x ∈ y :: w, same slash x = false := fun x hx => by
      rw [← Bool.not_eq_true, (hd.slash x).1]
      exact fun e => hs.name.2 (e ▸ hx)
    refine ⟨_, ⟨slash, rfl, (hd.slash slash).1.mpr rfl⟩, _, (hnp _).mpr ⟨rfl, hpkg⟩, w ++ below after, ⟨y, rfl, ?_⟩,
      (leaves_many_noneOf _ _ _).mpr ⟨w, rfl, fun x hx => by simpa using hne x (List.mem_cons_of_mem _ hx)⟩⟩
    intro c hc
    rcases List.mem_cons.mp hc with rfl | hc
    · exact hne y List.mem_cons_self
    · rw [List.mem_singleton.mp hc, ← Bool.not_eq_true, (hd.dot y).1]
      exact fun e => hh (congrArg some e)

/-- Each round starts at a slash. -/
theorem atBoundary_of_star (hd : Delimits same) {s r : Text} (h : ReflTransGen (Leaves same oneDeeper) s r)
    (hr : AtBoundary r) : AtBoundary s := by
  induction h using ReflTransGen.head_induction_on with
  | refl => exact hr
  | head h _ _ =>
    obtain ⟨m, ⟨x, rfl, hx⟩, -⟩ := h
    exact (hd.slash x).1.mp hx ▸ atBoundary_slash m

/-! ## The pattern of the components -/

theorem ofComponents_recursive (u : Usage) (inner : Bool) (cs : List Text) :
    ofComponents u inner (recursive :: cs) = .seq (anyDepth u) (ofComponents u true cs) := by
  simp [ofComponents]

theorem ofComponents_files {c : Text} (hc : c ≠ recursive) (cs : List Text) :
    ofComponents .files true (c :: cs) =
      .seq (.char slash) (.seq (componentPattern .files c) (ofComponents .files true cs)) := by
  simp [ofComponents, hc]

theorem ofComponents_directories {c : Text} (hc : c ≠ recursive) (cs : List Text) :
    ofComponents .directories true (c :: cs) =
      .repeated .optional (.group (.seq (.char slash)
        (.seq (componentPattern .directories c) (ofComponents .directories true cs)))) := by
  simp [ofComponents, hc]

theorem atBoundary_of_leaves_files (hd : Delimits same) {cs : List Text} {s : Text}
    (h : Leaves same (ofComponents .files true cs) s []) : AtBoundary s := by
  induction cs generalizing s with
  | nil => exact (show ([] : Text) = s from h) ▸ atBoundary_nil
  | cons c cs ih =>
    by_cases hc : c = recursive
    · rw [hc, ofComponents_recursive, anyDepth_of_ne_exclude (by decide)] at h
      obtain ⟨m, h1, h2⟩ := h
      exact atBoundary_of_star hd h1 (ih h2)
    · rw [ofComponents_files hc] at h
      obtain ⟨m, ⟨x, rfl, hx⟩, -⟩ := h
      exact (hd.slash x).1.mp hx ▸ atBoundary_slash m

theorem aligned_of_leaves_files (hd : Delimits same) {cs segs : List Text} (hcs : ∀ c ∈ cs, slash ∉ c)
    (hs : ∀ n ∈ segs, IsEntryName n) (h : Leaves same (ofComponents .files true cs) (below segs) []) :
    Aligned (Enterable same) (Takes same .files) cs segs := by
  induction cs generalizing segs with
  | nil =>
    cases segs with
    | nil => exact .nil
    | cons seg segs => cases (show [] = below (seg :: segs) from h)
  | cons c cs ih =>
    have ih := fun segs => @ih segs fun c hc => hcs c (List.mem_cons_of_mem _ hc)
    by_cases hc : c = recursive
    · rw [hc, ofComponents_recursive, anyDepth_of_ne_exclude (by decide)] at h
      rw [hc]
      obtain ⟨m, h1, h2⟩ := h
      have hm := atBoundary_of_leaves_files hd h2
      -- the rounds of `**`, from the first one on
      suffices ∀ s, ReflTransGen (Leaves same oneDeeper) s m → ∀ segs, (∀ n ∈ segs, IsEntryName n) → s = below segs →
          Aligned (Enterable same) (Takes same .files) (recursive :: cs) segs from this _ h1 segs hs rfl
      intro s hstar
      induction hstar using ReflTransGen.head_induction_on with
      | refl => intro segs hs he; exact .skip (ih segs hs (he ▸ h2))
      | head hround hrest ih' =>
        intro segs hs he
        subst he
        cases segs with
        | nil => obtain ⟨_, ⟨_, hx, _⟩, _⟩ := hround; cases hx
        | cons seg segs =>
          obtain ⟨hseg, hsegs⟩ := List.forall_mem_cons.mp hs
          obtain ⟨he, hent⟩ := (leaves_oneDeeper hd hseg hsegs (atBoundary_of_star hd hrest hm)).mp hround
          exact .deeper hent (ih' segs hsegs he)
    · rw [ofComponents_files hc] at h
      obtain ⟨m, ⟨x, hx, -⟩, m', h1, h2⟩ := h
      cases segs with
      | nil => cases hx
      | cons seg segs =>
        obtain ⟨hseg, hsegs⟩ := List.forall_mem_cons.mp hs
        obtain ⟨-, rfl⟩ := List.cons.inj hx
        obtain rfl := eq_below_of_leaves hd (hcs c List.mem_cons_self) hseg.name.2 (atBoundary_of_leaves_files hd h2) h1
        exact .component hc h1 (ih segs hsegs h2)

theorem leaves_files_of_aligned (hd : Delimits same) {cs segs : List Text} (hs : ∀ n ∈ segs, IsEntryName n)
    (h : Aligned (Enterable same) (Takes same .files) cs segs) :
    Leaves same (ofComponents .files true cs) (below segs) [] := by
  induction h with
  | nil => rfl
  | skip _ ih =>
    rw [ofComponents_recursive, anyDepth_of_ne_exclude (by decide)]
    exact ⟨_, .refl, ih hs⟩
  | deeper hent _ ih =>
    rw [ofComponents_recursive, anyDepth_of_ne_exclude (by decide)] at ih ⊢
    obtain ⟨hseg, hsegs⟩ := List.forall_mem_cons.mp hs
    obtain ⟨m, h1, h2⟩ := ih hsegs
    exact ⟨m, .head ((leaves_oneDeeper hd hseg hsegs (atBoundary_below _)).mpr ⟨rfl, hent⟩) h1, h2⟩
  | component hc h _ ih =>
    rw [ofComponents_files hc]
    exact ⟨_, ⟨slash, rfl, (hd.slash slash).1.mpr rfl⟩, _, h, ih fun n hn => hs n (List.mem_cons_of_mem _ hn)⟩

theorem leaves_files_iff (hd : Delimits same) {cs segs : List Text} (hcs : ∀ c ∈ cs, slash ∉ c)
    (hs : ∀ n ∈ segs, IsEntryName n) :
    Leaves same (ofComponents .files true cs) (below segs) [] ↔ Aligned (Enterable same) (Takes same .files) cs segs :=
  ⟨aligned_of_leaves_files hd hcs hs, leaves_files_of_aligned hd hs⟩

/-- Every path on the way to a file that the components align with is a directory they lead through. -/
theorem leaves_directories (hd : Delimits same) {cs segs : List Text} (hs : ∀ n ∈ segs, IsEntryName n)
    (h : Aligned (Enterable same) (Takes same .files) cs segs) {pre : List Text} (hp : pre <+: segs) :
    Leaves same (ofComponents .directories true cs) (below pre) [] := by
  induction h generalizing pre with
  | nil => rw [List.prefix_nil.mp hp]; rfl
  | skip _ ih =>
    rw [ofComponents_recursive, anyDepth_of_ne_exclude (by decide)]
    exact ⟨_, .refl, ih hs hp⟩
  | deeper hent _ ih =>
    obtain ⟨hseg, hsegs⟩ := List.forall_mem_cons.mp hs
    cases pre with
    | nil => exact ih hsegs (List.nil_prefix)
    | cons seg' pre =>
      obtain ⟨rfl, hp'⟩ := List.cons_prefix_cons.mp hp
      have hpre : ∀ n ∈ pre, IsEntryName n := fun n hn => hsegs n (hp'.subset hn)
      have ih := ih hsegs hp'
      rw [ofComponents_recursive, anyDepth_of_ne_exclude (by decide)] at ih ⊢
      obtain ⟨m, h1, h2⟩ := ih
      exact ⟨m, .head ((leaves_oneDeeper hd hseg hpre (atBoundary_below _)).mpr ⟨rfl, hent⟩) h1, h2⟩
  | component hc h _ ih =>
    obtain ⟨hseg, hsegs⟩ := List.forall_mem_cons.mp hs
    rw [ofComponents_directories hc]
    cases pre with
    | nil => exact Or.inr rfl
    | cons seg' pre =>
      obtain ⟨rfl, hp'⟩ := List.cons_prefix_cons.mp hp
      have hpre : ∀ n ∈ pre, IsEntryName n := fun n hn => hsegs n (hp'.subset hn)
      exact Or.inl ⟨_, ⟨slash, rfl, (hd.slash slash).1.mpr rfl⟩, _, h.directories hd hseg.name.2 hseg.noLineFeed hsegs hpre,
        ih hsegs hp'⟩

/-! ## The pattern of a spec -/

/-- The components of a spec in absolute form; a spec that names a directory stands for all below it. -/
def specComponents (spec base : Text) : List Text :=
  let ns := names (resolve spec base)
  ns ++ if ns.getLast?.all isImplicit then [recursive, [asterisk]] else []

theorem mem_specComponents {spec base c : Text} (h : c ∈ specComponents spec base) : IsName c := by
  rcases List.mem_append.mp h with h | h
  · exact isName_of_mem_names h
  · split at h
    · simp only [List.mem_cons, List.not_mem_nil, or_false] at h
      rcases h with rfl | rfl
      · exact ⟨by decide, by decide⟩
      · exact ⟨by decide, by decide⟩
    · cases h

theorem rootAndComponents_of_startsAtRoot {spec base : Text} (h : startsAtRoot (resolve spec base) = true) :
    rootAndComponents spec base = ([slash], names (resolve spec base)) := by
  obtain ⟨t, ht⟩ := startsAtRoot_iff.mp h
  have hn : names (slash :: t) = names t := names_append_slash [] t
  rw [rootAndComponents, ht, hn]
  rfl

/-- The first name of a path that does not start at the root stands for its root. -/
theorem rootAndComponents_of_names {spec base first : Text} {rest : List Text} (h : resolve spec base = first ++ below rest)
    (hfirst : IsName first) (hrest : ∀ n ∈ rest, IsName n) : rootAndComponents spec base = (first ++ [slash], rest) := by
  have hchars : ∀ x ∈ first, (x != slash) = true := fun x hx => bne_iff_ne.mpr fun e => hfirst.2 (e ▸ hx)
  have htake : (below rest).takeWhile (· != slash) = [] := by cases rest <;> simp
  have hdrop : (below rest).dropWhile (· != slash) = below rest := by cases rest <;> simp
  unfold rootAndComponents
  rw [h]
  split
  · rename_i heq
    obtain ⟨x, first', rfl⟩ := List.exists_cons_of_ne_nil hfirst.1
    exact absurd (List.cons.inj heq).1 fun e => hfirst.2 (e ▸ List.mem_cons_self)
  · rw [List.takeWhile_append_of_pos hchars, List.dropWhile_append_of_pos hchars, htake, hdrop, List.append_nil,
      names_below hrest]

theorem components_root {first : Text} (hfirst : slash ∉ first) (rest : List Text) : components (first ++ [slash]) rest =
    first :: (rest ++ if isImplicit (rest.getLast?.getD (first ++ [slash])) then [recursive, [asterisk]] else []) := by
  have htrim : Text.trimEnd (· == slash) (first ++ [slash]) = first := by
    refine Text.trimEnd_append_of_not _ _ _ (fun c hc => ?_) (by simp)
    exact beq_false_of_ne fun e => hfirst (e ▸ List.mem_of_getLast? hc)
  rw [components, htrim]

theorem ofSpec?_eq {u : Usage} {spec base : Text} (h : startsAtRoot (resolve spec base) = true) :
    ofSpec? u base spec =
      if u ≠ .exclude ∧ (names (resolve spec base)).getLast? = some recursive then none
      else some (ofComponents u false ([] :: specComponents spec base)) := by
  have hroot := rootAndComponents_of_startsAtRoot h
  have himplicit : isImplicit [slash] = true := by decide
  have hne : [slash] ≠ recursive := by decide
  simp only [ofSpec?, hroot, components, specComponents]
  cases hl : (names (resolve spec base)).getLast? with
  | none => simp [himplicit, hne, Text.trimEnd]
  | some last => simp [Text.trimEnd]

theorem leaves_first (s r : Text) (u : Usage) : Leaves same (componentPattern u []) s r ↔ r = s := by
  cases u <;> rfl

theorem leaves_ofComponents {u : Usage} (hu : u ≠ .directories) (cs : List Text) (s r : Text) :
    Leaves same (ofComponents u false ([] :: cs)) s r ↔ Leaves same (ofComponents u true cs) s r := by
  have he : ofComponents u false ([] :: cs) = .seq .empty (.seq (componentPattern u []) (ofComponents u true cs)) := by
    simp [ofComponents, recursive, hu]
  rw [he]
  constructor
  · rintro ⟨m, rfl, m', h1, h2⟩
    rw [(leaves_first _ _ _).mp h1] at h2
    exact h2
  · exact fun h => ⟨s, rfl, s, (leaves_first _ _ _).mpr rfl, h⟩

/-- A text without line feeds ends at its last character only. -/
theorem leaves_atEnd {p : Pattern} {s : Text} (hlf : lineFeed ∉ s) :
    (∃ r, Leaves same (.seq p .atEnd) s r) ↔ Leaves same p s [] := by
  constructor
  · rintro ⟨r, m, h, rfl, rfl | rfl⟩
    · exact h
    · exact absurd (h.suffix.subset (List.mem_singleton.mpr rfl)) hlf
  · exact fun h => ⟨[], [], h, rfl, Or.inl rfl⟩

/-- An include without a trailing `**` matches the paths its components align with. -/
theorem isMatch_ofInclude {caseSensitive : Bool} (hd : Delimits (sameOn caseSensitive)) {spec base : Text} {p : Pattern}
    (hr : startsAtRoot (resolve spec base) = true) (hp : ofInclude? base spec = some p) {segs : List Text}
    (hs : ∀ n ∈ segs, IsEntryName n) :
    p.isMatch caseSensitive (below segs) = true ↔
      Aligned (Enterable (sameOn caseSensitive)) (Takes (sameOn caseSensitive) .files) (specComponents spec base) segs := by
  simp only [ofInclude?, ofSpec?_eq hr, Option.map_eq_some_iff] at hp
  obtain ⟨q, hq, rfl⟩ := hp
  split at hq
  · cases hq
  · obtain rfl := Option.some.inj hq
    rw [isMatch_iff, leaves_atEnd (lineFeed_not_mem_below hs)]
    change Leaves _ (ofComponents .files false _) _ _ ↔ _
    rw [leaves_ofComponents (by decide), leaves_files_iff hd (fun c hc => (mem_specComponents hc).2) hs]

end TsProject.Glob
