/-
  TsProject.Proofs.Glob.Once — a walk lists no directory twice and finds no file twice.

  No two stops of a walk have one real path, whatever is listed. That the stops have
  different names as well is due to the cover: its directories lie outside one another,
  but for those above the path that is searched, and it takes that each of them is read in
  the same way. A bare drive is not: it is read below the current directory, and what is
  below it on another way is not. Hence the condition on the cover.

  - `exists_cover_eq`: the directories of a cover are in order, and none is in an earlier one.
  - `eq_path_of_stem`: only the path that is searched may lie below another one.
  - `Anchored`: the directories of a cover are rooted, or read in a directory that starts at
    the root.
  - `matchFiles_once`: a walk comes to its end, and lists and finds everything once.
-/

import TsProject.Proofs.Glob.Cover
import TsProject.Proofs.Glob.Itinerary
import TsProject.Proofs.Stem
import Mathlib.Data.List.Pairwise

/-! ## The order of texts -/

namespace TsProject.Text

theorem le_total (s t : Text) : (le s t || le t s) = true := by
  induction s generalizing t with
  | nil => rfl
  | cons a s ih =>
    cases t with
    | nil => rfl
    | cons b t =>
      by_cases hab : a = b
      · rw [le, le, if_pos hab, if_pos hab.symm]
        exact ih t
      · rw [le, le, if_neg hab, if_neg (Ne.symm hab), Bool.or_eq_true, decide_eq_true_eq, decide_eq_true_eq]
        exact Nat.lt_or_gt_of_ne hab

theorem le_trans (s t u : Text) (hst : le s t = true) (htu : le t u = true) : le s u = true := by
  induction s generalizing t u with
  | nil => rfl
  | cons a s ih =>
    cases t with
    | nil => cases hst
    | cons b t =>
      cases u with
      | nil => cases htu
      | cons c u =>
        simp only [le] at hst htu ⊢
        by_cases hab : a = b
        · by_cases hbc : b = c
          · rw [if_pos hab] at hst
            rw [if_pos hbc] at htu
            rw [if_pos (hab.trans hbc)]
            exact ih t u hst htu
          · rw [if_neg hbc] at htu
            rw [hab, if_neg hbc]
            exact htu
        · rw [if_neg hab, decide_eq_true_eq] at hst
          by_cases hbc : b = c
          · rw [← hbc, if_neg hab, decide_eq_true_eq]
            exact hst
          · rw [if_neg hbc, decide_eq_true_eq] at htu
            rw [if_neg (Nat.ne_of_lt (Nat.lt_trans hst htu)), decide_eq_true_eq]
            exact Nat.lt_trans hst htu

/-- A text that goes on is behind the one it starts with. -/
theorem not_le_append (s : Text) {t : Text} (ht : t ≠ []) : le (s ++ t) s = false := by
  induction s with
  | nil =>
    obtain ⟨c, t, rfl⟩ := List.exists_cons_of_ne_nil ht
    rfl
  | cons a s ih =>
    rw [List.cons_append, le, if_pos rfl]
    exact ih

end TsProject.Text

namespace TsProject.Glob

open CodePoint TsProject.Path

/-! ## Directories above one another -/

variable {caseSensitive : Bool} {d d' : Text}

theorem canonical_append_slash (caseSensitive : Bool) (s t : Text) :
    canonical caseSensitive (s ++ slash :: t) = canonical caseSensitive s ++ slash :: canonical caseSensitive t := by
  cases caseSensitive with
  | true => rfl
  | false => exact Text.lower_append_slash s t

theorem canonical_eq_nil_iff {s : Text} : canonical caseSensitive s = [] ↔ s = [] := by
  cases caseSensitive with
  | true => exact Iff.rfl
  | false => exact Text.lower_eq_nil_iff

/-- What starts with the stem of a directory is within it. -/
theorem isWithin_of_stem (hd : d ≠ []) (h : stem d <+: d') : isWithin caseSensitive d d' = true := by
  obtain ⟨t, rfl⟩ := h
  obtain ⟨s, hs, hcases⟩ := exists_stem hd
  have htrim : Text.trimEnd (· == slash) (canonical caseSensitive d) =
      Text.trimEnd (· == slash) (canonical caseSensitive s) := by
    rcases hcases with heq | heq
    · rw [heq]
    · have hnil : canonical caseSensitive [] = [] := canonical_eq_nil_iff.mpr rfl
      rw [heq, canonical_append_slash, hnil, Text.trimEnd_concat]
      rfl
  have hpre : Text.startsWith (canonical caseSensitive (stem d ++ t))
      (Text.trimEnd (· == slash) (canonical caseSensitive d) ++ [slash]) = true := by
    rw [Text.startsWith, List.isPrefixOf_iff_prefix, htrim, hs, List.append_assoc s, List.singleton_append,
      canonical_append_slash, List.append_cons (canonical caseSensitive s)]
    exact (trimEnd_slash _).trans (List.prefix_append _ _)
  rw [isWithin, Bool.or_eq_true]
  exact Or.inr hpre

/-- What starts with the stem of a directory comes behind it. -/
theorem not_le_of_stem (h : stem d <+: d') (hne : d ≠ d') :
    Text.le (canonical caseSensitive d') (canonical caseSensitive d) = false := by
  obtain ⟨t, rfl⟩ := h
  by_cases hd : d = []
  · rw [hd, stem_nil, List.nil_append] at hne ⊢
    have hnil : canonical caseSensitive [] = [] := canonical_eq_nil_iff.mpr rfl
    rw [hnil, ← List.nil_append (canonical caseSensitive t)]
    exact Text.not_le_append [] fun hc => hne (canonical_eq_nil_iff.mp hc).symm
  · obtain ⟨s, hs, hcases⟩ := exists_stem hd
    rw [hs, List.append_assoc, List.singleton_append] at hne ⊢
    rw [canonical_append_slash]
    rcases hcases with rfl | rfl
    · exact Text.not_le_append _ (List.cons_ne_nil _ _)
    · have hnil : canonical caseSensitive [] = [] := canonical_eq_nil_iff.mpr rfl
      rw [canonical_append_slash, hnil, List.append_cons]
      apply Text.not_le_append
      intro hc
      apply hne
      rw [canonical_eq_nil_iff.mp hc]

/-! ## The order of a cover -/

theorem foldl_keep_eq (caseSensitive : Bool) (bases kept : List Text) :
    ∃ added, bases.foldl (keep caseSensitive) kept = kept ++ added ∧ added.Sublist bases ∧
      (kept.Pairwise (fun a b => isWithin caseSensitive a b = false) →
        (kept ++ added).Pairwise fun a b => isWithin caseSensitive a b = false) := by
  induction bases generalizing kept with
  | nil => exact ⟨[], (List.append_nil _).symm, .slnil, fun h => by rw [List.append_nil]; exact h⟩
  | cons b bases ih =>
    rw [List.foldl_cons]
    by_cases hb : kept.any (isWithin caseSensitive · b) = true
    · obtain ⟨added, hadded, hsub, hpairs⟩ := ih kept
      refine ⟨added, ?_, hsub.cons b, hpairs⟩
      rw [keep, if_pos hb]
      exact hadded
    · obtain ⟨added, hadded, hsub, hpairs⟩ := ih (kept ++ [b])
      refine ⟨b :: added, ?_, hsub.cons_cons b, ?_⟩
      · rw [keep, if_neg hb, hadded, List.append_assoc, List.singleton_append]
      · intro hkept
        rw [List.append_cons]
        apply hpairs
        rw [List.pairwise_append]
        refine ⟨hkept, List.pairwise_singleton _ b, ?_⟩
        intro a ha b' hb'
        rw [List.mem_singleton.mp hb']
        exact Bool.eq_false_iff.mpr fun hw => hb (List.any_eq_true.mpr ⟨a, ha, hw⟩)

/-- A cover is the path that is searched, and other directories in order; none is within one before it. -/
theorem exists_cover_eq (caseSensitive : Bool) (path : Text) (includes : List Text) :
    ∃ added, cover caseSensitive path includes = path :: added ∧
      (path :: added).Pairwise (fun a b => isWithin caseSensitive a b = false) ∧
      added.Pairwise fun a b => Text.le (canonical caseSensitive a) (canonical caseSensitive b) = true := by
  obtain ⟨added, hadded, hsub, hpairs⟩ := foldl_keep_eq caseSensitive
    ((includes.map fun spec => baseOf (absoluteInclude path spec)).mergeSort fun a b =>
      Text.le (canonical caseSensitive a) (canonical caseSensitive b)) [path]
  refine ⟨added, hadded, hpairs (List.pairwise_singleton _ path), ?_⟩
  refine List.Pairwise.sublist hsub (List.pairwise_mergeSort ?_ ?_ _)
  · exact fun a b c => Text.le_trans _ _ _
  · exact fun a b => Text.le_total _ _

/-- Only the path that is searched may lie below another directory of its cover. -/
theorem eq_path_of_stem {path : Text} {includes : List Text} (hd : d ∈ cover caseSensitive path includes)
    (hd' : d' ∈ cover caseSensitive path includes) (hnil : d ≠ []) (hne : d ≠ d') (h : stem d <+: d') : d' = path := by
  obtain ⟨added, hcover, hpairs, hsorted⟩ := exists_cover_eq caseSensitive path includes
  rw [hcover] at hd hd'
  obtain ⟨hpath, hadded⟩ := List.pairwise_cons.mp hpairs
  have hwithin : isWithin caseSensitive d d' = true := isWithin_of_stem hnil h
  rcases List.mem_cons.mp hd' with heq | hlater'
  · exact heq
  · exfalso
    rcases List.mem_cons.mp hd with rfl | hlater
    · rw [hpath d' hlater'] at hwithin
      cases hwithin
    · -- whichever of the two comes first, it is not where its order puts it
      let before (a b : Text) : Prop :=
        isWithin caseSensitive a b = false ∧ Text.le (canonical caseSensitive a) (canonical caseSensitive b) = true
      have hboth : added.Pairwise fun a b => before a b ∨ before b a := (hadded.and hsorted).imp Or.inl
      have : Std.Symm fun a b => before a b ∨ before b a := ⟨fun _ _ => Or.symm⟩
      rcases hboth.forall hlater hlater' hne with ⟨hout, -⟩ | ⟨-, hle⟩
      · rw [hout] at hwithin
        cases hwithin
      · rw [not_le_of_stem h hne] at hle
        cases hle

/-! ## Stops of one name -/

variable {t : Tree} {f : Filter} {s : Search}

/-- The names lead from a directory through the listings. -/
def Leads (t : Tree) : Text → List Text → Prop
  | _, [] => True
  | d, n :: ns => n ∈ (t.entries d).2 ∧ Leads t (entry d n) ns

theorem leads_append {ms ns : List Text} : Leads t d (ms ++ ns) ↔ Leads t d ms ∧ Leads t (descend d ms) ns := by
  induction ms generalizing d with
  | nil => exact (and_iff_right trivial).symm
  | cons m ms ih =>
    change _ ∧ Leads t (entry d m) (ms ++ ns) ↔ (_ ∧ _) ∧ _
    rw [ih, and_assoc]
    rfl

theorem Leads.exists_listed {ns : List Text} (h : Leads t d ns) : ∀ n ∈ ns, ∃ x, n ∈ (t.entries x).2 := by
  induction ns generalizing d with
  | nil => simp
  | cons n ns ih => exact List.forall_mem_cons.mpr ⟨⟨d, h.1⟩, ih h.2⟩

/-- What is met lies below one of the agenda, under its name as under its absolute name. -/
theorem Met.descends {agenda : List Stop} {v : Stop} (h : Met t f agenda v) :
    ∃ start ∈ agenda, ∃ ns, Leads t start.directory ns ∧ v.directory = descend start.directory ns ∧
      v.absolute = descend start.absolute ns := by
  induction h with
  | @first v hv => exact ⟨v, hv, [], trivial, rfl, rfl⟩
  | @inner v u _ hu ih =>
    obtain ⟨start, hstart, ns, hns, hdirectory, habsolute⟩ := ih
    obtain ⟨n, hn, -, rfl⟩ := Stop.exists_child_of_mem_inner hu
    refine ⟨start, hstart, ns ++ [n], ?_, ?_, ?_⟩
    · rw [leads_append, ← hdirectory]
      exact ⟨hns, hn, trivial⟩
    · rw [descend_append, ← hdirectory]
      rfl
    · rw [descend_append, ← habsolute]
      rfl

/-- The directories a search starts from are all rooted, or else read in one that starts at the root, where none
is on a drive and the names listed are plain. -/
inductive Anchored (t : Tree) (s : Search) : Prop
  | rooted : (∀ d ∈ cover s.caseSensitive (normalize s.path) s.includes, isRooted d = true) → Anchored t s
  | current : startsAtRoot (normalize s.currentDirectory) = true →
      (∀ d ∈ cover s.caseSensitive (normalize s.path) s.includes, isRooted d = true → startsAtRoot d = true) →
      (∀ d, ∀ n ∈ (t.entries d).2, IsPlain n) → Anchored t s

theorem startsAtRoot_of_stem {ms : List Text} (hms : ∀ m ∈ ms, IsName m) (hne : d ≠ d') (h : stem d <+: d')
    (hstem : stem d' = stem d ++ trail ms) : startsAtRoot d = startsAtRoot d' := by
  by_cases hd : d = []
  · subst hd
    rw [stem_nil, List.nil_append] at hstem
    rw [← startsAtRoot_of_start (Ne.symm hne) (prefix_stem d'), hstem, startsAtRoot_trail hms]
    rfl
  · exact (startsAtRoot_of_start hd ((prefix_stem d).trans h)).symm

/-- A directory of the cover that lies below another one is the same directory on either way. -/
theorem Anchored.resolve_eq (ha : Anchored t s) (hd : d ∈ cover s.caseSensitive (normalize s.path) s.includes)
    (hd' : d' ∈ cover s.caseSensitive (normalize s.path) s.includes) (hne : d ≠ d') {ms : List Text}
    (hms : ∀ m ∈ ms, IsName m) (hlisted : ∀ m ∈ ms, ∃ x, m ∈ (t.entries x).2) (h : stem d <+: d')
    (hstem : stem d' = stem d ++ trail ms) :
    Path.resolve d' (normalize s.currentDirectory) = descend (Path.resolve d (normalize s.currentDirectory)) ms := by
  cases ha with
  | rooted hrooted =>
    have hnil : d ≠ [] := by
      rintro rfl
      exact absurd (hrooted _ hd) Bool.false_ne_true
    have hpath := eq_path_of_stem hd hd' hnil hne h
    rw [resolve_of_isRooted (hrooted d hd), resolve_of_isRooted (hrooted d' hd')]
    refine normalize_of_stem (hrooted d hd) (hrooted d' hd') ?_ ((prefix_stem d).trans h) hstem hms
    rw [hpath]
    exact normalize_normalize s.path
  | current hcurrent hstart hplain =>
    refine resolve_of_stem hcurrent (hstart d hd) (hstart d' hd') (startsAtRoot_of_stem hms hne h hstem) hstem ?_
    intro m hm
    obtain ⟨x, hx⟩ := hlisted m hm
    exact hplain x m hx

/-- Stops that have one stem are one directory. -/
theorem absolute_of_stem (ha : Anchored t s) (hnames : ∀ d, ∀ n ∈ (t.entries d).2, IsName n) {v v' : Stop}
    (hv : Met t f s.starts v) (hv' : Met t f s.starts v') (h : stem v.directory = stem v'.directory) :
    v.absolute = v'.absolute := by
  obtain ⟨start, hstart, ns, hns, hdirectory, habsolute⟩ := hv.descends
  obtain ⟨start', hstart', ns', hns', hdirectory', habsolute'⟩ := hv'.descends
  obtain ⟨d, hd, rfl⟩ := List.mem_map.mp hstart
  obtain ⟨d', hd', rfl⟩ := List.mem_map.mp hstart'
  replace hns := hns.exists_listed
  replace hns' := hns'.exists_listed
  have hname : ∀ {l : List Text}, (∀ n ∈ l, ∃ x, n ∈ (t.entries x).2) → ∀ n ∈ l, IsName n := by
    intro l hl n hn
    obtain ⟨x, hx⟩ := hl n hn
    exact hnames x n hx
  rw [hdirectory, hdirectory', stem_descend _ (hname hns), stem_descend _ (hname hns')] at h
  rw [habsolute, habsolute']
  by_cases heq : d = d'
  · rw [heq] at h ⊢
    rw [trail_injective (hname hns) (hname hns') (List.append_cancel_left h)]
  · -- one of the two starts below the other
    have hsame : ∀ {d d' : Text}, d ∈ cover s.caseSensitive (normalize s.path) s.includes →
        d' ∈ cover s.caseSensitive (normalize s.path) s.includes → d ≠ d' → ∀ {ms : List Text},
        (∀ n ∈ ms, ∃ x, n ∈ (t.entries x).2) → stem d' = stem d ++ trail ms →
        Path.resolve d' (normalize s.currentDirectory) = descend (Path.resolve d (normalize s.currentDirectory)) ms := by
      intro d d' hd hd' hne ms hms hstem
      rcases prefix_of_stem hstem hne with hpre | ⟨rfl, hpre⟩
      · exact ha.resolve_eq hd hd' hne (hname hms) hms hpre hstem
      · rw [trail_nil, List.append_nil] at hstem
        refine (ha.resolve_eq hd' hd (Ne.symm hne) (List.forall_mem_nil _) (List.forall_mem_nil _) hpre ?_).symm
        rw [trail_nil, List.append_nil, hstem]
    rcases stems_meet (hname hns) (hname hns') h with ⟨ms, hstem, rfl⟩ | ⟨ms, hstem, rfl⟩
    · have hms : ∀ m ∈ ms, ∃ x, m ∈ (t.entries x).2 := fun m hm => hns m (List.mem_append_left _ hm)
      change descend (Path.resolve d _) (ms ++ ns') = descend (Path.resolve d' _) ns'
      rw [descend_append, hsame hd hd' heq hms hstem]
    · have hms : ∀ m ∈ ms, ∃ x, m ∈ (t.entries x).2 := fun m hm => hns' m (List.mem_append_left _ hm)
      change descend (Path.resolve d _) ns = descend (Path.resolve d' _) (ms ++ ns)
      rw [descend_append, hsame hd' hd (Ne.symm heq) hms hstem]

/-! ## What is listed and found -/

/-- Listings hold names, each once. -/
structure Tree.Proper (t : Tree) : Prop where
  names : ∀ d, ∀ n ∈ (t.entries d).1 ++ (t.entries d).2, IsName n
  distinct : ∀ d, (t.entries d).1.Nodup ∧ (t.entries d).2.Nodup

theorem mem_files {v : Stop} {F : Text} (h : F ∈ (v.files t f).map (·.2)) :
    ∃ n ∈ (t.entries v.directory).1, F = entry v.directory n := by
  obtain ⟨e, he, rfl⟩ := List.mem_map.mp h
  obtain ⟨n, hn, hgroup⟩ := List.mem_filterMap.mp he
  obtain ⟨g, -, rfl⟩ := Option.map_eq_some_iff.mp hgroup
  exact ⟨n, hn, rfl⟩

/-- The files found at one stop have different names. -/
theorem nodup_files (ht : t.Proper) (v : Stop) : ((v.files t f).map (·.2)).Nodup := by
  rw [Stop.files, selectFiles, List.map_filterMap]
  apply (ht.distinct v.directory).1.filterMap
  intro n m F hn hm
  simp only [Option.map_map, Option.mem_def, Option.map_eq_some_iff, Function.comp_apply, entry_eq_stem] at hn hm
  obtain ⟨_, -, rfl⟩ := hn
  obtain ⟨_, -, heq⟩ := hm
  exact (List.append_cancel_left heq).symm

/-- Where the stops have different stems, no file is found at two of them. -/
theorem nodup_flatMap_files (ht : t.Proper) {stops : List Stop} (h : (stops.map fun v => stem v.directory).Nodup) :
    ((stops.flatMap (Stop.files t f)).map (·.2)).Nodup := by
  have hname : ∀ v : Stop, ∀ n ∈ (t.entries v.directory).1, slash ∉ n := fun v n hn =>
    (ht.names v.directory n (List.mem_append_left _ hn)).2
  rw [List.map_flatMap, List.nodup_flatMap]
  refine ⟨fun v _ => nodup_files ht v, (List.pairwise_map.mp h).imp ?_⟩
  intro v v' hstem F hF hF'
  obtain ⟨n, hn, rfl⟩ := mem_files hF
  obtain ⟨n', hn', heq⟩ := mem_files hF'
  exact hstem (entry_inj (hname v n hn) (hname v' n' hn') heq).1

/-- A walk works off its agenda to the end and lists no real directory twice. On a proper file system it lists none
under one name twice either, and finds no file twice, if the directories it starts from are anchored. -/
theorem matchFiles_once (h : Bounded t s) :
    (∃ stops, (∀ course, Itinerary t s.filter [] s.starts course ↔ course = stops) ∧
      (walk t s).listed = stops.map Stop.directory ∧ (stops.map (Stop.real t s.filter)).Nodup) ∧
    (t.Proper → Anchored t s → (walk t s).listed.Nodup ∧ (matchFiles t s).Nodup) := by
  obtain ⟨stops, hcourse, hwalk⟩ := walk_follows h
  have hdone : Itinerary t s.filter [] s.starts stops := (hcourse stops).mpr rfl
  have hreals := hdone.nodup_reals.1
  have hlisted : (walk t s).listed = stops.map Stop.directory := by
    rw [hwalk, listed_after]
    exact List.nil_append _
  have hfound : (walk t s).found = stops.flatMap (Stop.files t s.filter) := by
    rw [hwalk, found_after]
    exact List.nil_append _
  refine ⟨⟨stops, hcourse, hlisted, hreals⟩, ?_⟩
  intro ht ha
  have hmet : ∀ v ∈ stops, Met t s.filter s.starts v := hdone.met fun v hv => .first hv
  have hnames : ∀ d, ∀ n ∈ (t.entries d).2, IsName n := fun d n hn => ht.names d n (List.mem_append_right _ hn)
  have hstems : (stops.map fun v => stem v.directory).Nodup := by
    refine List.pairwise_map.mpr ((List.pairwise_map.mp hreals).imp_of_mem ?_)
    intro v v' hv hv' hreal hstem
    apply hreal
    rw [Stop.real, absolute_of_stem ha hnames (hmet v hv) (hmet v' hv') hstem]
    rfl
  constructor
  · rw [hlisted]
    apply List.Nodup.of_map stem
    rw [List.map_map]
    exact hstems
  · apply Walk.nodup_files
    rw [hfound]
    exact nodup_flatMap_files ht hstems

/-! ## Where a search is anchored -/

theorem isRooted_baseOf {spec : Text} (h : startsAtRoot (forwardSlashes spec) = true) : isRooted (baseOf spec) = true := by
  obtain ⟨c, spec, rfl⟩ : ∃ c rest, spec = c :: rest := by
    apply List.exists_cons_of_ne_nil
    rintro rfl
    cases h
  have hc : c = slash ∨ c = backslash := by
    obtain ⟨t, ht⟩ := startsAtRoot_iff.mp h
    by_cases hback : c = backslash
    · exact Or.inr hback
    · left
      rw [forwardSlashes, List.map_cons, if_neg hback] at ht
      exact (List.cons.inj ht).1
  have hstart : ∀ u, u <+: c :: spec → isRooted (if u.isEmpty then [slash] else u) = true := by
    intro u hpre
    cases u with
    | nil => rfl
    | cons x u =>
      rw [(List.cons_prefix_cons.mp hpre).1]
      rcases hc with rfl | rfl
      · rfl
      · rfl
  unfold baseOf
  by_cases hany : (c :: spec).any isWildcard = true
  · rw [if_pos hany]
    simp only []
    split
    · apply hstart
      refine (List.dropLast_prefix _).trans (List.IsPrefix.trans ?_ (List.takeWhile_prefix (!isWildcard ·)))
      rw [Text.throughLast, ← List.reverse_suffix, List.reverse_reverse]
      exact List.dropWhile_suffix _
    · exact hstart _ (List.dropLast_prefix _)
  · rw [if_neg hany]
    split
    · rw [directory_rooted h]
      exact isRooted_of_startsAtRoot (startsAtRoot_absolute _)
    · exact hstart _ (List.prefix_refl _)

/-- A search in a rooted directory is anchored unless an include names a drive. -/
theorem anchored_of_specs (hpath : startsAtRoot (forwardSlashes s.path) = true)
    (hspecs : ∀ spec ∈ s.includes, ¬ IsDriveRooted spec) : Anchored t s := by
  apply Anchored.rooted
  intro d hd
  rw [normalize_rooted hpath] at hd
  rcases eq_or_exists_of_mem_cover hd with rfl | ⟨spec, hspec, rfl⟩
  · exact isRooted_of_startsAtRoot (startsAtRoot_absolute _)
  · cases hrooted : isRooted spec with
    | false =>
      rw [(baseOf_absoluteInclude _ hrooted).1]
      exact isRooted_of_startsAtRoot (startsAtRoot_absolute _)
    | true =>
      rw [absoluteInclude, if_pos hrooted]
      apply isRooted_baseOf
      by_contra hstart
      exact hspecs spec hspec ⟨hrooted, Bool.eq_false_iff.mpr hstart⟩

/-- It is enough that there are few real paths at all. -/
theorem bounded_of_realpath {reals : List Text} (hreals : ∀ p, canonical s.caseSensitive (t.realpath p) ∈ reals)
    (hlevels : reals.length < t.levels) : Bounded t s :=
  ⟨reals, fun _ _ u _ => hreals u.absolute, hlevels⟩

/-- A directory below the root whose only link leads back to it. -/
def loop : Tree where
  entries d := if d = [slash] then ([], [Text.of "p"]) else ([Text.of "a.ts"], [Text.of "link"])
  realpath d := if d = [slash] then d else Text.of "/p"
  levels := 3

theorem matchFiles_once_loop :
    let s : Search := { path := Text.of "/p", includes := [Text.of "/*/*", Text.of "/p//link/../*", Text.of "link/**/*"] }
    Bounded loop s ∧ loop.Proper ∧ Anchored loop s ∧ (walk loop s).listed = [Text.of "/p", Text.of "/"] ∧
      (walk loop s).listed.Nodup ∧ (matchFiles loop s).Nodup := by
  intro s
  have hreals : ∀ p, canonical true (loop.realpath p) ∈ [[slash], Text.of "/p"] := by
    intro p
    change ite (p = [slash]) p _ ∈ _
    split
    · rename_i h
      rw [h]
      exact List.mem_cons_self
    · exact List.mem_cons_of_mem _ List.mem_cons_self
  have hbounded : Bounded loop s := bounded_of_realpath hreals (by decide)
  have hproper : loop.Proper := by
    have hentries : ∀ d, loop.entries d ∈ [([], [Text.of "p"]), ([Text.of "a.ts"], [Text.of "link"])] := by
      intro d
      change ite (d = [slash]) _ _ ∈ _
      split <;> simp
    constructor
    · exact fun d => (show ∀ e ∈ _, ∀ n ∈ e.1 ++ e.2, IsName n by decide) _ (hentries d)
    · exact fun d => (show ∀ e ∈ _, e.1.Nodup ∧ e.2.Nodup by decide) _ (hentries d)
  have hanchored : Anchored loop s := anchored_of_specs (by decide) (by decide)
  have hlisted : (walk loop s).listed = [Text.of "/p", Text.of "/"] := by
    rw [walk, cover_of_sorted (by decide)]
    decide +kernel
  exact ⟨hbounded, hproper, hanchored, hlisted, (matchFiles_once hbounded).2 hproper hanchored⟩

/-- A drive with one directory, and a current directory that is not on it. -/
def drive : Tree where
  entries d := if d = Text.of "C:" then ([], [Text.of "x"]) else if d = Text.of "C:/x" then ([Text.of "f.ts"], []) else ([], [])
  realpath d := if d = Text.of "C:/x" ∨ d = Text.of "/cwd/C:" ∨ d = Text.of "/cwd/C:/x" then d else Text.of "/cwd"
  levels := 5

/-- The base of `C:/*/*` is read below the current directory, and the directory on the drive is listed again. -/
theorem matchFiles_drive :
    let s : Search :=
      { path := Text.of "C:/x", includes := [Text.of "/cwd/**/*", Text.of "C:/*/*"], currentDirectory := Text.of "/cwd" }
    Bounded drive s ∧ drive.Proper ∧ matchFiles drive s = [Text.of "C:/x/f.ts", Text.of "C:/x/f.ts"] := by
  intro s
  have hreals : ∀ p, canonical true (drive.realpath p) ∈
      [Text.of "C:/x", Text.of "/cwd/C:", Text.of "/cwd/C:/x", Text.of "/cwd"] := by
    intro p
    change ite (p = _ ∨ p = _ ∨ p = _) p _ ∈ _
    split
    · rename_i h
      rcases h with h | h | h
      · simp [h]
      · simp [h]
      · simp [h]
    · simp
  have hbounded : Bounded drive s := bounded_of_realpath hreals (by decide)
  have hproper : drive.Proper := by
    have hentries : ∀ d, drive.entries d ∈ [([], [Text.of "x"]), ([Text.of "f.ts"], []), ([], [])] := by
      intro d
      change ite (d = _) _ (ite (d = _) _ _) ∈ _
      split
      · simp
      · split <;> simp
    constructor
    · exact fun d => (show ∀ e ∈ _, ∀ n ∈ e.1 ++ e.2, IsName n by decide) _ (hentries d)
    · exact fun d => (show ∀ e ∈ _, e.1.Nodup ∧ e.2.Nodup by decide) _ (hentries d)
  refine ⟨hbounded, hproper, ?_⟩
  rw [matchFiles, walk, cover_of_sorted (by decide)]
  decide +kernel

end TsProject.Glob
