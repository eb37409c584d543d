/-
  TsProject.Proofs.Glob.Exclusion — more excludes never find a file more.

  An exclude takes away directories, and a directory that is taken away may have been the
  one under which another was visited first. So the course of a walk with more excludes is
  not a part of the course with fewer. It is one on the way to each file that is still
  found: no directory above such a file is excluded in either walk, so the two walks list
  these directories in the same order and under the same names.

  - `Itinerary.catch_up`: what does not matter is worked off first.
  - `Itinerary.filter_eq`: two courses that go alike into the stops that matter are alike there.
  - `matchFiles_excluding`: a search with more excludes finds no other files.
-/

import TsProject.Proofs.Glob.Itinerary
import TsProject.Proofs.Glob.Search
import TsProject.Proofs.Stem

namespace TsProject.Glob

open CodePoint TsProject.Path

variable {t : Tree} {f f' : Filter}

/-! ## The stops that matter -/

/-- Some of the stops, and with each of them those above it. -/
structure Upward (t : Tree) (f : Filter) (P : Stop → Prop) : Prop where
  child : ∀ {v name}, P (v.child name) → P v
  real : ∀ {u v}, P u → u.real t f = v.real t f → P v

section Courses

variable {P : Stop → Prop} [DecidablePred P] {v : Stop} {seen seen' : List Text} {agenda agenda' stops stops' rest : List Stop}

theorem Upward.inner_eq_nil (hP : Upward t f P) (hv : ¬ P v) : (v.inner t f).filter P = [] := by
  refine List.filter_eq_nil_iff.mpr fun u hu => ?_
  obtain ⟨name, -, -, rfl⟩ := Stop.exists_child_of_mem_inner hu
  exact fun h => hv (hP.child (of_decide_eq_true h))

theorem Upward.filter_inner_append (hP : Upward t f P) (hv : ¬ P v) (agenda : List Stop) :
    (v.inner t f ++ agenda).filter P = (v :: agenda).filter P := by
  rw [List.filter_append, hP.inner_eq_nil hv, List.filter_cons_of_neg (by simpa using hv), List.nil_append]

theorem Itinerary.filter_eq_nil (hP : Upward t f P) (h : Itinerary t f seen agenda stops) (hagenda : agenda.filter P = []) :
    stops.filter P = [] := by
  induction h with
  | done => rfl
  | @pass _ v _ _ _ _ ih =>
    rw [List.filter_cons] at hagenda
    split at hagenda
    · cases hagenda
    · exact ih hagenda
  | @list _ v agenda _ _ _ ih =>
    by_cases hv : P v
    · rw [List.filter_cons_of_pos (by simpa using hv)] at hagenda
      cases hagenda
    · rw [List.filter_cons_of_neg (by simpa using hv)]
      exact ih ((hP.filter_inner_append hv agenda).trans hagenda)

/-- Before the first stop that matters, a course works off others, and comes to know no real path that matters. -/
theorem Itinerary.catch_up (hP : Upward t f P) (h : Itinerary t f seen agenda stops) (hagenda : agenda.filter P = v :: rest) :
    ∃ seen' agenda' stops', Itinerary t f seen' (v :: agenda') stops' ∧ agenda'.filter P = rest ∧
      stops'.filter P = stops.filter P ∧ ∀ u, P u → (u.real t f ∈ seen' ↔ u.real t f ∈ seen) := by
  induction h with
  | done => cases hagenda
  | @pass seen w agenda stops hw hrest ih =>
    by_cases hPw : P w
    · rw [List.filter_cons_of_pos (by simpa using hPw)] at hagenda
      obtain ⟨rfl, rfl⟩ := List.cons.inj hagenda
      exact ⟨seen, agenda, stops, .pass hw hrest, rfl, rfl, fun _ _ => Iff.rfl⟩
    · rw [List.filter_cons_of_neg (by simpa using hPw)] at hagenda
      exact ih hagenda
  | @list seen w agenda stops hw hrest ih =>
    by_cases hPw : P w
    · rw [List.filter_cons_of_pos (by simpa using hPw)] at hagenda
      obtain ⟨rfl, rfl⟩ := List.cons.inj hagenda
      exact ⟨seen, agenda, w :: stops, .list hw hrest, rfl, rfl, fun _ _ => Iff.rfl⟩
    · obtain ⟨seen', agenda', stops', hcourse, hagenda', hstops, hseen⟩ :=
        ih ((hP.filter_inner_append hPw agenda).trans hagenda)
      refine ⟨seen', agenda', stops', hcourse, hagenda', ?_, fun u hu => ?_⟩
      · rw [hstops, List.filter_cons_of_neg (by simpa using hPw)]
      · have hne : u.real t f ≠ w.real t f := fun h => hPw (hP.real hu h)
        rw [hseen u hu, List.mem_cons, or_iff_right hne]

/-- Two courses go through the same of the stops that matter, if both go into the same from each of them. -/
theorem Itinerary.filter_eq (hP : Upward t f P) (hreal : ∀ v : Stop, v.real t f' = v.real t f)
    (hinner : ∀ v, P v → (v.inner t f').filter P = (v.inner t f).filter P)
    (h : Itinerary t f seen agenda stops) (h' : Itinerary t f' seen' agenda' stops')
    (hseen : ∀ u, P u → (u.real t f ∈ seen' ↔ u.real t f ∈ seen)) (hagenda : agenda'.filter P = agenda.filter P) :
    stops'.filter P = stops.filter P := by
  have hP' : Upward t f' P := ⟨hP.child, fun {u v} hu h => hP.real hu (by rw [← hreal u, ← hreal v, h])⟩
  induction h generalizing seen' agenda' stops' with
  | done => exact h'.filter_eq_nil hP' hagenda
  | @pass seen v agenda stops hv _ ih =>
    by_cases hPv : P v
    · rw [List.filter_cons_of_pos (by simpa using hPv)] at hagenda
      obtain ⟨seen'', agenda'', stops'', hcourse, hagenda'', hstops, hseen''⟩ := h'.catch_up hP' hagenda
      have hknown : ∀ u, P u → (u.real t f ∈ seen'' ↔ u.real t f ∈ seen) := fun u hu => by
        rw [← hseen u hu, ← hreal u, hseen'' u hu]
      rw [← hstops]
      cases hcourse with
      | pass _ hcourse => exact ih hcourse hknown hagenda''
      | list hnew => exact absurd ((hknown v hPv).mpr hv) (hreal v ▸ hnew)
    · rw [List.filter_cons_of_neg (by simpa using hPv)] at hagenda
      exact ih h' hseen hagenda
  | @list seen v agenda stops hv _ ih =>
    by_cases hPv : P v
    · rw [List.filter_cons_of_pos (by simpa using hPv)] at hagenda ⊢
      obtain ⟨seen'', agenda'', stops'', hcourse, hagenda'', hstops, hseen''⟩ := h'.catch_up hP' hagenda
      have hknown : ∀ u, P u → (u.real t f ∈ seen'' ↔ u.real t f ∈ seen) := fun u hu => by
        rw [← hseen u hu, ← hreal u, hseen'' u hu]
      rw [← hstops]
      cases hcourse with
      | pass hold => exact absurd ((hknown v hPv).mp (hreal v ▸ hold)) hv
      | list _ hcourse =>
        rw [List.filter_cons_of_pos (by simpa using hPv)]
        congr 1
        refine ih hcourse (fun u hu => ?_) ?_
        · rw [hreal v, List.mem_cons, List.mem_cons, hknown u hu]
        · rw [List.filter_append, List.filter_append, hinner v hPv, hagenda'']
    · rw [List.filter_cons_of_neg (by simpa using hPv)]
      refine ih h' (fun u hu => ?_) ?_
      · have hne : u.real t f ≠ v.real t f := fun h => hPv (hP.real hu h)
        rw [List.mem_cons, or_iff_right hne, hseen u hu]
      · rw [hagenda, hP.filter_inner_append hPv]

end Courses

/-! ## More excludes -/

/-- What lies below a directory goes on behind it with a slash. -/
theorem exists_descend_eq (d : Text) {name : Text} (hname : IsName name) (ns : List Text) (n : Text) :
    ∃ rest, entry (descend (entry d name) ns) n = entry d name ++ slash :: rest := by
  have hfirst : ∀ m, entry (entry d name) m = entry d name ++ slash :: m := by
    intro m
    rw [entry_eq_stem, stem_entry d hname, entry_eq_stem, List.append_assoc, List.append_assoc, List.singleton_append,
      List.append_assoc]
  cases ns with
  | nil => exact ⟨n, hfirst n⟩
  | cons m ms =>
    obtain ⟨rest, hrest⟩ := (prefix_descend (entry (entry d name) m) ms).trans (prefix_entry _ n)
    refine ⟨m ++ rest, ?_⟩
    change entry (descend (entry (entry d name) m) ms) n = _
    rw [← hrest, hfirst, List.append_assoc, List.cons_append]

/-- A search with more excludes. -/
def Search.excluding (s : Search) (more : List Text) : Search := { s with excludes := s.excludes ++ more }

variable {s : Search}

section MoreExcludes

variable (more : List Text)

theorem isExcluded_more {x : Text} (h : s.filter.isExcluded x = true) :
    (s.excluding more).filter.isExcluded x = true := by
  unfold Filter.isExcluded at h ⊢
  obtain ⟨p, hp, hm⟩ := (Option.any_eq_true _ _).mp h
  obtain ⟨q, hq, hmore⟩ := isMatch_ofSpecs_append more hp
  exact (Option.any_eq_true _ _).mpr ⟨q, hq, hmore x hm⟩

theorem enters_of_more {x : Text} (h : (s.excluding more).filter.enters x = true) :
    s.filter.enters x = true := by
  obtain ⟨hdirectories, hexcluded⟩ := Bool.and_eq_true_iff.mp h
  refine Bool.and_eq_true_iff.mpr ⟨hdirectories, ?_⟩
  rw [Bool.not_eq_true', Bool.eq_false_iff] at hexcluded ⊢
  exact fun h => hexcluded (isExcluded_more more h)

theorem groupOf_of_more {name file : Text} {g : Nat}
    (h : (s.excluding more).filter.groupOf name file = some g) :
    (s.excluding more).filter.isExcluded file = false ∧ s.filter.groupOf name file = some g := by
  obtain ⟨hextension, hmore⟩ := accepted_of_groupOf h
  refine ⟨hmore, ?_⟩
  have hexcluded : s.filter.isExcluded file = false := by
    rw [Bool.eq_false_iff]
    intro hx
    rw [isExcluded_more more hx] at hmore
    cases hmore
  have hextension' : s.filter.hasExtension name = true := hextension
  rw [Filter.groupOf, hextension, hmore] at h
  rw [Filter.groupOf, hextension', hexcluded]
  exact h

theorem mem_inner_of_more {v u : Stop} (h : u ∈ v.inner t (s.excluding more).filter) :
    u ∈ v.inner t s.filter := by
  unfold Stop.inner at h ⊢
  split at h
  · cases h
  · rename_i hdepth
    rw [if_neg hdepth]
    obtain ⟨name, hname, rfl⟩ := List.mem_map.mp h
    obtain ⟨hname, henters⟩ := List.mem_filter.mp hname
    exact List.mem_map_of_mem (List.mem_filter.mpr ⟨hname, enters_of_more more henters⟩)

theorem Bounded.excluding (h : Bounded t s) : Bounded t (s.excluding more) := by
  obtain ⟨reals, hreals, hlevels⟩ := h
  have hmet : ∀ {v}, Met t (s.excluding more).filter (s.excluding more).starts v → Met t s.filter s.starts v := by
    intro v hv
    induction hv with
    | first hv => exact .first hv
    | inner _ hu ih => exact .inner ih (mem_inner_of_more more hu)
  exact ⟨reals, fun v hv u hu => hreals v (hmet hv) u (mem_inner_of_more more hu), hlevels⟩

/-- A directory above a file that is not excluded is not excluded either. -/
theorem enters_more_iff (hcase : s.caseSensitive = true) {a name n : Text} {ns : List Text} (hname : IsName name)
    (hends : ¬ [lineFeed] <:+ name)
    (hfile : (s.excluding more).filter.isExcluded (entry (descend (entry a name) ns) n) = false) :
    (s.excluding more).filter.enters (entry a name) = s.filter.enters (entry a name) := by
  rw [Bool.eq_iff_iff]
  refine ⟨enters_of_more more, fun h => ?_⟩
  refine Bool.and_eq_true_iff.mpr ⟨(Bool.and_eq_true_iff.mp h).1, ?_⟩
  rw [Bool.not_eq_true', Bool.eq_false_iff]
  intro hexcluded
  obtain ⟨rest, hrest⟩ := exists_descend_eq a hname ns n
  have hlf : ¬ [lineFeed] <:+ entry a name := by
    rw [entry_eq_stem]
    exact fun h => hends (List.suffix_of_suffix_length_le h (List.suffix_append _ _) (List.length_pos_of_ne_nil hname.1))
  have hcase' : (s.excluding more).filter.caseSensitive = true := hcase
  rw [hrest, isExcluded_append rfl hcase' hlf rest hexcluded] at hfile
  cases hfile

/-- A stop is a directory, or above it. -/
def Above (d : Text) (v : Stop) : Prop := ∃ ns, d = descend v.absolute ns

theorem upward_above (hrealpath : ∀ p, t.realpath p = p) (hcase : f.caseSensitive = true) (d : Text) : Upward t f (Above d) where
  child := fun {_ name} ⟨ns, hns⟩ => ⟨name :: ns, hns⟩
  real := by
    intro u v hu h
    rw [Stop.real_eq hcase, Stop.real_eq hcase, hrealpath, hrealpath] at h
    rwa [Above, h] at hu

/-- From a stop above such a file the walk goes into the same stops above it. -/
theorem filter_inner_more (hcase : s.caseSensitive = true) (hnames : ∀ d, ∀ n ∈ (t.entries d).2, IsName n ∧ ¬ [lineFeed] <:+ n)
    {d n : Text} (hfile : (s.excluding more).filter.isExcluded (entry d n) = false) [DecidablePred (Above d)] (v : Stop) :
    (v.inner t (s.excluding more).filter).filter (Above d) = (v.inner t s.filter).filter (Above d) := by
  unfold Stop.inner
  split
  · rfl
  · rw [List.filter_map, List.filter_map, List.filter_filter, List.filter_filter]
    congr 1
    refine List.filter_congr fun name hname => ?_
    obtain ⟨hname, hends⟩ := hnames v.directory name hname
    by_cases habove : Above d (v.child name)
    · obtain ⟨ns, rfl⟩ := habove
      rw [enters_more_iff more hcase hname hends hfile]
    · simp only [Function.comp_apply, habove, decide_false, Bool.false_and]

/-- The walks list the directories above such a file alike. -/
theorem mem_course_of_more (hrealpath : ∀ p, t.realpath p = p) (hcase : s.caseSensitive = true)
    (hnames : ∀ d, ∀ n ∈ (t.entries d).2, IsName n ∧ ¬ [lineFeed] <:+ n) {stops stops' : List Stop}
    (hcourse : Itinerary t s.filter [] s.starts stops)
    (hcourse' : Itinerary t (s.excluding more).filter [] (s.excluding more).starts stops') {v : Stop} (hv : v ∈ stops')
    {n : Text} (hfile : (s.excluding more).filter.isExcluded (entry v.absolute n) = false) : v ∈ stops := by
  classical
  have hP : Upward t s.filter (Above v.absolute) := upward_above hrealpath hcase v.absolute
  have hreal : ∀ u : Stop, u.real t (s.excluding more).filter = u.real t s.filter := fun _ => rfl
  have hsame := hcourse.filter_eq hP hreal (fun u _ => filter_inner_more more hcase hnames hfile u) hcourse'
    (fun _ _ => Iff.rfl) rfl
  have hself : Above v.absolute v := ⟨[], rfl⟩
  have hmem : v ∈ stops'.filter (Above v.absolute) := List.mem_filter.mpr ⟨hv, decide_eq_true hself⟩
  rw [hsame] at hmem
  exact List.mem_of_mem_filter hmem

end MoreExcludes

/-- A search with more excludes finds no file that it does not find with fewer, as long as no directory has a name that
ends in a line feed. -/
theorem matchFiles_excluding (hrealpath : ∀ p, t.realpath p = p) (hcase : s.caseSensitive = true) (hbounded : Bounded t s)
    (hnames : ∀ d, ∀ n ∈ (t.entries d).2, IsName n ∧ ¬ [lineFeed] <:+ n) (more : List Text) {F : Text}
    (hF : F ∈ matchFiles t (s.excluding more)) : F ∈ matchFiles t s := by
  obtain ⟨stops, hcourse, hwalk⟩ := walk_follows hbounded
  obtain ⟨stops', hcourse', hwalk'⟩ := walk_follows (hbounded.excluding more)
  obtain ⟨v, hv, n, hn, rfl, g, hg⟩ := (mem_matchFiles_of_course hwalk').mp hF
  obtain ⟨hfile, hg⟩ := groupOf_of_more more hg
  have hv' := mem_course_of_more more hrealpath hcase hnames ((hcourse stops).mpr rfl) ((hcourse' stops').mpr rfl) hv hfile
  exact (mem_matchFiles_of_course hwalk).mpr ⟨v, hv', n, hn, rfl, g, hg⟩

end TsProject.Glob
