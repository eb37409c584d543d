/-
  TsProject.Proofs.Glob.Itinerary — the course of a walk, without the bound on its nesting.

  A walk works off an agenda: a stop whose real path is known is passed over, any other is
  listed, and the directories to enter below it go in front of the agenda. The bound on
  nesting is not part of that. It is never met as long as the real paths below the stops
  that are met are fewer than the levels it allows: each nested visit takes one of them.

  - `Itinerary.unique` / `Itinerary.nodup_reals`: an agenda has one course at most, and no
    two stops on it have one real path.
  - `mem_walk`: on any tree, only stops that are met are listed and give files.
  - `visit_follows`: a visit lists the stops of the course.
  - `walk_follows`: so does a walk, and it comes to its end.
  - `mem_matchFiles_of_course`: the files found are those at the stops of the course.
-/

import TsProject.Proofs.Glob.Walk

namespace TsProject.Glob

open CodePoint TsProject.Path

/-! ## Stops -/

/-- A directory to visit: the name it is listed under, its absolute name, and the levels left to list. -/
structure Stop where
  directory : Text
  absolute : Text
  depth : Option Int
  deriving DecidableEq

namespace Stop

/-- The real path of a stop, as the file system compares it. -/
def real (t : Tree) (f : Filter) (v : Stop) : Text := canonical f.caseSensitive (t.realpath v.absolute)

/-- An entry of a stop. -/
def child (v : Stop) (name : Text) : Stop := ⟨entry v.directory name, entry v.absolute name, v.depth.map (· - 1)⟩

/-- The stops to go into from a stop. -/
def inner (t : Tree) (f : Filter) (v : Stop) : List Stop :=
  if v.depth = some 1 then []
  else ((t.entries v.directory).2.filter fun name => f.enters (entry v.absolute name)).map v.child

/-- The files found at a stop. -/
def files (t : Tree) (f : Filter) (v : Stop) : List (Nat × Text) :=
  selectFiles f v.directory v.absolute (t.entries v.directory).1

variable {t : Tree} {f : Filter} {u v : Stop}

theorem real_eq (hcase : f.caseSensitive = true) : v.real t f = t.realpath v.absolute := by
  rw [real, hcase]
  rfl

theorem exists_child_of_mem_inner (h : u ∈ v.inner t f) :
    ∃ n ∈ (t.entries v.directory).2, f.enters (entry v.absolute n) = true ∧ u = v.child n := by
  unfold inner at h
  split at h
  · cases h
  · obtain ⟨n, hn, rfl⟩ := List.mem_map.mp h
    obtain ⟨hn, henters⟩ := List.mem_filter.mp hn
    exact ⟨n, hn, henters, rfl⟩

theorem child_mem_inner {n : Text} (hdepth : v.depth = none) (hn : n ∈ (t.entries v.directory).2)
    (h : f.enters (entry v.absolute n) = true) : v.child n ∈ v.inner t f := by
  rw [inner, if_neg (by simp [hdepth])]
  exact List.mem_map.mpr ⟨n, List.mem_filter.mpr ⟨hn, h⟩, rfl⟩

end Stop

/-- A walk with one more stop listed. -/
def Walk.record (t : Tree) (f : Filter) (w : Walk) (v : Stop) : Walk where
  visited := v.real t f :: w.visited
  listed := w.listed ++ [v.directory]
  found := w.found ++ v.files t f

/-- The visit of a stop, at some level of nesting. -/
def Stop.visit (t : Tree) (f : Filter) (level : Nat) (w : Walk) (v : Stop) : Walk :=
  Glob.visit t f level v.directory v.absolute v.depth w

variable {t : Tree} {f : Filter}

theorem visit_of_seen {w : Walk} {v : Stop} (h : v.real t f ∈ w.visited) (level : Nat) : v.visit t f level w = w := by
  cases level with
  | zero => rfl
  | succ level =>
    have hseen : w.visited.contains (canonical f.caseSensitive (t.realpath v.absolute)) = true :=
      List.contains_iff_mem.mpr h
    rw [Stop.visit, Glob.visit]
    simp only [hseen, if_true]

theorem visit_of_unseen {w : Walk} {v : Stop} (h : v.real t f ∉ w.visited) (level : Nat) :
    v.visit t f (level + 1) w = (v.inner t f).foldl (Stop.visit t f level) (w.record t f v) := by
  have hunseen : w.visited.contains (canonical f.caseSensitive (t.realpath v.absolute)) = false := by
    rw [Bool.eq_false_iff]
    intro hc
    exact h (List.contains_iff_mem.mp hc)
  rw [Stop.visit, Glob.visit]
  simp only [hunseen, Bool.false_eq_true, if_false]
  unfold Stop.inner
  by_cases hdepth : v.depth = some 1
  · rw [if_pos hdepth, if_pos hdepth]
    rfl
  · rw [if_neg hdepth, if_neg hdepth, List.foldl_map, List.foldl_filter]
    rfl

/-! ## Courses -/

/-- The stops that are listed when an agenda is worked off, given the real paths known already. -/
inductive Itinerary (t : Tree) (f : Filter) : List Text → List Stop → List Stop → Prop
  | done {seen : List Text} : Itinerary t f seen [] []
  | pass {seen : List Text} {v : Stop} {agenda stops : List Stop} : v.real t f ∈ seen → Itinerary t f seen agenda stops →
      Itinerary t f seen (v :: agenda) stops
  | list {seen : List Text} {v : Stop} {agenda stops : List Stop} : v.real t f ∉ seen →
      Itinerary t f (v.real t f :: seen) (v.inner t f ++ agenda) stops → Itinerary t f seen (v :: agenda) (v :: stops)

theorem Itinerary.unique {seen : List Text} {agenda stops stops' : List Stop} (h : Itinerary t f seen agenda stops)
    (h' : Itinerary t f seen agenda stops') : stops' = stops := by
  induction h generalizing stops' with
  | done =>
    cases h'
    rfl
  | pass hv _ ih =>
    cases h' with
    | pass _ h' => exact ih h'
    | list hv' => exact absurd hv hv'
  | list hv _ ih =>
    cases h' with
    | pass hv' => exact absurd hv' hv
    | list _ h' => rw [ih h']

/-- No stop has a real path that is known, or that of another stop. -/
theorem Itinerary.nodup_reals {seen : List Text} {agenda stops : List Stop} (h : Itinerary t f seen agenda stops) :
    (stops.map (Stop.real t f)).Nodup ∧ ∀ v ∈ stops, v.real t f ∉ seen := by
  induction h with
  | done => exact ⟨List.nodup_nil, by simp⟩
  | pass _ _ ih => exact ih
  | list hv _ ih =>
    obtain ⟨hnodup, hfresh⟩ := ih
    constructor
    · rw [List.map_cons, List.nodup_cons]
      refine ⟨?_, hnodup⟩
      intro hmem
      obtain ⟨u, hu, hreal⟩ := List.mem_map.mp hmem
      exact hfresh u hu (hreal ▸ List.mem_cons_self)
    · intro u hu
      rcases List.mem_cons.mp hu with rfl | hu
      · exact hv
      · exact fun hseen => hfresh u hu (List.mem_cons_of_mem _ hseen)

/-- A real path is known already, or it is that of a stop. -/
def Listed (t : Tree) (f : Filter) (seen : List Text) (stops : List Stop) (v : Stop) : Prop :=
  v.real t f ∈ seen ∨ ∃ w ∈ stops, w.real t f = v.real t f

theorem Listed.later {seen : List Text} {v u : Stop} {stops : List Stop} (h : Listed t f (v.real t f :: seen) stops u) :
    Listed t f seen (v :: stops) u := by
  rcases h with hseen | ⟨w, hw, hreal⟩
  · rcases List.mem_cons.mp hseen with heq | hseen
    · exact Or.inr ⟨v, List.mem_cons_self, heq.symm⟩
    · exact Or.inl hseen
  · exact Or.inr ⟨w, List.mem_cons_of_mem v hw, hreal⟩

/-- The whole agenda is listed, and whatever is to be entered from a stop. -/
theorem Itinerary.closed {seen : List Text} {agenda stops : List Stop} (h : Itinerary t f seen agenda stops) :
    (∀ v ∈ agenda, Listed t f seen stops v) ∧ ∀ v ∈ stops, ∀ u ∈ v.inner t f, Listed t f seen stops u := by
  induction h with
  | done => exact ⟨by simp, by simp⟩
  | pass hv _ ih =>
    obtain ⟨hagenda, hinner⟩ := ih
    exact ⟨List.forall_mem_cons.mpr ⟨Or.inl hv, hagenda⟩, hinner⟩
  | @list seen v agenda stops _ _ ih =>
    obtain ⟨hagenda, hinner⟩ := ih
    constructor
    · refine List.forall_mem_cons.mpr ⟨Or.inr ⟨v, List.mem_cons_self, rfl⟩, ?_⟩
      exact fun u hu => (hagenda u (List.mem_append_right _ hu)).later
    · refine List.forall_mem_cons.mpr ⟨?_, ?_⟩
      · exact fun u hu => (hagenda u (List.mem_append_left _ hu)).later
      · exact fun w hw u hu => (hinner w hw u hu).later

/-- A stop that is met: one of the agenda, or one below a stop that is met. -/
inductive Met (t : Tree) (f : Filter) (agenda : List Stop) : Stop → Prop
  | first {v : Stop} : v ∈ agenda → Met t f agenda v
  | inner {v u : Stop} : Met t f agenda v → u ∈ v.inner t f → Met t f agenda u

/-- Without a bound on depth at first there is none further below. -/
theorem Met.depth_eq_none {agenda : List Stop} (hagenda : ∀ v ∈ agenda, v.depth = none) {v : Stop} (h : Met t f agenda v) :
    v.depth = none := by
  induction h with
  | first hv => exact hagenda _ hv
  | inner _ hu ih =>
    obtain ⟨n, -, -, rfl⟩ := Stop.exists_child_of_mem_inner hu
    rw [Stop.child, ih]
    rfl

theorem Itinerary.met {seen : List Text} {agenda stops start : List Stop} (h : Itinerary t f seen agenda stops)
    (hstart : ∀ v ∈ agenda, Met t f start v) : ∀ v ∈ stops, Met t f start v := by
  induction h with
  | done => simp
  | pass _ _ ih => exact ih fun v hv => hstart v (List.mem_cons_of_mem _ hv)
  | @list seen v agenda stops _ _ ih =>
    have hv : Met t f start v := hstart v List.mem_cons_self
    have hrest : ∀ u ∈ v.inner t f ++ agenda, Met t f start u := by
      intro u hu
      rcases List.mem_append.mp hu with hu | hu
      · exact .inner hv hu
      · exact hstart u (List.mem_cons_of_mem _ hu)
    intro u hu
    rcases List.mem_cons.mp hu with rfl | hu
    · exact hv
    · exact ih hrest u hu

/-! ## What is met -/

/-- What listing a stop that is met preserves is preserved by visits of such stops. -/
theorem foldl_visit_induction {start : List Stop} {P : Walk → Prop}
    (hrecord : ∀ w v, Met t f start v → P w → P (w.record t f v)) (level : Nat) {agenda : List Stop}
    (hagenda : ∀ v ∈ agenda, Met t f start v) {w : Walk} (hw : P w) : P (agenda.foldl (Stop.visit t f level) w) := by
  induction level generalizing agenda w with
  | zero =>
    have hidle : agenda.foldl (Stop.visit t f 0) w = w := List.foldl_fixed' (fun _ => rfl) agenda
    rw [hidle]
    exact hw
  | succ level ih =>
    induction agenda generalizing w with
    | nil => exact hw
    | cons v agenda ihl =>
      obtain ⟨hv, hrest⟩ := List.forall_mem_cons.mp hagenda
      rw [List.foldl_cons]
      apply ihl hrest
      by_cases h : v.real t f ∈ w.visited
      · rw [visit_of_seen h]
        exact hw
      · rw [visit_of_unseen h]
        exact ih (fun u hu => .inner hv hu) (hrecord w v hv hw)

/-! ## Visits -/

/-- A walk after some stops more. -/
def Walk.after (t : Tree) (f : Filter) (w : Walk) (stops : List Stop) : Walk := stops.foldl (Walk.record t f) w

theorem after_append (w : Walk) (stops stops' : List Stop) :
    w.after t f (stops ++ stops') = (w.after t f stops).after t f stops' := List.foldl_append

theorem visited_after (w : Walk) (stops : List Stop) :
    (w.after t f stops).visited = (stops.map (Stop.real t f)).reverse ++ w.visited := by
  induction stops generalizing w with
  | nil => rfl
  | cons v stops ih =>
    change ((w.record t f v).after t f stops).visited = _
    rw [ih, List.map_cons, List.reverse_cons, List.append_assoc]
    rfl

theorem listed_after (w : Walk) (stops : List Stop) :
    (w.after t f stops).listed = w.listed ++ stops.map Stop.directory := by
  induction stops generalizing w with
  | nil => exact (List.append_nil _).symm
  | cons v stops ih =>
    change ((w.record t f v).after t f stops).listed = _
    rw [ih, List.map_cons, ← List.singleton_append, ← List.append_assoc]
    rfl

theorem found_after (w : Walk) (stops : List Stop) :
    (w.after t f stops).found = w.found ++ stops.flatMap (Stop.files t f) := by
  induction stops generalizing w with
  | nil => exact (List.append_nil _).symm
  | cons v stops ih =>
    change ((w.record t f v).after t f stops).found = _
    rw [ih, List.flatMap_cons, ← List.append_assoc]
    rfl

/-- A visit goes the course of its stop, whatever comes behind it on the agenda. -/
def Follows (t : Tree) (f : Filter) (w w' : Walk) (agenda : List Stop) : Prop :=
  ∃ stops, w' = w.after t f stops ∧ ∀ later rest, Itinerary t f w'.visited later rest →
    Itinerary t f w.visited (agenda ++ later) (stops ++ rest)

theorem visited_subset_after (w : Walk) (stops : List Stop) : w.visited ⊆ (w.after t f stops).visited := by
  rw [visited_after]
  exact List.subset_append_right _ _

/-- If a visit of each stop goes its course while few real paths are left, so does a sequence of visits. -/
theorem foldl_follows {reals : List Text} {bound : Nat} {go : Walk → Stop → Walk} {agenda : List Stop}
    (hgo : ∀ v ∈ agenda, ∀ w, unseen reals w.visited ≤ bound → Follows t f w (go w v) [v]) {w : Walk}
    (hbound : unseen reals w.visited ≤ bound) : Follows t f w (agenda.foldl go w) agenda := by
  induction agenda generalizing w with
  | nil => exact ⟨[], rfl, fun later rest h => h⟩
  | cons v agenda ih =>
    obtain ⟨stops, hstops, hfirst⟩ := hgo v List.mem_cons_self w hbound
    have hbound' : unseen reals (go w v).visited ≤ bound := by
      rw [hstops]
      exact (unseen_le_of_subset reals (visited_subset_after w stops)).trans hbound
    obtain ⟨stops', hstops', hrest⟩ := ih (fun u hu => hgo u (List.mem_cons_of_mem _ hu)) hbound'
    refine ⟨stops ++ stops', ?_, ?_⟩
    · rw [List.foldl_cons, hstops', after_append, ← hstops]
    · intro later rest h
      rw [List.append_assoc]
      exact hfirst _ _ (hrest later rest h)

theorem follows_of_seen {w : Walk} {v : Stop} (h : v.real t f ∈ w.visited) (level : Nat) :
    Follows t f w (v.visit t f level w) [v] := by
  rw [visit_of_seen h]
  exact ⟨[], rfl, fun later rest hrest => .pass h hrest⟩

/-- A stop that is new takes a level, and its real path goes with it if it is among those that are left. -/
theorem unseen_record_le {reals : List Text} {w : Walk} {v : Stop} {level : Nat} (hseen : v.real t f ∉ w.visited)
    (hlevel : unseen reals w.visited + (if v.real t f ∈ reals then 0 else 1) ≤ level + 1) :
    unseen reals (w.record t f v).visited ≤ level := by
  have hvisited : (w.record t f v).visited = v.real t f :: w.visited := rfl
  rw [hvisited]
  by_cases hmem : v.real t f ∈ reals
  · have := unseen_lt (List.subset_cons_self _ _) hmem List.mem_cons_self hseen
    rw [if_pos hmem] at hlevel
    omega
  · have := unseen_le_of_subset reals (List.subset_cons_self (v.real t f) w.visited)
    rw [if_neg hmem] at hlevel
    omega

/-- A visit goes the course of its stop as long as fewer real paths are left below the stops met than levels.
The real path of the stop itself need not be among them. -/
theorem visit_follows {reals : List Text} {start : List Stop}
    (hreals : ∀ v, Met t f start v → ∀ u ∈ v.inner t f, u.real t f ∈ reals) (level : Nat) {v : Stop} (hv : Met t f start v)
    {w : Walk} (hlevel : unseen reals w.visited + (if v.real t f ∈ reals then 0 else 1) ≤ level) :
    Follows t f w (v.visit t f level w) [v] := by
  induction level generalizing v w with
  | zero =>
    -- no real path is left, so that of the stop is known
    refine follows_of_seen ?_ 0
    have hmem : v.real t f ∈ reals := by
      by_contra hmem
      rw [if_neg hmem] at hlevel
      omega
    by_contra hm
    have := unseen_lt (List.subset_cons_self _ _) hmem List.mem_cons_self hm
    omega
  | succ level ih =>
    by_cases hm : v.real t f ∈ w.visited
    · exact follows_of_seen hm _
    · rw [visit_of_unseen hm]
      have hinner : ∀ u ∈ v.inner t f, ∀ w, unseen reals w.visited ≤ level →
          Follows t f w (u.visit t f level w) [u] := by
        intro u hu w hw
        have hlevel' : unseen reals w.visited + (if u.real t f ∈ reals then 0 else 1) ≤ level := by
          rw [if_pos (hreals v hv u hu)]
          exact hw
        exact ih (.inner hv hu) hlevel'
      obtain ⟨stops, hstops, hcourse⟩ := foldl_follows hinner (unseen_record_le hm hlevel)
      refine ⟨v :: stops, hstops, ?_⟩
      intro later rest h
      exact .list hm (hcourse later rest h)

/-! ## Walks -/

/-- The stops a search starts from. -/
def Search.starts (s : Search) : List Stop :=
  (cover s.caseSensitive (normalize s.path) s.includes).map fun base =>
    ⟨base, Path.resolve base (normalize s.currentDirectory), s.depth⟩

theorem walk_eq (t : Tree) (s : Search) : walk t s = s.starts.foldl (Stop.visit t s.filter t.levels) {} := by
  rw [walk, Search.starts, List.foldl_map]
  rfl

/-- Whatever the tree is, a walk lists directories of stops that are met, and finds files at them. -/
theorem mem_walk (t : Tree) (s : Search) :
    (∀ d ∈ (walk t s).listed, ∃ v, Met t s.filter s.starts v ∧ d = v.directory) ∧
      ∀ e ∈ (walk t s).found, ∃ v, Met t s.filter s.starts v ∧ e ∈ v.files t s.filter := by
  rw [walk_eq]
  refine foldl_visit_induction (P := fun w =>
    (∀ d ∈ w.listed, ∃ v, Met t s.filter s.starts v ∧ d = v.directory) ∧
      ∀ e ∈ w.found, ∃ v, Met t s.filter s.starts v ∧ e ∈ v.files t s.filter) ?_ t.levels (fun v hv => .first hv) (by simp)
  rintro w v hv ⟨hlisted, hfound⟩
  constructor
  · intro d hd
    rcases List.mem_append.mp hd with hd | hd
    · exact hlisted d hd
    · exact ⟨v, hv, List.mem_singleton.mp hd⟩
  · intro e he
    rcases List.mem_append.mp he with he | he
    · exact hfound e he
    · exact ⟨v, hv, he⟩

/-- A file that is found is an entry of a stop that is met, and has a group. -/
theorem exists_met_of_mem_matchFiles {s : Search} {F : Text} (h : F ∈ matchFiles t s) :
    ∃ v, Met t s.filter s.starts v ∧ ∃ n ∈ (t.entries v.directory).1, F = entry v.directory n ∧
      ∃ g, s.filter.groupOf F (entry v.absolute n) = some g := by
  obtain ⟨g, -, hfound⟩ := Walk.mem_files.mp h
  obtain ⟨v, hv, hfile⟩ := (mem_walk t s).2 _ hfound
  obtain ⟨n, hn, hgroup⟩ := List.mem_filterMap.mp hfile
  obtain ⟨g, hg, heq⟩ := Option.map_eq_some_iff.mp hgroup
  obtain ⟨-, rfl⟩ := Prod.mk.inj heq
  exact ⟨v, hv, n, hn, rfl, g, hg⟩

/-- The real paths below the stops that are met are finitely many, and the walk may nest one level deeper. -/
def Bounded (t : Tree) (s : Search) : Prop :=
  ∃ reals : List Text, (∀ v, Met t s.filter s.starts v → ∀ u ∈ v.inner t s.filter, u.real t s.filter ∈ reals) ∧
    reals.length < t.levels

/-- A walk works off its agenda to the end, and has listed the stops of that course. -/
theorem walk_follows {s : Search} (h : Bounded t s) :
    ∃ stops, (∀ course, Itinerary t s.filter [] s.starts course ↔ course = stops) ∧
      walk t s = Walk.after t s.filter {} stops := by
  obtain ⟨reals, hreals, hlevels⟩ := h
  have hunseen : ∀ seen, unseen reals seen ≤ reals.length := fun seen => List.length_filter_le _ _
  have hgo : ∀ v ∈ s.starts, ∀ w, unseen reals w.visited ≤ reals.length →
      Follows t s.filter w (v.visit t s.filter t.levels w) [v] := by
    intro v hv w hw
    refine visit_follows hreals t.levels (.first hv) ?_
    split
    · omega
    · omega
  obtain ⟨stops, hstops, hcourse⟩ := foldl_follows (w := {}) hgo (hunseen _)
  have hdone := hcourse [] [] .done
  rw [List.append_nil, List.append_nil] at hdone
  refine ⟨stops, fun course => ⟨fun h => hdone.unique h, ?_⟩, ?_⟩
  · rintro rfl
    exact hdone
  · rw [walk_eq, hstops]

/-- The files of a walk are those that have a group, at the stops of its course. -/
theorem mem_matchFiles_of_course {s : Search} {stops : List Stop} (h : walk t s = Walk.after t s.filter {} stops) {F : Text} :
    F ∈ matchFiles t s ↔ ∃ v ∈ stops, ∃ n ∈ (t.entries v.directory).1, F = entry v.directory n ∧
      ∃ g, s.filter.groupOf F (entry v.absolute n) = some g := by
  have hfound : (walk t s).found = stops.flatMap (Stop.files t s.filter) := by
    rw [h, found_after]
    exact List.nil_append _
  simp only [matchFiles, Walk.mem_files, hfound, List.mem_flatMap, Stop.files, selectFiles, List.mem_filterMap,
    Option.map_eq_some_iff, Prod.mk.injEq]
  constructor
  · rintro ⟨g, -, v, hv, n, hn, g', hg, rfl, rfl⟩
    exact ⟨v, hv, n, hn, rfl, g', hg⟩
  · rintro ⟨v, hv, n, hn, rfl, g, hg⟩
    exact ⟨g, groupOf_lt hg, v, hv, n, hn, g, hg, rfl, rfl⟩

end TsProject.Glob
