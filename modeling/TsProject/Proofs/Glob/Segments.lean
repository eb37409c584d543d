/-
  TsProject.Proofs.Glob.Segments — what a match says of each segment of a path.

  The components of a spec cut what they match into segments: a slash begins one, and what
  stands behind it is taken by a round of a `**` or by another component. So what holds of
  every segment that one of these takes holds of every name of a path that is matched. This
  asks nothing of the path. Names may be any texts, as a file system may have them; where a
  line feed ends the last one, the match may stop before it.

  - `Cut.of_leaves`: a match cuts the text.
  - `forall_names_of_leaves`: a property of all segments that are taken is one of all names.
  - `exists_spec_of_groupOf` / `exists_spec_of_enters`: the include behind a file that a search
    selects, or behind a directory that it enters.
-/

import TsProject.Proofs.Glob.Search
import TsProject.Proofs.Normal

namespace TsProject.Glob

open CodePoint Pattern TsProject.Path Relation

variable {same : CodePoint → CodePoint → Bool} {u : Usage} {base spec : Text}

/-! ## Cutting what is matched -/

/-- Where the pattern of a segment stops: at what follows the segment, or before a line feed at the end of the text. -/
def Stops (after rest : Text) : Prop := AtBoundary after ∧ (rest = after ∨ (after = [] ∧ rest = [lineFeed]))

/-- The text is left as a whole, or consists of segments with some property. -/
def Cut (P : Text → Prop) (rest s : Text) : Prop :=
  s = rest ∨ ∃ segs, s = below segs ∧ ∀ seg ∈ segs, slash ∉ seg ∧ P seg

/-- What may be left of a text at its end. -/
def AtLast (rest : Text) : Prop := rest = [] ∨ rest = [lineFeed]

variable {P : Text → Prop} {cs : List Text} {s r : Text}

/-- One more segment in front. -/
theorem Cut.cons {w m : Text} (hr : AtLast r) (hw : slash ∉ w) (hm : Cut P r m)
    (hP : ∀ seg after, seg ++ after = w ++ m → Stops after m → P seg) : Cut P r (slash :: (w ++ m)) := by
  right
  rcases hm with rfl | ⟨segs, rfl, hsegs⟩
  · refine ⟨[w ++ m], by simp, List.forall_mem_singleton.mpr ⟨?_, hP _ [] (List.append_nil _) ?_⟩⟩
    · rcases hr with rfl | rfl
      · rwa [List.append_nil]
      · have hlf : slash ≠ lineFeed := by decide
        simp [hw, hlf]
    · exact ⟨atBoundary_nil, hr.imp id fun h => ⟨rfl, h⟩⟩
  · exact ⟨w :: segs, rfl, List.forall_mem_cons.mpr ⟨⟨hw, hP w _ rfl ⟨atBoundary_below segs, Or.inl rfl⟩⟩, hsegs⟩⟩

theorem avoids_round (hd : Delimits same) {m : Text} (h : Leaves same oneDeeper s m) :
    ∃ w, s = slash :: (w ++ m) ∧ slash ∉ w := by
  obtain ⟨s', ⟨x, rfl, hx⟩, hrest⟩ := h
  obtain rfl := (hd.slash x).1.mp hx
  have hsegment : Leaves same (.seq notPackageFolder (.seq (.noneOf [slash, dot]) (.repeated .many (.noneOf [slash])))) s' m := hrest
  obtain ⟨w, rfl, hw⟩ := hsegment.avoids hd.slash (by decide)
  exact ⟨w, rfl, hw⟩

/-- The first component has no slash before it. -/
theorem leaves_inner_of_leaves (hd : Delimits same) (h : Leaves same (ofComponents u false cs) s r) :
    Leaves same (ofComponents u true cs) s r ∨ Leaves same (ofComponents u true cs) (slash :: s) r := by
  have hslash : ∀ m, Leaves same (.char slash) (slash :: m) m := fun m => ⟨slash, rfl, (hd.slash slash).1.mpr rfl⟩
  cases cs with
  | nil => exact Or.inl h
  | cons c cs =>
    by_cases hc : c = recursive
    · left
      rw [hc, ofComponents_recursive] at h ⊢
      exact h
    · simp only [ofComponents, hc, if_false, if_true, Bool.false_eq_true] at h ⊢
      by_cases hdirectories : u = .directories
      · rw [if_pos hdirectories] at h ⊢
        rcases h with ⟨m, rfl, h⟩ | h
        · exact Or.inr (Or.inl ⟨m, hslash m, h⟩)
        · exact Or.inl (Or.inr h)
      · rw [if_neg hdirectories] at h ⊢
        obtain ⟨m, rfl, h⟩ := h
        exact Or.inr ⟨m, hslash m, h⟩

section

variable (hd : Delimits same) (hu : u ≠ .exclude)
  (hround : ∀ seg after rest, Stops after rest → Leaves same oneDeeper (slash :: (seg ++ after)) rest → P seg)

include hd hu hround

/-- A match cuts the text into segments that a round of a `**` or another component takes. -/
theorem Cut.of_leaves (hslash : ∀ c ∈ cs, slash ∉ c) (hcomponent : ∀ c ∈ cs, c ≠ recursive → ∀ seg after rest,
    Stops after rest → Leaves same (componentPattern u c) (seg ++ after) rest → P seg) (hr : AtLast r)
    (h : Leaves same (ofComponents u true cs) s r) : Cut P r s := by
  induction cs generalizing s with
  | nil => exact Or.inl h.symm
  | cons c cs ih =>
    have ih {m} := ih (s := m) (fun c hc => hslash c (List.mem_cons_of_mem _ hc))
      (fun c hc => hcomponent c (List.mem_cons_of_mem _ hc))
    by_cases hc : c = recursive
    · rw [hc, ofComponents_recursive, anyDepth_of_ne_exclude hu] at h
      obtain ⟨m, hstar, h⟩ := h
      change ReflTransGen (Leaves same oneDeeper) s m at hstar
      induction hstar using ReflTransGen.head_induction_on with
      | refl => exact ih h
      | @head s m' hfirst _ ihstar =>
        obtain ⟨w, rfl, hw⟩ := avoids_round hd hfirst
        refine ihstar.cons hr hw fun seg after heq hstops => hround seg after m' hstops ?_
        rw [heq]
        exact hfirst
    · have htaken : ∀ {m m'}, Leaves same (.char slash) s m → Leaves same (componentPattern u c) m m' →
          Leaves same (ofComponents u true cs) m' r → Cut P r s := by
        rintro m m' ⟨x, rfl, hx⟩ hfirst hrest
        obtain rfl := (hd.slash x).1.mp hx
        obtain ⟨w, rfl, hw⟩ := hfirst.avoids hd.slash (avoids_componentPattern u (hslash c List.mem_cons_self))
        refine (ih hrest).cons hr hw fun seg after heq hstops =>
          hcomponent c List.mem_cons_self hc seg after m' hstops ?_
        rw [heq]
        exact hfirst
      simp only [ofComponents, hc, if_false, if_true] at h
      split at h
      · rcases h with ⟨m, hsep, m', hfirst, hrest⟩ | h
        · exact htaken hsep hfirst hrest
        · exact Or.inl h.symm
      · obtain ⟨m, hsep, m', hfirst, hrest⟩ := h
        exact htaken hsep hfirst hrest

/-- A property of all segments that the pattern of a spec takes is one of all names of what it matches. -/
theorem forall_names_of_leaves {p : Pattern} (hp : ofSpec? u base spec = some p) (hbreak : P [lineFeed])
    (hcomponent : ∀ c, c = [] ∨ c ∈ names (resolve spec base) ∨ c = [asterisk] → c ≠ recursive → ∀ seg after rest,
      Stops after rest → Leaves same (componentPattern u c) (seg ++ after) rest → P seg)
    (hr : AtLast r) (h : Leaves same p s r) : ∀ n ∈ names s, P n := by
  obtain ⟨cs, rfl, hcs⟩ := exists_components hp
  obtain ⟨s', hs', hinner⟩ : ∃ s', names s' = names s ∧ Leaves same (ofComponents u true cs) s' r := by
    rcases leaves_inner_of_leaves hd h with h | h
    · exact ⟨s, rfl, h⟩
    · exact ⟨slash :: s, names_append_slash [] s, h⟩
  have hcut : Cut P r s' := by
    refine .of_leaves hd hu hround (fun c hc => slash_not_mem_component (hcs c hc)) (fun c hc hne => ?_) hr hinner
    refine hcomponent c ?_ hne
    rcases hcs c hc with h | h | h | h
    · exact Or.inl h
    · exact Or.inr (Or.inl h)
    · exact absurd h hne
    · exact Or.inr (Or.inr h)
  rw [← hs']
  rcases hcut with rfl | ⟨segs, rfl, hsegs⟩
  · rcases hr with rfl | rfl
    · simp [names, Text.splitOn]
    · rw [names_of_isName ⟨by decide, by decide⟩]
      exact List.forall_mem_singleton.mpr hbreak
  · have hpieces : Text.splitOn slash (below segs) = [] :: segs := splitOn_below List.not_mem_nil fun seg hseg => (hsegs seg hseg).1
    intro n hn
    rw [names, hpieces, List.filter_cons_of_neg (by simp)] at hn
    exact (hsegs n (List.mem_of_mem_filter hn)).2

end

/-! ## Files and directories of a search -/

variable {s : Search} {x : Text}

/-- A file that is selected is matched by an include, if there are any. -/
theorem exists_spec_of_groupOf {F : Text} {g : Nat} (hne : s.includes ≠ []) (h : s.filter.groupOf F x = some g) :
    ∃ spec ∈ s.includes, ∃ p, ofSpec? .files s.absolutePath spec = some p ∧
      ∃ r, AtLast r ∧ Leaves (sameOn s.caseSensitive) p x r := by
  have hfiles : s.filter.files = some (s.includes.filterMap (ofInclude? s.absolutePath)) := by
    rw [Search.filter, if_neg (by simpa using hne)]
  unfold Filter.groupOf at h
  rw [hfiles] at h
  split at h
  · cases h
  · obtain ⟨hlt, hmatch, -⟩ := List.findIdx?_eq_some_iff_getElem.mp h
    obtain ⟨spec, hspec, hof⟩ := List.mem_filterMap.mp (List.getElem_mem hlt)
    obtain ⟨p, hp, hgroup⟩ := Option.map_eq_some_iff.mp hof
    rw [← hgroup] at hmatch
    obtain ⟨r, m, hm, rfl, hend⟩ := (isMatch_iff _ _ _).mp hmatch
    exact ⟨spec, hspec, p, hp, _, hend, hm⟩

/-- A directory that is entered is matched by an include, if any of them has a pattern. -/
theorem exists_spec_of_enters {d : Pattern} (hdirectories : s.filter.directories = some d) (h : s.filter.enters x = true) :
    ∃ spec ∈ s.includes, ∃ p, ofSpec? .directories s.absolutePath spec = some p ∧
      ∃ r, AtLast r ∧ Leaves (sameOn s.caseSensitive) p x r := by
  obtain ⟨hmatch, -⟩ := Bool.and_eq_true_iff.mp h
  rw [hdirectories] at hmatch
  obtain ⟨ps, hps, hpne, rfl⟩ := ofSpecs?_eq_some hdirectories
  obtain ⟨r, hr⟩ := (isMatch_iff _ _ _).mp hmatch
  obtain ⟨p, hp, m, hm, rfl, hend⟩ := (leaves_ofSpecs hpne _ _).mp hr
  obtain ⟨spec, hspec, hof⟩ := List.mem_filterMap.mp (hps ▸ hp)
  exact ⟨spec, List.mem_of_mem_filter hspec, p, hof, _, hend, hm⟩

end TsProject.Glob
