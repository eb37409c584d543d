/-
  TsProject.Proofs.Fields — looking up in fields that are set and merged.

  - `get?_set`: a key that is set has its value, any other key keeps its own.
  - `get?_merge`: the second fields decide where they have a key.
  - `merge_assoc`: merging is associative, down to the order of the keys.
  - `merge_map`: values changed by their keys are merged alike.
-/

import TsProject.Value

namespace TsProject.Fields

/-- Each key occurs once. -/
def Distinct (fs : Fields) : Prop := (fs.map (·.1)).Nodup

variable {fs gs : Fields} {key : Text}

theorem get?_cons (f : Text × Value) (fs : Fields) (key : Text) :
    get? (f :: fs) key = if f.1 = key then some f.2 else get? fs key := by
  by_cases h : f.1 = key
  · simp [get?, h]
  · simp [get?, h]

theorem get?_append (fs gs : Fields) (key : Text) : get? (fs ++ gs) key = (get? fs key).or (get? gs key) := by
  induction fs with
  | nil => simp [get?]
  | cons f fs ih =>
    rw [List.cons_append, get?_cons, get?_cons, ih]
    split <;> simp

theorem get?_eq_none_iff : get? fs key = none ↔ key ∉ fs.map (·.1) := by
  induction fs with
  | nil => simp [get?]
  | cons f fs ih =>
    rw [get?_cons]
    by_cases h : f.1 = key
    · simp [h]
    · simp [h, Ne.symm h, ih]

theorem mem_of_get? {v : Value} (h : get? fs key = some v) : (key, v) ∈ fs := by
  induction fs with
  | nil => cases h
  | cons f fs ih =>
    rw [get?_cons] at h
    split at h
    · rename_i hk
      obtain rfl := Option.some.inj h
      exact hk ▸ List.mem_cons_self
    · exact List.mem_cons_of_mem _ (ih h)

theorem get?_map (g : Text → Value → Value) (fs : Fields) (key : Text) :
    get? (fs.map fun f => (f.1, g f.1 f.2)) key = (get? fs key).map (g key) := by
  induction fs with
  | nil => rfl
  | cons f fs ih =>
    rw [List.map_cons, get?_cons, get?_cons, ih]
    by_cases h : f.1 = key
    · simp [h]
    · simp [h]

theorem get?_of_mem (h : Distinct fs) {f : Text × Value} (hf : f ∈ fs) : get? fs f.1 = some f.2 := by
  induction fs with
  | nil => cases hf
  | cons g fs ih =>
    obtain ⟨hg, hfs⟩ := List.nodup_cons.mp h
    rw [get?_cons]
    rcases List.mem_cons.mp hf with rfl | hf
    · simp
    · have hne : g.1 ≠ f.1 := fun e => hg (List.mem_map.mpr ⟨f, hf, e.symm⟩)
      rw [if_neg hne, ih hfs hf]

theorem distinct_filter (h : Distinct fs) (p : Text × Value → Bool) : Distinct (fs.filter p) :=
  h.sublist (List.filter_sublist.map _)

/-- Where keys are distinct, a key is found among the fields that pass if its own field passes. -/
theorem get?_filter (h : Distinct fs) (p : Text × Value → Bool) (key : Text) :
    get? (fs.filter p) key = (get? fs key).filter fun v => p (key, v) := by
  cases hv : get? fs key with
  | none =>
    refine get?_eq_none_iff.mpr fun hm => get?_eq_none_iff.mp hv ?_
    exact (List.filter_sublist.map _).subset hm
  | some v =>
    have hmem := mem_of_get? hv
    by_cases hp : p (key, v) = true
    · have hmem' : (key, v) ∈ fs.filter p := List.mem_filter.mpr ⟨hmem, hp⟩
      rw [get?_of_mem (distinct_filter h p) hmem', Option.filter_some, if_pos hp]
    · rw [Option.filter_some, if_neg hp]
      refine get?_eq_none_iff.mpr fun hm => hp ?_
      obtain ⟨f, hf, rfl⟩ := List.mem_map.mp hm
      obtain ⟨hf, hpf⟩ := List.mem_filter.mp hf
      rw [get?_of_mem h hf] at hv
      rwa [← Option.some.inj hv]

theorem has_iff : has fs key = true ↔ key ∈ fs.map (·.1) := by
  simp [has]

theorem keys_set (fs : Fields) (key : Text) (v : Value) :
    (set fs key v).map (·.1) = if key ∈ fs.map (·.1) then fs.map (·.1) else fs.map (·.1) ++ [key] := by
  unfold set
  by_cases h : key ∈ fs.map (·.1)
  · rw [if_pos (has_iff.mpr h), if_pos h, List.map_map]
    refine List.map_congr_left fun f _ => ?_
    by_cases hf : f.1 = key <;> simp [hf]
  · rw [if_neg fun hh => h (has_iff.mp hh), if_neg h]
    simp

theorem get?_set (fs : Fields) (key : Text) (v : Value) (key' : Text) :
    get? (set fs key v) key' = if key = key' then some v else get? fs key' := by
  unfold set
  by_cases h : has fs key = true
  · rw [if_pos h]
    have hmap : (fs.map fun f => if f.1 = key then (f.1, v) else f) =
        fs.map fun f => (f.1, if f.1 = key then v else f.2) := by
      refine List.map_congr_left fun f _ => ?_
      by_cases hf : f.1 = key <;> simp [hf]
    rw [hmap, get?_map fun k w => if k = key then v else w]
    by_cases hk : key = key'
    · subst hk
      cases hg : get? fs key with
      | none => exact absurd (has_iff.mp h) (get?_eq_none_iff.mp hg)
      | some w => simp
    · simp only [Ne.symm hk, hk, if_false]
      cases get? fs key' <;> rfl
  · rw [if_neg h, get?_append, get?_cons]
    by_cases hk : key = key'
    · subst hk
      rw [get?_eq_none_iff.mpr fun hm => h (has_iff.mpr hm)]
      simp
    · simp [hk, get?]

theorem distinct_set (h : Distinct fs) (key : Text) (v : Value) : Distinct (set fs key v) := by
  unfold Distinct
  rw [keys_set]
  split
  · exact h
  · rename_i hk
    refine List.nodup_append.mpr ⟨h, by simp, ?_⟩
    rintro k hmem _ hk' rfl
    exact hk (List.mem_singleton.mp hk' ▸ hmem)

theorem mem_set {f : Text × Value} {v : Value} (h : f ∈ set fs key v) : f ∈ fs ∨ f = (key, v) := by
  unfold set at h
  split at h
  · obtain ⟨g, hg, rfl⟩ := List.mem_map.mp h
    by_cases hk : g.1 = key
    · right
      simp [hk]
    · left
      simpa [hk] using hg
  · exact (List.mem_append.mp h).imp_right List.mem_singleton.mp

/-- The second fields decide where they have a key. -/
theorem get?_merge (hg : Distinct gs) (key : Text) : get? (merge fs gs) key = (get? gs key).or (get? fs key) := by
  induction gs generalizing fs with
  | nil => rfl
  | cons g gs ih =>
    obtain ⟨hnot, hgs⟩ := List.nodup_cons.mp hg
    change get? (merge (set fs g.1 g.2) gs) key = _
    rw [ih hgs, get?_set, get?_cons]
    by_cases hk : g.1 = key
    · subst hk
      rw [get?_eq_none_iff.mpr hnot]
      simp
    · simp [hk]

theorem distinct_merge (hf : Distinct fs) (gs : Fields) : Distinct (merge fs gs) := by
  induction gs generalizing fs with
  | nil => exact hf
  | cons g gs ih => exact ih (distinct_set hf g.1 g.2)

/-- Fields with distinct keys, merged into none, stay as they are. -/
theorem merge_nil_left (hg : Distinct gs) : merge [] gs = gs := by
  suffices h : ∀ fs, Distinct (fs ++ gs) → merge fs gs = fs ++ gs from h [] hg
  intro fs hfs
  induction gs generalizing fs with
  | nil => exact (List.append_nil fs).symm
  | cons g gs ih =>
    have hnew : has fs g.1 = false := by
      rw [Bool.eq_false_iff]
      intro hh
      have hkeys : (fs.map (·.1) ++ g.1 :: gs.map (·.1)).Nodup := by simpa [Distinct] using hfs
      exact (List.nodup_append.mp hkeys).2.2 _ (has_iff.mp hh) _ List.mem_cons_self rfl
    have hset : set fs g.1 g.2 = fs ++ [g] := by simp [set, hnew]
    change merge (set fs g.1 g.2) gs = _
    rw [hset, ih (List.nodup_cons.mp hg).2 _ (by simpa using hfs), List.append_assoc]
    rfl

theorem keys_merge (hg : Distinct gs) :
    (merge fs gs).map (·.1) = fs.map (·.1) ++ (gs.map (·.1)).filter (· ∉ fs.map (·.1)) := by
  induction gs generalizing fs with
  | nil => exact (List.append_nil _).symm
  | cons g gs ih =>
    obtain ⟨hnot, hgs⟩ := List.nodup_cons.mp hg
    change (merge (set fs g.1 g.2) gs).map (·.1) = _
    rw [ih hgs, keys_set, List.map_cons]
    by_cases hk : g.1 ∈ fs.map (·.1)
    · rw [if_pos hk, List.filter_cons_of_neg (by simpa using hk)]
    · -- the later keys are others, so that one more key hides none of them
      have hlater : (gs.map (·.1)).filter (· ∉ fs.map (·.1) ++ [g.1]) = (gs.map (·.1)).filter (· ∉ fs.map (·.1)) := by
        refine List.filter_congr fun key hkey => ?_
        have hne : key ≠ g.1 := by
          rintro rfl
          exact hnot hkey
        simp only [List.mem_append, List.mem_singleton, hne, or_false]
      rw [if_neg hk, List.filter_cons_of_pos (by simpa using hk), hlater, List.append_assoc]
      rfl

/-- Fields are known by the order of their keys and by what is found under them. -/
theorem ext_of_distinct (hf : Distinct fs) (hkeys : fs.map (·.1) = gs.map (·.1)) (hget : ∀ key, get? fs key = get? gs key) :
    fs = gs := by
  have hg : Distinct gs := by rwa [Distinct, ← hkeys]
  refine List.ext_getElem (by simpa using congrArg List.length hkeys) fun i hi hi' => ?_
  have hkey : fs[i].1 = gs[i].1 := by simpa [hi, hi'] using congrArg (·[i]?) hkeys
  have hvalue := hget fs[i].1
  rw [get?_of_mem hf (List.getElem_mem hi), hkey, get?_of_mem hg (List.getElem_mem hi')] at hvalue
  exact Prod.ext hkey (Option.some.inj hvalue)

/-- Merging is associative, the order of the keys included. -/
theorem merge_assoc {hs : Fields} (hf : Distinct fs) (hg : Distinct gs) (hh : Distinct hs) :
    merge (merge fs gs) hs = merge fs (merge gs hs) := by
  have hgh : Distinct (merge gs hs) := distinct_merge hg hs
  refine ext_of_distinct (distinct_merge (distinct_merge hf gs) hs) ?_ fun key => ?_
  · rw [keys_merge hh, keys_merge hg, keys_merge hgh, keys_merge hh, List.filter_append, List.filter_filter,
      List.append_assoc]
    congr 2
    refine List.filter_congr fun key _ => ?_
    by_cases hkey : key ∈ fs.map (·.1)
    · simp only [List.mem_append, hkey, true_or, not_true_eq_false, decide_false, Bool.false_and]
    · simp [hkey]
  · rw [get?_merge hh, get?_merge hg, get?_merge hgh, get?_merge hh, Option.or_assoc]

theorem set_map (g : Text → Value → Value) (fs : Fields) (key : Text) (v : Value) :
    set (fs.map fun f => (f.1, g f.1 f.2)) key (g key v) = (set fs key v).map fun f => (f.1, g f.1 f.2) := by
  have hhas : has (fs.map fun f => (f.1, g f.1 f.2)) key = has fs key := by simp [has, List.any_map, Function.comp_def]
  unfold set
  rw [hhas]
  by_cases h : has fs key = true
  · rw [if_pos h, if_pos h, List.map_map, List.map_map]
    refine List.map_congr_left fun f _ => ?_
    by_cases hf : f.1 = key
    · simp [hf]
    · simp [hf]
  · rw [if_neg h, if_neg h, List.map_append]
    rfl

/-- Values may be changed by their keys before fields are merged or after that. -/
theorem merge_map (g : Text → Value → Value) (fs gs : Fields) :
    merge (fs.map fun f => (f.1, g f.1 f.2)) (gs.map fun f => (f.1, g f.1 f.2)) =
      (merge fs gs).map fun f => (f.1, g f.1 f.2) := by
  induction gs generalizing fs with
  | nil => rfl
  | cons f gs ih =>
    change merge (set (fs.map fun f => (f.1, g f.1 f.2)) f.1 (g f.1 f.2)) (gs.map fun f => (f.1, g f.1 f.2)) = _
    rw [set_map, ih]
    rfl

theorem mem_merge {f : Text × Value} (h : f ∈ merge fs gs) : f ∈ fs ∨ f ∈ gs := by
  induction gs generalizing fs with
  | nil => exact Or.inl h
  | cons g gs ih =>
    rcases ih h with h | h
    · rcases mem_set h with h | rfl
      · exact Or.inl h
      · exact Or.inr List.mem_cons_self
    · exact Or.inr (List.mem_cons_of_mem _ h)

end TsProject.Fields
