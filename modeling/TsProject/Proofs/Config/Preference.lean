/-
  TsProject.Proofs.Config.Preference — which of the files found are root files.

  Files are taken one by one: a better one makes worse ones of its name give way, a worse
  one is passed over. What is left in the end does not show the order: it is every file
  found that is not listed and has no better one of its name, listed or found.

  - `firsts`: the first of the paths under each key.
  - `listedFiles_eq`: the files listed, each key once, as it was spelled last.
  - `takeFound_unrivalled`: one more file keeps what is taken to those without a better one.
  - `rootFiles_preferred`: the root files of a config.
-/

import TsProject.Host.Memory
import TsProject.Proofs.Config.Extension

namespace TsProject.Config

/-! ## First occurrences -/

/-- The first path under each key, in order. -/
def firsts (key : Text → Text) : List Text → List Text
  | [] => []
  | p :: ps => p :: (firsts key ps).filter fun q => key q != key p

section Firsts

variable {key : Text → Text}

theorem firsts_subset (ps : List Text) : ∀ p ∈ firsts key ps, p ∈ ps := by
  induction ps with
  | nil => simp [firsts]
  | cons p ps ih =>
    rw [firsts, List.forall_mem_cons]
    exact ⟨List.mem_cons_self, fun q hq => List.mem_cons_of_mem _ (ih q (List.mem_of_mem_filter hq))⟩

theorem map_firsts_mem_iff {ps : List Text} {k : Text} : k ∈ (firsts key ps).map key ↔ k ∈ ps.map key := by
  induction ps with
  | nil => rfl
  | cons p ps ih =>
    simp only [firsts, List.map_cons, List.mem_cons]
    rw [← ih]
    by_cases hk : k = key p
    · simp [hk]
    · simp only [hk, false_or, List.mem_map, List.mem_filter, bne_iff_ne]
      constructor
      · rintro ⟨q, ⟨hq, -⟩, rfl⟩
        exact ⟨q, hq, rfl⟩
      · rintro ⟨q, hq, rfl⟩
        exact ⟨q, ⟨hq, hk⟩, rfl⟩

theorem nodup_firsts (ps : List Text) : ((firsts key ps).map key).Nodup := by
  induction ps with
  | nil => exact List.nodup_nil
  | cons p ps ih =>
    rw [firsts, List.map_cons, List.nodup_cons]
    refine ⟨?_, ih.sublist (List.filter_sublist.map key)⟩
    rintro hmem
    obtain ⟨q, hq, hk⟩ := List.mem_map.mp hmem
    exact (bne_iff_ne.mp (List.mem_filter.mp hq).2) hk

theorem firsts_concat (ps : List Text) (p : Text) :
    firsts key (ps ++ [p]) = if key p ∈ ps.map key then firsts key ps else firsts key ps ++ [p] := by
  induction ps with
  | nil => rfl
  | cons q ps ih =>
    rw [List.cons_append, firsts, ih, firsts, List.map_cons]
    by_cases hp : key p ∈ ps.map key
    · rw [if_pos hp, if_pos (List.mem_cons_of_mem _ hp)]
    · rw [if_neg hp, List.filter_append]
      by_cases hk : key p = key q
      · rw [if_pos (by rw [hk]; exact List.mem_cons_self)]
        simp [hk]
      · rw [if_neg (by simp only [List.mem_cons, hk, false_or]; exact hp)]
        simp [hk]

/-- Paths with keys of their own all come first. -/
theorem firsts_of_nodup {ps : List Text} (h : (ps.map key).Nodup) : firsts key ps = ps := by
  induction ps with
  | nil => rfl
  | cons p ps ih =>
    obtain ⟨hp, hps⟩ := List.nodup_cons.mp h
    rw [firsts, ih hps, List.filter_eq_self.mpr]
    exact fun q hq => bne_iff_ne.mpr fun hk => hp (hk ▸ List.mem_map_of_mem hq)

end Firsts

/-! ## Listed files -/

/-- The last of the paths under a key. -/
def lastUnder (key : Text → Text) (ps : List Text) (k : Text) : Option Text := ps.reverse.find? fun p => key p == k

theorem lastUnder_concat (key : Text → Text) (ps : List Text) (p k : Text) :
    lastUnder key (ps ++ [p]) k = if key p = k then some p else lastUnder key ps k := by
  rw [lastUnder, List.reverse_append, List.reverse_singleton, List.singleton_append]
  by_cases hk : key p = k
  · simp [hk]
  · rw [if_neg hk, List.find?_cons_of_neg (by simpa using hk), lastUnder]

/-- Each key once, where it comes first, with the path that comes last. -/
def lastSpelled (key : Text → Text) (ps : List Text) : Taken :=
  (firsts key ps).map fun p => (key p, (lastUnder key ps (key p)).getD p)

theorem Taken.has_iff {t : Taken} {k : Text} : t.has k = true ↔ k ∈ t.map (·.1) := by
  simp [Taken.has]

theorem keys_lastSpelled (key : Text → Text) (ps : List Text) : (lastSpelled key ps).map (·.1) = (firsts key ps).map key := by
  simp [lastSpelled]

theorem put_lastSpelled (key : Text → Text) (ps : List Text) (p : Text) :
    (lastSpelled key ps).put (key p) p = lastSpelled key (ps ++ [p]) := by
  have hhas : (lastSpelled key ps).has (key p) = true ↔ key p ∈ ps.map key := by
    rw [Taken.has_iff, keys_lastSpelled, map_firsts_mem_iff]
  have hsame : ∀ q, key p ≠ key q → lastUnder key (ps ++ [p]) (key q) = lastUnder key ps (key q) := by
    intro q hq
    rw [lastUnder_concat, if_neg hq]
  have hnew : lastUnder key (ps ++ [p]) (key p) = some p := by rw [lastUnder_concat, if_pos rfl]
  rw [Taken.put]
  by_cases hp : key p ∈ ps.map key
  · rw [if_pos (hhas.mpr hp), lastSpelled, lastSpelled, firsts_concat, if_pos hp, List.map_map]
    refine List.map_congr_left fun q _ => ?_
    by_cases hq : key q = key p
    · simp [hq, hnew]
    · simp [hq, hsame q (Ne.symm hq)]
  · rw [if_neg (hp ∘ hhas.mp), lastSpelled, lastSpelled, firsts_concat, if_neg hp, List.map_append]
    congr 1
    · refine List.map_congr_left fun q hq => ?_
      have hne : key p ≠ key q := fun h => hp (h ▸ List.mem_map_of_mem (firsts_subset ps q hq))
      rw [hsame q hne]
    · simp [hnew]

/-- The files listed one by one, under their keys. -/
theorem listedFiles_eq (key : Text → Text) (base : Text) (files : List Text) :
    listedFiles key base files = lastSpelled key (files.map fun f => Path.resolve f base) := by
  suffices h : ∀ ps, files.foldl (fun t f => let path := Path.resolve f base; Taken.put t (key path) path) (lastSpelled key ps) =
      lastSpelled key (ps ++ files.map fun f => Path.resolve f base) from h []
  induction files with
  | nil => simp
  | cons f files ih =>
    intro ps
    rw [List.foldl_cons]
    simp only [put_lastSpelled]
    rw [ih, List.map_cons, List.append_assoc, List.singleton_append]

/-! ## Better and worse extensions -/

/-- The extensions of a group that come before one of them. -/
def above (g : ExtensionGroup) (e : Text) : List Text := g.takeWhile (· != e)

/-- Those that come behind it. -/
def beneath (g : ExtensionGroup) (e : Text) : List Text := (g.dropWhile (· != e)).drop 1

theorem mem_above_iff {g : ExtensionGroup} {e b : Text} (he : e ∈ g) :
    b ∈ above g e ↔ b ∈ g ∧ g.idxOf b < g.idxOf e := by
  induction g with
  | nil => cases he
  | cons x g ih =>
    by_cases hx : x = e
    · subst hx
      simp [above]
    · have he' : e ∈ g := (List.mem_cons.mp he).resolve_left (Ne.symm hx)
      have hcons : above (x :: g) e = x :: above g e := by simp [above, hx]
      rw [hcons, List.mem_cons, List.mem_cons, ih he', List.idxOf_cons_ne g hx]
      by_cases hb : b = x
      · subst hb
        simp
      · simp [hb, List.idxOf_cons_ne g (Ne.symm hb)]

theorem mem_beneath_iff {g : ExtensionGroup} (hg : g.Nodup) {e w : Text} :
    w ∈ beneath g e ↔ w ∈ g ∧ g.idxOf e < g.idxOf w := by
  induction g with
  | nil => simp [beneath]
  | cons x g ih =>
    obtain ⟨hxg, hg⟩ := List.nodup_cons.mp hg
    by_cases hx : x = e
    · subst hx
      have hcons : beneath (x :: g) x = g := by simp [beneath]
      rw [hcons, List.mem_cons, List.idxOf_cons_self]
      by_cases hw : w = x
      · subst hw
        simpa using hxg
      · simp [hw, List.idxOf_cons_ne g (Ne.symm hw)]
    · have hcons : beneath (x :: g) e = beneath g e := by simp [beneath, hx]
      rw [hcons, ih hg, List.mem_cons, List.idxOf_cons_ne g hx]
      by_cases hw : w = x
      · subst hw
        simp [hxg]
      · simp [hw, List.idxOf_cons_ne g (Ne.symm hw)]

/-- An extension is worse than those that are better than it. -/
theorem mem_beneath_iff_mem_above {g : ExtensionGroup} (hg : g.Nodup) {e w : Text} (he : e ∈ g) :
    w ∈ beneath g e ↔ w ∈ g ∧ e ∈ above g w := by
  rw [mem_beneath_iff hg]
  refine and_congr_right fun hw => ?_
  rw [mem_above_iff hw, and_iff_right he]

theorem mem_above_or_beneath {g : ExtensionGroup} (hg : g.Nodup) {e x : Text} (he : e ∈ g) (hx : x ∈ g) (hne : x ≠ e) :
    x ∈ above g e ∨ x ∈ beneath g e := by
  rw [mem_above_iff he, mem_beneath_iff hg]
  have hidx : g.idxOf x ≠ g.idxOf e := fun h => hne ((List.idxOf_inj hx).mp h)
  rcases Nat.lt_or_gt_of_ne hidx with h | h
  · exact Or.inl ⟨hx, h⟩
  · exact Or.inr ⟨hx, h⟩

theorem above_trans {g : ExtensionGroup} {a b c : Text} (hc : c ∈ g) (hab : a ∈ above g b) (hbc : b ∈ above g c) :
    a ∈ above g c := by
  obtain ⟨hb, hlt⟩ := (mem_above_iff hc).mp hbc
  obtain ⟨ha, hlt'⟩ := (mem_above_iff hb).mp hab
  exact (mem_above_iff hc).mpr ⟨ha, by omega⟩

theorem not_mem_above_self {g : ExtensionGroup} {e : Text} (he : e ∈ g) : e ∉ above g e := fun h =>
  Nat.lt_irrefl _ ((mem_above_iff he).mp h).2

/-- Among extensions with a property there is one with no better one. -/
theorem exists_best {g : ExtensionGroup} {P : Text → Prop} {e : Text} (he : e ∈ g) (hP : P e) :
    ∃ b ∈ g, P b ∧ (b = e ∨ b ∈ above g e) ∧ ∀ a ∈ above g b, ¬ P a := by
  induction hk : g.idxOf e using Nat.strongRecOn generalizing e with
  | ind k ih =>
    by_cases hbest : ∃ a ∈ above g e, P a
    · obtain ⟨a, ha, hPa⟩ := hbest
      obtain ⟨hag, hlt⟩ := (mem_above_iff he).mp ha
      obtain ⟨b, hb, hPb, hbe, hno⟩ := ih _ (hk ▸ hlt) hag hPa rfl
      refine ⟨b, hb, hPb, Or.inr ?_, hno⟩
      rcases hbe with rfl | hba
      · exact ha
      · exact above_trans he hba ha
    · exact ⟨e, he, hP, Or.inl rfl, fun a ha hPa => hbest ⟨a, ha, hPa⟩⟩

/-! ## Files without a better one -/

/-- A file found is a root file unless it is listed, or a better one of its name is listed or found. -/
def unrivalled (key : Text → Text) (groups : List ExtensionGroup) (listed found : List Text) (p : Text) : Bool :=
  match extensionOf? groups p with
  | none => false
  | some (g, e) => !listed.contains (key p) && (above g e).all fun b =>
    !listed.contains (key (stemOf p e ++ b)) && !found.contains (key (stemOf p e ++ b))

/-- The files found that have no better one, each key once. -/
def unrivalledFiles (key : Text → Text) (groups : List ExtensionGroup) (listed found : List Text) : List Text :=
  (firsts key found).filter (unrivalled key groups listed (found.map key))

variable {cs : Bool} {groups : List ExtensionGroup} {listed found : List Text} {p q : Text} {g : ExtensionGroup}
  {e stem : Text}

theorem Named.unrivalled_iff (hgroups : Apart groups) (hp : Named cs groups p g e stem) :
    unrivalled (Glob.canonical cs) groups listed found p = true ↔
      Glob.canonical cs p ∉ listed ∧ ∀ b ∈ above g e, stem ++ b ∉ listed ∧ stem ++ b ∉ found := by
  obtain ⟨hg, he, -⟩ := extensionOf?_eq_some hgroups hp.extension
  have hsibling : ∀ b ∈ above g e, Glob.canonical cs (stemOf p e ++ b) = stem ++ b := fun b hb =>
    hp.sibling b (hgroups.known g hg b ((mem_above_iff he).mp hb).1)
  simp only [unrivalled, hp.extension, Bool.and_eq_true, List.all_eq_true, Bool.not_eq_true',
    List.contains_eq_mem, decide_eq_false_iff_not]
  refine and_congr_right fun _ => forall₂_congr fun b hb => ?_
  rw [hsibling b hb]

theorem exists_named_of_unrivalled (hgroups : Apart groups)
    (h : unrivalled (Glob.canonical cs) groups listed found p = true) : ∃ g e stem, Named cs groups p g e stem := by
  unfold unrivalled at h
  split at h
  · cases h
  · rename_i g e hextension
    obtain ⟨stem, hstem⟩ := exists_named cs hgroups hextension
    exact ⟨g, e, stem, hstem⟩

/-- Whether a file has a better one depends on its key alone. -/
theorem unrivalled_congr (hgroups : Apart groups) (h : Glob.canonical cs q = Glob.canonical cs p) :
    unrivalled (Glob.canonical cs) groups listed found q = unrivalled (Glob.canonical cs) groups listed found p := by
  have hone : ∀ {p q : Text}, Glob.canonical cs q = Glob.canonical cs p →
      unrivalled (Glob.canonical cs) groups listed found p = true →
      unrivalled (Glob.canonical cs) groups listed found q = true := by
    intro p q h hunrivalled
    obtain ⟨g, e, stem, hp⟩ := exists_named_of_unrivalled hgroups hunrivalled
    obtain ⟨stem', hq⟩ := exists_named cs hgroups ((extensionOf?_congr h).trans hp.extension)
    obtain ⟨t, ht, hkey⟩ := hp.key
    obtain rfl := hq.stem_eq (h.trans hkey) (by rw [← ht, List.length_map])
    rw [hq.unrivalled_iff hgroups, h]
    exact (hp.unrivalled_iff hgroups).mp hunrivalled
  rw [Bool.eq_iff_iff]
  exact ⟨hone h.symm, hone h⟩

/-! ## One more file -/

theorem mem_unrivalledFiles_keys {key : Text → Text} {k : Text} : k ∈ (unrivalledFiles key groups listed found).map key ↔
    ∃ q ∈ firsts key found, unrivalled key groups listed (found.map key) q = true ∧ key q = k := by
  simp only [unrivalledFiles, List.mem_map, List.mem_filter, and_assoc]

/-- A file gets a rival when a better one of its name is found. -/
theorem Named.unrivalled_concat (hgroups : Apart groups) (hq : Named cs groups q g e stem) (p : Text) :
    unrivalled (Glob.canonical cs) groups listed ((found ++ [p]).map (Glob.canonical cs)) q = true ↔
      unrivalled (Glob.canonical cs) groups listed (found.map (Glob.canonical cs)) q = true ∧
        ∀ b ∈ above g e, Glob.canonical cs p ≠ stem ++ b := by
  rw [hq.unrivalled_iff hgroups, hq.unrivalled_iff hgroups, and_assoc]
  refine and_congr_right fun _ => ?_
  rw [← forall₂_and]
  refine forall₂_congr fun b _ => ?_
  rw [List.map_append, List.mem_append, not_or, and_assoc, List.map_singleton, List.mem_singleton]
  exact and_congr_right fun _ => and_congr_right fun _ => ne_comm

/-- Of the better ones of a file that are found one is taken. -/
theorem Named.rival_taken_iff (hgroups : Apart groups) (hfound : Unambiguous cs groups (found ++ [p]))
    (hp : Named cs groups p g e stem) :
    (∃ b ∈ above g e, stem ++ b ∈ listed ∨
        stem ++ b ∈ (unrivalledFiles (Glob.canonical cs) groups listed found).map (Glob.canonical cs)) ↔
      ∃ b ∈ above g e, stem ++ b ∈ listed ∨ stem ++ b ∈ found.map (Glob.canonical cs) := by
  obtain ⟨-, he, -⟩ := extensionOf?_eq_some hgroups hp.extension
  constructor
  · rintro ⟨b, hb, hmem⟩
    refine ⟨b, hb, hmem.imp_right fun hmem => ?_⟩
    obtain ⟨q, hq, -, hkey⟩ := mem_unrivalledFiles_keys.mp hmem
    exact List.mem_map.mpr ⟨q, firsts_subset found q hq, hkey⟩
  · intro hrival
    by_cases hlisted : ∃ b ∈ above g e, stem ++ b ∈ listed
    · obtain ⟨b, hb, hmem⟩ := hlisted
      exact ⟨b, hb, Or.inl hmem⟩
    · -- the best of those found has no better one itself
      have hnone : ∀ b ∈ above g e, stem ++ b ∉ listed := fun b hb hmem => hlisted ⟨b, hb, hmem⟩
      obtain ⟨b, hb, hmem⟩ := hrival
      have hbg := ((mem_above_iff he).mp hb).1
      obtain ⟨b', hb'g, hb'mem, hb', hbest⟩ :=
        exists_best (P := fun b => stem ++ b ∈ found.map (Glob.canonical cs)) hbg (hmem.resolve_left (hnone b hb))
      have hb'e : b' ∈ above g e := hb'.elim (fun h => h ▸ hb) fun h => above_trans he h hb
      obtain ⟨q, hq, hkey⟩ := List.mem_map.mp (map_firsts_mem_iff.mpr hb'mem)
      have hne : b' ≠ e := fun h => not_mem_above_self he (h ▸ hb'e)
      obtain ⟨hqNamed, -⟩ := hp.sibling_of_key hgroups hfound List.mem_concat_self
        (List.mem_append_left [p] (firsts_subset found q hq)) hb'g hne hkey
      refine ⟨b', hb'e, Or.inr (mem_unrivalledFiles_keys.mpr ⟨q, hq, ?_, hkey⟩)⟩
      rw [hqNamed.unrivalled_iff hgroups, hkey]
      refine ⟨hnone b' hb'e, fun a ha => ⟨hnone a ?_, hbest a ha⟩⟩
      exact above_trans he ha hb'e

/-- A file that has a better one changes nothing. -/
theorem unrivalledFiles_concat_of_rivalled {key : Text → Text}
    (hp : unrivalled key groups listed ((found ++ [p]).map key) p = false)
    (hfound : ∀ q ∈ firsts key found, unrivalled key groups listed ((found ++ [p]).map key) q =
      unrivalled key groups listed (found.map key) q) :
    unrivalledFiles key groups listed (found ++ [p]) = unrivalledFiles key groups listed found := by
  have hold : (firsts key found).filter (unrivalled key groups listed ((found ++ [p]).map key)) =
      (firsts key found).filter (unrivalled key groups listed (found.map key)) := List.filter_congr hfound
  rw [unrivalledFiles, unrivalledFiles, firsts_concat]
  split
  · exact hold
  · rw [List.filter_append, hold, List.filter_singleton, hp]
    exact List.append_nil _

/-- Paths under their keys. -/
def keyed (key : Text → Text) (ps : List Text) : Taken := ps.map fun p => (key p, p)

theorem keys_keyed (key : Text → Text) (ps : List Text) : (keyed key ps).map (·.1) = ps.map key := by
  simp [keyed]

/-- What taking a file does, by its stem. -/
theorem Named.takeFound_eq (hgroups : Apart groups) (hp : Named cs groups p g e stem) (listed taken : Taken) :
    takeFound (Glob.canonical cs) groups listed taken p =
      if (above g e).any fun b => listed.has (stem ++ b) || taken.has (stem ++ b) then taken
      else
        let rest := taken.without ((beneath g e).map fun w => stem ++ w)
        if listed.has (Glob.canonical cs p) || rest.has (Glob.canonical cs p) then rest
        else rest ++ [(Glob.canonical cs p, p)] := by
  obtain ⟨hg, he, -⟩ := extensionOf?_eq_some hgroups hp.extension
  have hsibling : ∀ x ∈ g, Glob.canonical cs (stemOf p e ++ x) = stem ++ x := fun x hx =>
    hp.sibling x (hgroups.known g hg x hx)
  have habove : ((above g e).any fun b => listed.has (Glob.canonical cs (stemOf p e ++ b)) ||
      taken.has (Glob.canonical cs (stemOf p e ++ b))) =
      (above g e).any fun b => listed.has (stem ++ b) || taken.has (stem ++ b) := by
    rw [Bool.eq_iff_iff, List.any_eq_true, List.any_eq_true]
    refine exists_congr fun b => and_congr_right fun hb => ?_
    rw [hsibling b ((mem_above_iff he).mp hb).1]
  have hbeneath : ((beneath g e).map fun w => Glob.canonical cs (stemOf p e ++ w)) = (beneath g e).map fun w => stem ++ w :=
    List.map_congr_left fun w hw => hsibling w ((mem_beneath_iff (hgroups.nodup g hg)).mp hw).1
  unfold takeFound
  rw [hp.extension, ← habove, ← hbeneath]
  rfl

/-- A file stays without a better one when another file is none. -/
theorem unrivalled_concat_eq (hgroups : Apart groups)
    (h : ∀ {g e stem}, Named cs groups q g e stem →
      unrivalled (Glob.canonical cs) groups listed (found.map (Glob.canonical cs)) q = true →
      ∀ b ∈ above g e, Glob.canonical cs p ≠ stem ++ b) :
    unrivalled (Glob.canonical cs) groups listed ((found ++ [p]).map (Glob.canonical cs)) q =
      unrivalled (Glob.canonical cs) groups listed (found.map (Glob.canonical cs)) q := by
  rw [Bool.eq_iff_iff]
  constructor
  · intro hnew
    obtain ⟨g, e, stem, hnamed⟩ := exists_named_of_unrivalled hgroups hnew
    exact ((hnamed.unrivalled_concat hgroups p).mp hnew).1
  · intro hold
    obtain ⟨g, e, stem, hnamed⟩ := exists_named_of_unrivalled hgroups hold
    exact (hnamed.unrivalled_concat hgroups p).mpr ⟨hold, h hnamed hold⟩

/-- The files that give way to a better one are those it becomes the rival of. -/
theorem Named.without_beneath (hgroups : Apart groups) (hfound : Unambiguous cs groups (found ++ [p]))
    (hp : Named cs groups p g e stem) :
    (keyed (Glob.canonical cs) (unrivalledFiles (Glob.canonical cs) groups listed found)).without
        ((beneath g e).map fun w => stem ++ w) =
      keyed (Glob.canonical cs) ((firsts (Glob.canonical cs) found).filter
        (unrivalled (Glob.canonical cs) groups listed ((found ++ [p]).map (Glob.canonical cs)))) := by
  obtain ⟨hg, he, -⟩ := extensionOf?_eq_some hgroups hp.extension
  rw [Taken.without, keyed, List.filter_map, unrivalledFiles, List.filter_filter, keyed]
  congr 1
  refine List.filter_congr fun q hq => ?_
  have hqf : q ∈ found ++ [p] := List.mem_append_left [p] (firsts_subset found q hq)
  rw [Bool.eq_iff_iff]
  simp only [Function.comp_apply, Bool.and_eq_true, Bool.not_eq_true', List.contains_eq_mem, decide_eq_false_iff_not,
    List.mem_map, not_exists, not_and]
  constructor
  · rintro ⟨hstays, hold⟩
    obtain ⟨g', e', stem', hnamed⟩ := exists_named_of_unrivalled hgroups hold
    refine (hnamed.unrivalled_concat hgroups p).mpr ⟨hold, fun b hb hkey => ?_⟩
    obtain ⟨-, he', -⟩ := extensionOf?_eq_some hgroups hnamed.extension
    obtain ⟨hpNamed, hqkey⟩ := hnamed.sibling_of_key hgroups hfound hqf List.mem_concat_self ((mem_above_iff he').mp hb).1
      (fun h => not_mem_above_self he' (h ▸ hb)) hkey
    obtain ⟨rfl, rfl, rfl⟩ := hp.unique hpNamed
    exact hstays e' ((mem_beneath_iff_mem_above (hgroups.nodup _ hg) he).mpr ⟨he', hb⟩) hqkey.symm
  · intro hnew
    obtain ⟨g', e', stem', hnamed⟩ := exists_named_of_unrivalled hgroups hnew
    obtain ⟨hold, hfree⟩ := (hnamed.unrivalled_concat hgroups p).mp hnew
    refine ⟨fun w hw hkey => ?_, hold⟩
    obtain ⟨hwg, hew⟩ := (mem_beneath_iff_mem_above (hgroups.nodup g hg) he).mp hw
    obtain ⟨hqNamed, hpkey⟩ := hp.sibling_of_key hgroups hfound List.mem_concat_self hqf hwg
      (fun h => not_mem_above_self he (h ▸ hew)) hkey.symm
    obtain ⟨rfl, rfl, rfl⟩ := hnamed.unique hqNamed
    exact hfree e hew hpkey

/-- Taking one more file leaves those without a better one. -/
theorem takeFound_unrivalled (hgroups : Apart groups) (listed : Taken) (hfound : Unambiguous cs groups (found ++ [p])) :
    takeFound (Glob.canonical cs) groups listed
        (keyed (Glob.canonical cs) (unrivalledFiles (Glob.canonical cs) groups (listed.map (·.1)) found)) p =
      keyed (Glob.canonical cs) (unrivalledFiles (Glob.canonical cs) groups (listed.map (·.1)) (found ++ [p])) := by
  cases hextension : extensionOf? groups p with
  | none =>
    rw [unrivalledFiles_concat_of_rivalled, takeFound, hextension]
    · rw [unrivalled, hextension]
    · -- a file that is no better one has no extension, and so has its key
      refine fun q _ => unrivalled_concat_eq hgroups fun hnamed _ b hb hkey => ?_
      obtain ⟨hg, he, -⟩ := extensionOf?_eq_some hgroups hnamed.extension
      obtain ⟨g', e', hfound'⟩ := exists_of_key hgroups hg ((mem_above_iff he).mp hb).1 hkey
      rw [hextension] at hfound'
      cases hfound'
  | some r =>
    obtain ⟨g, e⟩ := r
    obtain ⟨stem, hnamed⟩ := exists_named cs hgroups hextension
    obtain ⟨hg, he, -⟩ := extensionOf?_eq_some hgroups hextension
    rw [hnamed.takeFound_eq hgroups]
    simp only [Taken.has_iff, keys_keyed, List.any_eq_true, Bool.or_eq_true]
    by_cases hrival : ∃ b ∈ above g e, stem ++ b ∈ listed.map (·.1) ∨ stem ++ b ∈ found.map (Glob.canonical cs)
    · rw [if_pos ((hnamed.rival_taken_iff hgroups hfound).mpr hrival), unrivalledFiles_concat_of_rivalled]
      · obtain ⟨b, hb, hmem⟩ := hrival
        rw [Bool.eq_false_iff]
        intro hunrivalled
        obtain ⟨hlisted, hother⟩ := ((hnamed.unrivalled_iff hgroups).mp hunrivalled).2 b hb
        exact hmem.elim hlisted fun h => hother (by simp [h])
      · -- what the file is better than has its better one for a rival already
        refine fun q hq => unrivalled_concat_eq hgroups fun hqNamed hold b hb hkey => ?_
        obtain ⟨-, he', -⟩ := extensionOf?_eq_some hgroups hqNamed.extension
        obtain ⟨hpNamed, -⟩ := hqNamed.sibling_of_key hgroups hfound (List.mem_append_left [p] (firsts_subset found q hq))
          List.mem_concat_self ((mem_above_iff he').mp hb).1 (fun h => not_mem_above_self he' (h ▸ hb)) hkey
        obtain ⟨rfl, rfl, rfl⟩ := hnamed.unique hpNamed
        obtain ⟨b', hb', hmem⟩ := hrival
        obtain ⟨hlisted, hother⟩ := ((hqNamed.unrivalled_iff hgroups).mp hold).2 b' (above_trans he' hb' hb)
        exact hmem.elim hlisted hother
    · rw [if_neg (hrival ∘ (hnamed.rival_taken_iff hgroups hfound).mp), hnamed.without_beneath hgroups hfound]
      have hown : unrivalled (Glob.canonical cs) groups (listed.map (·.1)) ((found ++ [p]).map (Glob.canonical cs)) p = true ↔
          Glob.canonical cs p ∉ listed.map (·.1) := by
        rw [hnamed.unrivalled_concat hgroups, hnamed.unrivalled_iff hgroups]
        constructor
        · exact fun h => h.1.1
        · refine fun h => ⟨⟨h, fun b hb => ?_⟩, fun b hb hsame => ?_⟩
          · exact ⟨fun hm => hrival ⟨b, hb, Or.inl hm⟩, fun hm => hrival ⟨b, hb, Or.inr hm⟩⟩
          · -- the extension of a file is no better one, however it is spelled
            obtain ⟨t, ht, hkey⟩ := hnamed.key
            obtain rfl := List.append_cancel_left (hkey.symm.trans hsame)
            rw [map_lowerPoint_extension t (hgroups.known g hg t ((mem_above_iff he).mp hb).1)] at ht
            exact not_mem_above_self he (ht ▸ hb)
      simp only [keys_keyed, unrivalledFiles, firsts_concat]
      by_cases hk : Glob.canonical cs p ∈ found.map (Glob.canonical cs)
      · -- the file is found again
        obtain ⟨q, hq, hkey⟩ := List.mem_map.mp (map_firsts_mem_iff.mpr hk)
        rw [if_pos hk, if_pos]
        by_cases hlisted : Glob.canonical cs p ∈ listed.map (·.1)
        · exact Or.inl hlisted
        · refine Or.inr (List.mem_map.mpr ⟨q, List.mem_filter.mpr ⟨hq, ?_⟩, hkey⟩)
          rw [unrivalled_congr hgroups hkey]
          exact hown.mpr hlisted
      · rw [if_neg hk, List.filter_append, List.filter_singleton]
        by_cases hlisted : Glob.canonical cs p ∈ listed.map (·.1)
        · rw [if_pos (Or.inl hlisted), Bool.eq_false_iff.mpr fun h => hown.mp h hlisted, cond_false, List.append_nil]
        · rw [if_neg, hown.mpr hlisted, cond_true]
          · simp [keyed]
          · rintro (h | h)
            · exact hlisted h
            · obtain ⟨q, hq, hkey⟩ := List.mem_map.mp h
              exact hk (List.mem_map.mpr ⟨q, firsts_subset found q (List.mem_of_mem_filter hq), hkey⟩)

/-! ## All files -/

theorem foldl_takeFound (hgroups : Apart groups) (listed : Taken) (hfound : Unambiguous cs groups found) :
    found.foldl (takeFound (Glob.canonical cs) groups listed) [] =
      keyed (Glob.canonical cs) (unrivalledFiles (Glob.canonical cs) groups (listed.map (·.1)) found) := by
  suffices h : ∀ before, Unambiguous cs groups (before ++ found) →
      found.foldl (takeFound (Glob.canonical cs) groups listed)
          (keyed (Glob.canonical cs) (unrivalledFiles (Glob.canonical cs) groups (listed.map (·.1)) before)) =
        keyed (Glob.canonical cs) (unrivalledFiles (Glob.canonical cs) groups (listed.map (·.1)) (before ++ found)) from
    h [] hfound
  induction found with
  | nil => simp
  | cons p found ih =>
    intro before hall
    rw [← List.singleton_append, ← List.append_assoc] at hall ⊢
    rw [List.singleton_append, List.foldl_cons, takeFound_unrivalled hgroups listed
      (hall.mono fun q hq => List.mem_append_left found hq)]
    exact ih (hfound.mono fun q hq => List.mem_cons_of_mem p hq) (before ++ [p]) hall

/-- Only the keys of the listed and the found files matter. -/
theorem unrivalled_of_mem_iff {key : Text → Text} {listed' found' : List Text} (hlisted : ∀ k, k ∈ listed' ↔ k ∈ listed)
    (hfound : ∀ k, k ∈ found' ↔ k ∈ found) :
    unrivalled key groups listed' found' = unrivalled key groups listed found := by
  have hcontains : ∀ {l l' : List Text}, (∀ k, k ∈ l' ↔ k ∈ l) → ∀ k, l'.contains k = l.contains k := by
    intro l l' h k
    rw [Bool.eq_iff_iff, List.contains_iff_mem, List.contains_iff_mem, h]
  funext p
  simp only [unrivalled, hcontains hlisted, hcontains hfound]

/-- The listed files, and then the files found that have no better one. -/
theorem chooseFiles_eq (hgroups : Apart groups) (base : Text) (files : List Text) (hfound : Unambiguous cs groups found) :
    chooseFiles (Glob.canonical cs) groups (listedFiles (Glob.canonical cs) base files) found =
      (lastSpelled (Glob.canonical cs) (files.map fun f => Path.resolve f base)).map (·.2) ++
        unrivalledFiles (Glob.canonical cs) groups ((files.map fun f => Path.resolve f base).map (Glob.canonical cs)) found := by
  have hkeys : ∀ ps : List Text, ∀ k, k ∈ (lastSpelled (Glob.canonical cs) ps).map (·.1) ↔ k ∈ ps.map (Glob.canonical cs) := by
    intro ps k
    rw [keys_lastSpelled, map_firsts_mem_iff]
  have hpaths : ∀ ps : List Text, (keyed (Glob.canonical cs) ps).map (·.2) = ps := by
    intro ps
    rw [keyed, List.map_map]
    exact List.map_id ps
  rw [chooseFiles, foldl_takeFound hgroups _ hfound, List.map_append, hpaths, listedFiles_eq, unrivalledFiles,
    unrivalledFiles, unrivalled_of_mem_iff (hkeys _) fun _ => Iff.rfl]

theorem key_lastSpelled (key : Text → Text) (ps : List Text) :
    ((lastSpelled key ps).map (·.2)).map key = (firsts key ps).map key := by
  have hlast : ∀ p, key ((lastUnder key ps (key p)).getD p) = key p := by
    intro p
    cases hp : lastUnder key ps (key p) with
    | none => rfl
    | some q => simpa using List.find?_some hp
  rw [lastSpelled, List.map_map, List.map_map]
  exact List.map_congr_left fun p _ => hlast p

theorem not_mem_listed_of_unrivalled {key : Text → Text} (h : unrivalled key groups listed found p = true) :
    key p ∉ listed := by
  unfold unrivalled at h
  split at h
  · cases h
  · simpa using (Bool.and_eq_true_iff.mp h).1

/-- The root files have keys of their own. -/
theorem nodup_keys_roots (key : Text → Text) (ps : List Text) :
    (((lastSpelled key ps).map (·.2) ++ unrivalledFiles key groups (ps.map key) found).map key).Nodup := by
  rw [List.map_append, key_lastSpelled, List.nodup_append]
  refine ⟨nodup_firsts ps, (nodup_firsts found).sublist (List.filter_sublist.map key), ?_⟩
  rintro k hk _ hk' rfl
  obtain ⟨p, hp, rfl⟩ := List.mem_map.mp hk'
  exact not_mem_listed_of_unrivalled (List.mem_filter.mp hp).2 (map_firsts_mem_iff.mp hk)

/-- The order of the files found shows in the order of the root files only. -/
theorem unrivalledFiles_keys_perm (hgroups : Apart groups) {found' : List Text} (hperm : found'.Perm found) {k : Text}
    (hk : k ∈ (unrivalledFiles (Glob.canonical cs) groups listed found').map (Glob.canonical cs)) :
    k ∈ (unrivalledFiles (Glob.canonical cs) groups listed found).map (Glob.canonical cs) := by
  obtain ⟨q, hq, hunrivalled, rfl⟩ := mem_unrivalledFiles_keys.mp hk
  have hqfound : q ∈ found := hperm.mem_iff.mp (firsts_subset found' q hq)
  obtain ⟨p, hp, hkey⟩ := List.mem_map.mp (map_firsts_mem_iff.mpr (List.mem_map_of_mem (f := Glob.canonical cs) hqfound))
  refine mem_unrivalledFiles_keys.mpr ⟨p, hp, ?_, hkey⟩
  rw [unrivalled_congr hgroups hkey,
    unrivalled_of_mem_iff (fun _ => Iff.rfl) fun k => ((hperm.map _).mem_iff (a := k)).symm]
  exact hunrivalled

theorem chooseFiles_keys_perm (hgroups : Apart groups) (base : Text) (files : List Text) {found' : List Text}
    (hfound : Unambiguous cs groups found) (hperm : found'.Perm found) (k : Text) :
    k ∈ (chooseFiles (Glob.canonical cs) groups (listedFiles (Glob.canonical cs) base files) found').map (Glob.canonical cs) ↔
      k ∈ (chooseFiles (Glob.canonical cs) groups (listedFiles (Glob.canonical cs) base files) found).map (Glob.canonical cs) := by
  rw [chooseFiles_eq hgroups base files hfound, chooseFiles_eq hgroups base files (hfound.mono fun p => hperm.mem_iff.mp),
    List.map_append, List.map_append, List.mem_append, List.mem_append]
  exact or_congr_right ⟨unrivalledFiles_keys_perm hgroups hperm, unrivalledFiles_keys_perm hgroups hperm.symm⟩

/-- The root files are the files listed, each key once, and those found that are not listed and have no
better one of their name, listed or found; each in its order. No two have one key, none of those listed
gives way, and the order in which files are found decides nothing but their order. -/
theorem rootFiles_preferred (h : Host) (options : Options) (base : Text) (files : List Text) {found : List Text}
    (hfound : ∀ p ∈ found, Plain h.caseSensitive options.extensionGroups p) :
    let key := Glob.canonical h.caseSensitive
    let groups := options.extensionGroups
    let paths := files.map fun f => Path.resolve f base
    let roots := fun found => chooseFiles key groups (listedFiles key base files) found
    roots found = (lastSpelled key paths).map (·.2) ++ unrivalledFiles key groups (paths.map key) found ∧
      ((roots found).map key).Nodup ∧ (∀ path ∈ paths, key path ∈ (roots found).map key) ∧
      (∀ found' : List Text, found'.Perm found → ∀ k, k ∈ (roots found').map key ↔ k ∈ (roots found).map key) ∧
      ∀ includes excludes, (if includes.isEmpty then [] else
        h.readDirectory base groups.flatten excludes includes none) = found →
        rootFiles h options base files includes excludes = roots found := by
  intro key groups paths roots
  have hgroups := apart_extensionGroups options
  have hunambiguous := Unambiguous.of_plain hgroups hfound
  have hroots : roots found = (lastSpelled key paths).map (·.2) ++ unrivalledFiles key groups (paths.map key) found :=
    chooseFiles_eq hgroups base files hunambiguous
  refine ⟨hroots, hroots ▸ nodup_keys_roots key paths, fun path hpath => ?_, fun found' hperm => ?_, ?_⟩
  · rw [hroots, List.map_append, key_lastSpelled]
    exact List.mem_append_left _ (map_firsts_mem_iff.mpr (List.mem_map_of_mem hpath))
  · exact chooseFiles_keys_perm hgroups base files hunambiguous hperm
  · rintro includes excludes rfl
    rfl

/-- A file system that ignores case. -/
def foldingHost : Host := Host.Memory.host { caseSensitive := false }

def javaScriptAllowed : Options := { values := [(Text.of "allowJs", .bool true)] }

theorem rootFiles_preferred_folding :
    (∀ p ∈ ["/p/A.js", "/p/a.D.TS", "/p/b.tsx", "/p/a.ts", "/p/c.js", "/p/readme.md", "/p/C.JS"].map Text.of,
        Plain foldingHost.caseSensitive javaScriptAllowed.extensionGroups p) ∧
      chooseFiles (Glob.canonical false) allGroups (listedFiles (Glob.canonical false) (Text.of "/p") [Text.of "B.ts"])
          (["/p/A.js", "/p/a.D.TS", "/p/b.tsx", "/p/a.ts", "/p/c.js", "/p/readme.md", "/p/C.JS"].map Text.of) =
        ["/p/B.ts", "/p/a.ts", "/p/c.js"].map Text.of := by
  have hplain : ∀ p ∈ ["/p/A.js", "/p/a.D.TS", "/p/b.tsx", "/p/a.ts", "/p/c.js", "/p/readme.md", "/p/C.JS"].map Text.of,
      Plain foldingHost.caseSensitive javaScriptAllowed.extensionGroups p := by decide +kernel
  obtain ⟨hroots, -⟩ := rootFiles_preferred foldingHost javaScriptAllowed (Text.of "/p") [Text.of "B.ts"] hplain
  exact ⟨hplain, hroots.trans (by decide +kernel)⟩

/-- Where case counts, a declaration whose extension is spelled in capitals does not give way to the source
file of its name if it is found before it, though it is passed over if it is found behind it. -/
theorem chooseFiles_capitals :
    (∀ p ∈ ["/proj/a.D.ts", "/proj/a.ts"].map Text.of, ∀ r ∈ extensionOf? typeScriptGroups p,
        ¬ Text.of ".d" <:+ stemOf p r.2) ∧
      chooseFiles (Glob.canonical true) typeScriptGroups [] (["/proj/a.D.ts", "/proj/a.ts"].map Text.of) =
        ["/proj/a.D.ts", "/proj/a.ts"].map Text.of ∧
      chooseFiles (Glob.canonical true) typeScriptGroups [] (["/proj/a.ts", "/proj/a.D.ts"].map Text.of) =
        ["/proj/a.ts"].map Text.of ∧
      unrivalledFiles (Glob.canonical true) typeScriptGroups [] (["/proj/a.D.ts", "/proj/a.ts"].map Text.of) =
        ["/proj/a.ts"].map Text.of := by
  decide +kernel

end TsProject.Config
