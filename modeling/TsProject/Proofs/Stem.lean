/-
  TsProject.Proofs.Stem — what the entries of a directory start with.

  An entry is named by appending to the path of its directory, which gets a slash at its
  end if it has none: that is the stem of the directory. Directories that are spelled in
  different ways may have one stem, and what lies below them then has the same names. It
  is the same file as well where both spellings are read in one way: each rooted, or each
  relative to a directory.

  - `entry_eq_stem` / `stem_descend`: an entry, and all that lies further below.
  - `stems_meet`: where two descents come to one stem, one of them starts below the other.
  - `prefix_of_stem`: the spelling of the one then starts with the stem of the other.
  - `resolve_of_stem` / `normalize_of_stem`: it is the same path, read from either.
-/

import TsProject.Proofs.Normal
import Mathlib.Data.List.TakeWhile

namespace TsProject.Path

open CodePoint Text

/-! ## Stems -/

/-- What the entries of a directory start with. -/
def stem (d : Text) : Text := if d.isEmpty || Text.endsWith d [slash] then d else d ++ [slash]

/-- The names, each with a slash behind it. -/
def trail (ns : List Text) : Text := ns.flatMap fun n => n ++ [slash]

/-- What is reached from a directory by entering one name after another. -/
def descend (d : Text) (ns : List Text) : Text := ns.foldl entry d

@[simp] theorem trail_nil : trail [] = [] := rfl
@[simp] theorem trail_cons (n : Text) (ns : List Text) : trail (n :: ns) = n ++ slash :: trail ns := by simp [trail]
@[simp] theorem trail_append (ms ns : List Text) : trail (ms ++ ns) = trail ms ++ trail ns := by simp [trail]

theorem descend_append (d : Text) (ms ns : List Text) : descend d (ms ++ ns) = descend (descend d ms) ns := List.foldl_append

theorem stem_nil : stem [] = [] := rfl

/-- The stem of a directory ends with a slash, the directory itself need not. -/
theorem exists_stem {d : Text} (hd : d ≠ []) : ∃ s, stem d = s ++ [slash] ∧ (d = s ∨ d = s ++ [slash]) := by
  have hempty : d.isEmpty = false := List.isEmpty_eq_false_iff.mpr hd
  unfold stem
  rw [hempty, Bool.false_or]
  by_cases hends : Text.endsWith d [slash] = true
  · obtain ⟨s, hs⟩ := endsWith_slash_iff.mp hends
    rw [if_pos hends]
    exact ⟨s, hs, Or.inr hs⟩
  · rw [if_neg hends]
    exact ⟨d, rfl, Or.inl rfl⟩

theorem prefix_stem (d : Text) : d <+: stem d := by
  unfold stem
  split
  · exact List.prefix_refl d
  · exact List.prefix_append d [slash]

theorem stem_eq_nil_iff {d : Text} : stem d = [] ↔ d = [] := by
  constructor
  · intro h
    by_contra hd
    obtain ⟨s, hs, -⟩ := exists_stem hd
    rw [hs] at h
    exact List.append_ne_nil_of_right_ne_nil s (List.cons_ne_nil slash []) h
  · rintro rfl
    exact stem_nil

theorem entry_eq_stem (d n : Text) : entry d n = stem d ++ n := by
  unfold entry stem
  cases hempty : d.isEmpty with
  | true =>
    rw [List.isEmpty_iff.mp hempty]
    rfl
  | false =>
    rw [Bool.false_or, if_neg Bool.false_ne_true]
    by_cases hends : Text.endsWith d [slash] = true
    · rw [if_pos hends, if_pos hends]
    · rw [if_neg hends, if_neg hends, List.append_assoc, List.singleton_append]

theorem prefix_entry (d n : Text) : d <+: entry d n := by
  rw [entry_eq_stem]
  exact (prefix_stem d).trans (List.prefix_append _ _)

theorem prefix_descend (d : Text) (ns : List Text) : d <+: descend d ns := by
  induction ns generalizing d with
  | nil => exact List.prefix_refl d
  | cons n ns ih => exact (prefix_entry d n).trans (ih (entry d n))

/-- A path that ends with a name has no slash at its end. -/
theorem stem_append_name (s : Text) {n : Text} (hn : IsName n) : stem (s ++ n) = s ++ n ++ [slash] := by
  have hne : s ++ n ≠ [] := List.append_ne_nil_of_right_ne_nil s hn.1
  obtain ⟨u, hu, hcases⟩ := exists_stem hne
  rcases hcases with hs | hs
  · rw [hu, hs]
  · exfalso
    apply hn.2
    have hlast : (s ++ n).getLast? = some slash := by rw [hs, List.getLast?_concat]
    rw [List.getLast?_append_of_ne_nil s hn.1] at hlast
    exact List.mem_of_getLast? hlast

theorem stem_entry (d : Text) {n : Text} (hn : IsName n) : stem (entry d n) = stem d ++ (n ++ [slash]) := by
  rw [entry_eq_stem, stem_append_name _ hn, List.append_assoc]

theorem stem_descend (d : Text) {ns : List Text} (h : ∀ n ∈ ns, IsName n) : stem (descend d ns) = stem d ++ trail ns := by
  induction ns generalizing d with
  | nil => exact (List.append_nil _).symm
  | cons n ns ih =>
    obtain ⟨hn, hns⟩ := List.forall_mem_cons.mp h
    change stem (descend (entry d n) ns) = _
    rw [ih _ hns, stem_entry d hn, trail_cons, List.append_assoc, List.append_assoc, List.singleton_append]

/-- An entry is cut into the stem of its directory and its name at the last slash. -/
theorem throughLast_entry (d : Text) {n : Text} (hn : slash ∉ n) : Text.throughLast slash (entry d n) = stem d := by
  rw [entry_eq_stem]
  by_cases hd : d = []
  · have hall : ∀ c ∈ n.reverse, (c != slash) = true := by
      intro c hc
      apply bne_iff_ne.mpr
      rintro rfl
      exact hn (List.mem_reverse.mp hc)
    rw [hd, stem_nil, List.nil_append, throughLast, List.dropWhile_eq_nil_iff.mpr hall]
    rfl
  · obtain ⟨s, hs, -⟩ := exists_stem hd
    rw [hs, List.append_assoc, List.singleton_append, throughLast_append _ _ hn]

/-- Entries of one path are the same entry of directories of one stem. -/
theorem entry_inj {d d' n n' : Text} (hn : slash ∉ n) (hn' : slash ∉ n') (h : entry d n = entry d' n') :
    stem d = stem d' ∧ n = n' := by
  have hstem : stem d = stem d' := by rw [← throughLast_entry d hn, h, throughLast_entry d' hn']
  rw [entry_eq_stem, entry_eq_stem, hstem] at h
  exact ⟨hstem, List.append_cancel_left h⟩

/-! ## Descents that meet -/

/-- A trail that is cut behind a slash is cut between two names. -/
theorem trail_eq_append {ns : List Text} (h : ∀ n ∈ ns, slash ∉ n) {s t : Text} (hs : s = [] ∨ ∃ u, s = u ++ [slash])
    (hcut : trail ns = s ++ t) : ∃ ms ms', ns = ms ++ ms' ∧ s = trail ms ∧ t = trail ms' := by
  induction ns generalizing s with
  | nil =>
    obtain ⟨rfl, rfl⟩ := List.append_eq_nil_iff.mp hcut.symm
    exact ⟨[], [], rfl, rfl, rfl⟩
  | cons n ns ih =>
    obtain ⟨hn, hns⟩ := List.forall_mem_cons.mp h
    rcases hs with rfl | ⟨u, rfl⟩
    · exact ⟨[], n :: ns, rfl, rfl, hcut.symm⟩
    · rw [trail_cons, List.append_assoc, List.singleton_append] at hcut
      have hsame : u = n → t = trail ns → ∃ ms ms', n :: ns = ms ++ ms' ∧ u ++ [slash] = trail ms ∧ t = trail ms' := by
        rintro rfl rfl
        exact ⟨[u], ns, rfl, by simp, rfl⟩
      rcases List.append_eq_append_iff.mp hcut with ⟨as, hu, hrest⟩ | ⟨bs, hn', hrest⟩
      · cases as with
        | nil =>
          rw [List.append_nil] at hu
          exact hsame hu (List.cons.inj hrest).2.symm
        | cons a as =>
          -- the cut lies behind the first name
          obtain ⟨rfl, hbehind⟩ := List.cons.inj hrest
          have hcut' : trail ns = (as ++ [slash]) ++ t := by
            rw [List.append_assoc, List.singleton_append]
            exact hbehind
          obtain ⟨ms, ms', rfl, has, rfl⟩ := ih hns (Or.inr ⟨as, rfl⟩) hcut'
          refine ⟨n :: ms, ms', rfl, ?_, rfl⟩
          rw [hu, trail_cons, ← has, List.append_assoc, List.cons_append]
      · cases bs with
        | nil =>
          rw [List.append_nil] at hn'
          exact hsame hn'.symm (List.cons.inj hrest).2
        | cons b bs =>
          obtain ⟨rfl, -⟩ := List.cons.inj hrest
          exact absurd (hn' ▸ List.mem_append_right u List.mem_cons_self) hn

theorem names_trail {ns : List Text} (h : ∀ n ∈ ns, IsName n) : names (trail ns) = ns := by
  induction ns with
  | nil => rfl
  | cons n ns ih =>
    obtain ⟨hn, hns⟩ := List.forall_mem_cons.mp h
    rw [trail_cons, names_append_slash, names_of_isName hn, ih hns]
    rfl

theorem trail_injective {ms ns : List Text} (hm : ∀ m ∈ ms, IsName m) (hn : ∀ n ∈ ns, IsName n)
    (h : trail ms = trail ns) : ms = ns := by
  rw [← names_trail hm, h, names_trail hn]

/-- Where two descents come to one stem, one of them starts where the other has come to on its way. -/
theorem stems_meet {d d' : Text} {ns ns' : List Text} (hn : ∀ n ∈ ns, IsName n) (hn' : ∀ n ∈ ns', IsName n)
    (h : stem d ++ trail ns = stem d' ++ trail ns') :
    (∃ ms, stem d' = stem d ++ trail ms ∧ ns = ms ++ ns') ∨ ∃ ms, stem d = stem d' ++ trail ms ∧ ns' = ms ++ ns := by
  have hbelow : ∀ {d d' : Text} {ns ns' : List Text}, (∀ n ∈ ns, IsName n) → (∀ n ∈ ns', IsName n) → ∀ {s : Text},
      stem d' = stem d ++ s → trail ns = s ++ trail ns' → ∃ ms, stem d' = stem d ++ trail ms ∧ ns = ms ++ ns' := by
    intro d d' ns ns' hn hn' s hstem hcut
    have hends : s = [] ∨ ∃ u, s = u ++ [slash] := by
      by_cases hs : s = []
      · exact Or.inl hs
      · right
        have hd' : d' ≠ [] := by
          rintro rfl
          exact hs (List.append_eq_nil_iff.mp hstem.symm).2
        obtain ⟨v, hv, -⟩ := exists_stem hd'
        refine ⟨s.dropLast, ?_⟩
        have hlast : s.getLast? = some slash := by
          rw [← List.getLast?_append_of_ne_nil (stem d) hs, ← hstem, hv, List.getLast?_concat]
        exact (List.dropLast_append_getLast? slash hlast).symm
    obtain ⟨ms, ms', rfl, rfl, htrail⟩ := trail_eq_append (fun n hm => (hn n hm).2) hends hcut
    rw [trail_injective hn' (fun n hm => hn n (List.mem_append_right _ hm)) htrail]
    exact ⟨ms, hstem, rfl⟩
  rcases List.append_eq_append_iff.mp h with ⟨s, hstem, hcut⟩ | ⟨s, hstem, hcut⟩
  · exact Or.inl (hbelow hn hn' hstem hcut)
  · exact Or.inr (hbelow hn' hn hstem hcut)

/-- The spelling of a directory below another starts with the stem of that one; or they differ in a slash at the end. -/
theorem prefix_of_stem {d d' : Text} {ms : List Text} (h : stem d' = stem d ++ trail ms) (hne : d ≠ d') :
    stem d <+: d' ∨ (ms = [] ∧ stem d' <+: d) := by
  by_cases hd' : d' = []
  · rw [hd', stem_nil] at h
    exact absurd ((stem_eq_nil_iff.mp (List.append_eq_nil_iff.mp h.symm).1).trans hd'.symm) hne
  · obtain ⟨s', hs', hcases'⟩ := exists_stem hd'
    rcases hcases' with rfl | heq
    · rcases List.eq_nil_or_concat ms with rfl | ⟨init, m, rfl⟩
      · -- both have one stem, so the other ends with the slash
        right
        rw [trail_nil, List.append_nil] at h
        have hd : d ≠ [] := by
          rintro rfl
          exact hd' (stem_eq_nil_iff.mp h)
        obtain ⟨s, hs, hcases⟩ := exists_stem hd
        have hsame : d' = s := by
          rw [hs, hs'] at h
          exact List.append_cancel_right h
        rcases hcases with heq | heq
        · exact absurd (heq.trans hsame.symm) hne
        · exact ⟨rfl, by rw [h, hs, ← heq]⟩
      · left
        rw [hs', List.concat_eq_append, trail_append, trail_cons, trail_nil] at h
        have hend : stem d ++ (trail init ++ m) ++ [slash] = d' ++ [slash] := by
          rw [h]
          simp
        exact ⟨trail init ++ m, List.append_cancel_right hend⟩
    · left
      rw [heq, ← hs', h]
      exact List.prefix_append _ _

/-! ## One path, read from two directories -/

theorem segments_stem (p : Text) : segments (forwardSlashes (stem p)) = segments (forwardSlashes p) := by
  by_cases hp : p = []
  · rw [hp, stem_nil]
  · obtain ⟨s, hs, hcases⟩ := exists_stem hp
    rcases hcases with heq | heq
    · have hslash : forwardSlashes [slash] = [slash] := rfl
      have hnone : segments [] = [] := rfl
      rw [hs, ← heq, forwardSlashes_append, hslash, segments_append_slash, hnone, List.append_nil]
    · rw [hs, ← heq]

theorem segments_of_isPlain {n : Text} (hn : IsPlain n) : segments n = [n] := by
  rw [segments, splitOn_of_not_mem hn.name.2]
  simp [hn.name.1, hn.noDot]

theorem segments_trail {ms : List Text} (hms : ∀ m ∈ ms, IsPlain m) : segments (forwardSlashes (trail ms)) = ms := by
  induction ms with
  | nil => rfl
  | cons m ms ih =>
    obtain ⟨hm, hrest⟩ := List.forall_mem_cons.mp hms
    rw [trail_cons, forwardSlashes_append, forwardSlashes_of_not_mem hm.noBackslash, forwardSlashes_slash,
      segments_append_slash, segments_of_isPlain hm, ih hrest]
    rfl

/-- The segments of what lies below a directory. -/
theorem segments_of_stem {p q : Text} {ms : List Text} (h : stem q = stem p ++ trail ms) (hms : ∀ m ∈ ms, IsPlain m) :
    segments (forwardSlashes q) = segments (forwardSlashes p) ++ ms := by
  rw [← segments_stem q, h, forwardSlashes_append]
  by_cases hp : p = []
  · rw [hp, stem_nil]
    exact segments_trail hms
  · obtain ⟨s, hs, -⟩ := exists_stem hp
    have hstem := segments_stem p
    have hslash : forwardSlashes [slash] = [slash] := rfl
    have hnone : segments [] = [] := rfl
    rw [hs, forwardSlashes_append, hslash, segments_append_slash, hnone, List.append_nil] at hstem
    rw [hs, forwardSlashes_append, hslash, List.append_assoc, List.singleton_append, segments_append_slash, hstem,
      segments_trail hms]

theorem fold_append (b : Bool) (l : List Text) {ms : List Text} (hms : dotDotSegment ∉ ms) :
    fold b (l ++ ms) = fold b l ++ ms := by
  rw [fold, List.foldl_append, foldl_push_of_not_mem b ms _ hms, List.reverse_append, List.reverse_reverse]
  rfl

theorem not_mem_of_isPlain {ms : List Text} (hms : ∀ m ∈ ms, IsPlain m) : dotDotSegment ∉ ms :=
  fun h => (hms _ h).noDotDot rfl

/-- The names of an entry, in whatever way its directory is spelled. -/
theorem rootedNames_entry (d : Text) {n : Text} (hn : IsPlain n) : rootedNames (entry d n) = rootedNames d ++ [n] := by
  have hplain : ∀ m ∈ [n], IsPlain m := List.forall_mem_singleton.mpr hn
  have hstem : stem (entry d n) = stem d ++ trail [n] := by
    rw [stem_entry d hn.name, trail_cons, trail_nil]
  rw [rootedNames, segments_of_stem hstem hplain, fold_append true _ (not_mem_of_isPlain hplain)]
  rfl

theorem descend_absolute {ns ms : List Text} (hns : ∀ n ∈ ns, IsName n) (hms : ∀ m ∈ ms, IsName m) :
    descend (absolute ns) ms = absolute (ns ++ ms) := by
  induction ms generalizing ns with
  | nil => rw [List.append_nil]; rfl
  | cons m ms ih =>
    obtain ⟨hm, hrest⟩ := List.forall_mem_cons.mp hms
    change descend (entry (absolute ns) m) ms = _
    rw [entry_absolute hns, ih (List.forall_mem_append.mpr ⟨hns, List.forall_mem_singleton.mpr hm⟩) hrest,
      List.append_assoc, List.singleton_append]

theorem descend_join {ns ms : List Text} (hne : ns ≠ []) (hns : ∀ n ∈ ns, IsName n) (hms : ∀ m ∈ ms, IsName m) :
    descend (Text.join [slash] ns) ms = Text.join [slash] (ns ++ ms) := by
  induction ms generalizing ns with
  | nil => rw [List.append_nil]; rfl
  | cons m ms ih =>
    obtain ⟨hm, hrest⟩ := List.forall_mem_cons.mp hms
    have hstem : stem (Text.join [slash] ns) = Text.join [slash] ns ++ [slash] := by
      obtain ⟨init, n, rfl⟩ : ∃ init n, ns = init ++ [n] := ⟨ns.dropLast, ns.getLast hne, (List.dropLast_append_getLast hne).symm⟩
      have hn : IsName n := hns n (List.mem_append_right _ (List.mem_singleton_self n))
      by_cases hinit : init = []
      · rw [hinit]
        exact stem_append_name [] hn
      · rw [join_concat _ _ hinit]
        exact stem_append_name _ hn
    change descend (entry (Text.join [slash] ns) m) ms = _
    rw [entry_eq_stem, hstem, ← join_concat _ _ hne,
      ih (List.append_ne_nil_of_left_ne_nil hne [m]) (List.forall_mem_append.mpr ⟨hns, List.forall_mem_singleton.mpr hm⟩) hrest,
      List.append_assoc, List.singleton_append]

variable {p q d : Text} {ms : List Text}

/-- Two paths that start at the root. -/
theorem normalize_of_segments (hp : startsAtRoot (forwardSlashes p) = true) (hq : startsAtRoot (forwardSlashes q) = true)
    (h : segments (forwardSlashes q) = segments (forwardSlashes p) ++ ms) (hms : ∀ m ∈ ms, IsPlain m) :
    normalize q = descend (normalize p) ms := by
  have hnames : rootedNames q = rootedNames p ++ ms := by
    rw [rootedNames, h, fold_append true _ (not_mem_of_isPlain hms)]
    rfl
  rw [normalize_rooted hp, normalize_rooted hq, hnames]
  exact (descend_absolute (fun n hn => (isPlain_of_mem_rootedNames hn).name) fun m hm => (hms m hm).name).symm

/-- Two paths that do not start at the root, below some name. -/
theorem normalize_of_segments_unrooted (hp : startsAtRoot (forwardSlashes p) = false)
    (hq : startsAtRoot (forwardSlashes q) = false) (hnone : fold false (segments (forwardSlashes p)) ≠ [])
    (h : segments (forwardSlashes q) = segments (forwardSlashes p) ++ ms) (hms : ∀ m ∈ ms, IsPlain m) :
    normalize q = descend (normalize p) ms := by
  have hfold : fold false (segments (forwardSlashes q)) = fold false (segments (forwardSlashes p)) ++ ms := by
    rw [h, fold_append false _ (not_mem_of_isPlain hms)]
  have hne : ∀ x : Text, fold false (segments (forwardSlashes x)) ≠ [] → x ≠ [] := by
    rintro x hx rfl
    exact hx rfl
  have hnone' : fold false (segments (forwardSlashes q)) ≠ [] := by
    rw [hfold]
    exact List.append_ne_nil_of_left_ne_nil hnone ms
  rw [normalize_unrooted (hne q hnone') hq, if_neg hnone', normalize_unrooted (hne p hnone) hp, if_neg hnone, hfold]
  exact (descend_join hnone (fun n hn => (mem_fold_segments (b := false) (p := p) hn).1) fun m hm => (hms m hm).name).symm

/-- Two relative paths, or two that start at the root, read in a directory that starts at the root. -/
theorem resolve_of_stem (hd : startsAtRoot d = true) (hp : isRooted p = true → startsAtRoot p = true)
    (hq : isRooted q = true → startsAtRoot q = true) (hsame : startsAtRoot p = startsAtRoot q)
    (h : stem q = stem p ++ trail ms) (hms : ∀ m ∈ ms, IsPlain m) : resolve q d = descend (resolve p d) ms := by
  have hsegments := segments_of_stem h hms
  cases hroot : startsAtRoot p with
  | true =>
    have hp' := startsAtRoot_forwardSlashes hroot
    have hq' := startsAtRoot_forwardSlashes (hsame ▸ hroot)
    rw [resolve_of_startsAtRoot hp', resolve_of_startsAtRoot hq']
    exact normalize_of_segments hp' hq' hsegments hms
  | false =>
    have hrelative : ∀ x : Text, (isRooted x = true → startsAtRoot x = true) → startsAtRoot x = false → isRooted x = false := by
      intro x hx hstart
      cases hrooted : isRooted x with
      | false => rfl
      | true => exact absurd (hstart.symm.trans (hx hrooted)) Bool.false_ne_true
    have hd' := startsAtRoot_forwardSlashes hd
    have hnames : ∀ n ∈ fold true (segments (forwardSlashes d) ++ segments (forwardSlashes p)), IsName n := by
      intro n hn
      rcases List.mem_append.mp (mem_fold hn).1 with hn | hn
      · exact (mem_segments hn).1
      · exact (mem_segments hn).1
    rw [resolve_relative hd' (hrelative q hq (hsame ▸ hroot)), resolve_relative hd' (hrelative p hp hroot), hsegments,
      ← List.append_assoc, fold_append true _ (not_mem_of_isPlain hms)]
    exact (descend_absolute hnames fun m hm => (hms m hm).name).symm

/-- Names with slashes behind them are a relative path. -/
theorem startsAtRoot_trail {ms : List Text} (hms : ∀ m ∈ ms, IsName m) : startsAtRoot (trail ms) = false := by
  cases ms with
  | nil => rfl
  | cons m ms =>
    obtain ⟨hm, -⟩ := List.forall_mem_cons.mp hms
    rw [trail_cons, startsAtRoot_of_start hm.1 (List.prefix_append m _), startsAtRoot_of_isName hm]

/-- What lies below a directory starts at the root if the directory does. -/
theorem startsAtRoot_descend (d : Text) {ms : List Text} (hms : ∀ m ∈ ms, IsPlain m) :
    startsAtRoot (forwardSlashes (descend d ms)) = startsAtRoot (forwardSlashes d) := by
  have hstart : ∀ {p q : Text}, p ≠ [] → p <+: q → startsAtRoot (forwardSlashes q) = startsAtRoot (forwardSlashes p) :=
    fun hp h => startsAtRoot_of_start (List.map_eq_nil_iff.not.mpr hp) (h.map _)
  by_cases hd : d = []
  · subst hd
    cases ms with
    | nil => rfl
    | cons m ms =>
      have hm := hms m List.mem_cons_self
      change startsAtRoot (forwardSlashes (descend m ms)) = false
      rw [hstart hm.name.1 (prefix_descend m ms), forwardSlashes_of_not_mem hm.noBackslash, startsAtRoot_of_isName hm.name]
  · exact hstart hd (prefix_descend d ms)

/-- The names of an entry, whether or not its name is a proper one. -/
theorem names_entry (d n : Text) : names (entry d n) = names d ++ names n := by
  rw [entry_eq_stem]
  by_cases hd : d = []
  · rw [hd, stem_nil]
    rfl
  · obtain ⟨s, hs, hcases⟩ := exists_stem hd
    have hnames : names (s ++ [slash]) = names s := by
      rw [names_append_slash]
      exact List.append_nil _
    rw [hs, List.append_assoc, List.singleton_append, names_append_slash]
    rcases hcases with rfl | rfl
    · rfl
    · rw [hnames]

theorem names_descend (d : Text) (ns : List Text) : names (descend d ns) = names d ++ ns.flatMap names := by
  induction ns generalizing d with
  | nil => exact (List.append_nil _).symm
  | cons n ns ih =>
    change names (descend (entry d n) ns) = _
    rw [ih, names_entry, List.flatMap_cons, List.append_assoc]

/-- The names of what lies below a directory. -/
theorem names_of_stem (h : stem q = stem p ++ trail ms) (hms : ∀ m ∈ ms, IsName m) : names q = names p ++ ms := by
  have hq : names (stem q) = names q := by
    rw [← List.append_nil (stem q), ← entry_eq_stem, names_entry]
    exact List.append_nil _
  rw [← hq, h, ← entry_eq_stem, names_entry, names_trail hms]

theorem names_ne_nil {c : CodePoint} (hc : c ≠ slash) (s : Text) : names (c :: s) ≠ [] := by
  intro h
  rw [names, splitOn, if_neg hc] at h
  cases hs : splitOn slash s with
  | nil =>
    rw [hs] at h
    cases h
  | cons piece pieces =>
    rw [hs] at h
    cases h

/-- From a directory that starts at the root, what a path in normal form has below it is plain names. -/
theorem normalize_of_stem_root (hroot : startsAtRoot (forwardSlashes p) = true)
    (hroot' : startsAtRoot (forwardSlashes q) = true) (hnormal : normalize q = q) (h : stem q = stem p ++ trail ms)
    (hms : ∀ m ∈ ms, IsName m) : normalize q = descend (normalize p) ms := by
  have hplain : ∀ n ∈ rootedNames q, IsPlain n := fun _ => isPlain_of_mem_rootedNames
  have hall : ∀ m ∈ ms, IsPlain m := by
    intro m hm
    apply hplain
    rw [← names_absolute fun n hn => (hplain n hn).name, ← normalize_rooted hroot', hnormal, names_of_stem h hms]
    exact List.mem_append_right _ hm
  exact normalize_of_segments hroot hroot' (segments_of_stem h hall) hall

/-- From a directory on a drive likewise: that has the drive, which is the one name that is not plain. -/
theorem normalize_of_stem_drive (hp : names p ≠ []) (hroot : startsAtRoot (forwardSlashes p) = false)
    (hq : isRooted q = true) (hroot' : startsAtRoot (forwardSlashes q) = false) (hnormal : normalize q = q)
    (h : stem q = stem p ++ trail ms) (hms : ∀ m ∈ ms, IsName m) : normalize q = descend (normalize p) ms := by
  obtain ⟨drive, ns, hplain, hdots, hdrive, hslashes, hsegments⟩ := exists_drive_names hq hnormal hroot'
  obtain ⟨first, rest, hfirst⟩ := List.exists_cons_of_ne_nil hp
  have hnames := names_of_stem h hms
  rw [hdrive, hfirst, List.cons_append] at hnames
  have hns : ns = rest ++ ms := (List.cons.inj hnames).2
  have hall : ∀ m ∈ ms, IsPlain m := fun m hm => hplain m (hns ▸ List.mem_append_right _ hm)
  have hsegments' := segments_of_stem h hall
  have hfold : fold false (segments (forwardSlashes p)) = segments (forwardSlashes p) := by
    apply fold_of_not_mem
    intro hmem
    apply hdots
    rw [← hsegments, ← hslashes, hsegments']
    exact List.mem_append_left _ hmem
  refine normalize_of_segments_unrooted hroot hroot' ?_ hsegments' hall
  rw [hfold]
  intro hnone
  rw [hslashes, hsegments, hnone, List.nil_append] at hsegments'
  have hlength := congrArg List.length hsegments'
  rw [hns, List.length_cons, List.length_append] at hlength
  omega

/-- A path in normal form is what it is called from any rooted directory above it. -/
theorem normalize_of_stem (hp : isRooted p = true) (hq : isRooted q = true) (hnormal : normalize q = q)
    (hpre : p <+: q) (h : stem q = stem p ++ trail ms) (hms : ∀ m ∈ ms, IsName m) :
    normalize q = descend (normalize p) ms := by
  obtain ⟨c, v, rfl⟩ : ∃ c v, p = c :: v := by
    apply List.exists_cons_of_ne_nil
    intro hnil
    rw [hnil] at hp
    cases hp
  have hsame : startsAtRoot (forwardSlashes q) = startsAtRoot (forwardSlashes (c :: v)) :=
    startsAtRoot_of_start (List.cons_ne_nil _ _) (List.IsPrefix.map _ hpre)
  cases hroot : startsAtRoot (forwardSlashes (c :: v)) with
  | true => exact normalize_of_stem_root hroot (hsame.trans hroot) hnormal h hms
  | false =>
    have hc : c ≠ slash := by
      rintro rfl
      cases hroot
    exact normalize_of_stem_drive (names_ne_nil hc v) hroot hq (hsame.trans hroot) hnormal h hms

end TsProject.Path
