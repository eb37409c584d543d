/-
  TsProject.Proofs.Config.Arrival — the order in which files are found.

  A file looks for better and worse ones under its own stem. `a.d.js` has the stem `a.d`
  and finds `a.d.ts` there, which for its part has the stem `a` and looks for `a.ts`. So
  `a.d.js` is passed over behind `a.d.ts` but does not give way to it, and which files are
  root files depends on the one found first. That is the only way in which it does.

  - `Named.agree`: two files that find each other agree on their stem.
  - `unambiguous_of_pairs`: where the order of no two files matters, all agree.
  - `rootFiles_unordered`: then the order of all files does not matter.
-/

import TsProject.Proofs.Config.Preference
import TsProject.Proofs.Glob.Folder

namespace TsProject.Config

variable {cs : Bool} {groups : List ExtensionGroup} {found : List Text} {p q : Text} {g g' : ExtensionGroup}
  {e e' stem stem' : Text}

/-! ## Files that find each other -/

/-- A name that ends in more than its extension does not end in an extension there. -/
theorem Named.append_eq_nil (hgroups : Apart groups) (hq : Named cs groups q g' e' stem') {x t d : Text} (hg : g ∈ groups)
    (hx : x ∈ g) (hkey : Glob.canonical cs q = stem ++ x) (ht : t.length = e'.length) (hsplit : x = d ++ t) : d = [] := by
  obtain ⟨-, -, -, hlongest⟩ := extensionOf?_eq_some hgroups hq.extension
  have hlength := hlongest g hg x hx (suffix_lower_of_key (hgroups.known g hg x hx) hkey)
  rw [hsplit, List.length_append] at hlength
  exact List.eq_nil_of_length_eq_zero (by omega)

/-- Two names that have each other's keys with other extensions have one stem, and each other's extensions. -/
theorem Named.agree (hgroups : Apart groups) (hp : Named cs groups p g e stem) (hq : Named cs groups q g' e' stem')
    {x y : Text} (hx : x ∈ g) (hy : y ∈ g') (hqx : Glob.canonical cs q = stem ++ x)
    (hpy : Glob.canonical cs p = stem' ++ y) : stem' = stem ∧ g' = g ∧ e' = x ∧ y = e := by
  obtain ⟨hg, -⟩ := extensionOf?_eq_some hgroups hp.extension
  obtain ⟨hg', he', -⟩ := extensionOf?_eq_some hgroups hq.extension
  obtain ⟨t, ht, hpt⟩ := hp.key
  obtain ⟨t', ht', hqt⟩ := hq.key
  -- the longer stem would leave the other name an extension longer than its longest
  have hstem : stem' = stem := by
    rcases List.append_eq_append_iff.mp (hqx.symm.trans hqt) with ⟨d, hd, hsplit⟩ | ⟨d, hd, hsplit⟩
    · rw [hd, hq.append_eq_nil hgroups hg hx hqx (by rw [← ht', List.length_map]) hsplit, List.append_nil]
    · have hsplit' : y = d ++ t := by
        have h := hpy.symm.trans hpt
        rw [hd, List.append_assoc] at h
        exact List.append_cancel_left h
      rw [hd, hp.append_eq_nil hgroups hg' hy hpy (by rw [← ht, List.length_map]) hsplit', List.append_nil]
  subst hstem
  obtain rfl := List.append_cancel_left (hqx.symm.trans hqt)
  obtain rfl := List.append_cancel_left (hpy.symm.trans hpt)
  rw [map_lowerPoint_extension x (hgroups.known g hg x hx)] at ht'
  rw [map_lowerPoint_extension y (hgroups.known g' hg' y hy)] at ht
  subst ht'
  exact ⟨rfl, hgroups.apart g' hg' g hg x he' x hx (List.suffix_refl x), rfl, ht⟩

/-! ## Two files -/

/-- The first of two files is taken. -/
theorem Named.takeFound_nil (hgroups : Apart groups) (hp : Named cs groups p g e stem) :
    takeFound (Glob.canonical cs) groups [] [] p = [(Glob.canonical cs p, p)] := by
  rw [hp.takeFound_eq hgroups]
  simp [Taken.has, Taken.without]

theorem without_singleton {k : Text} {ws : List Text} :
    Taken.without [(k, p)] (ws.map fun w => stem ++ w) = if ∃ w ∈ ws, k = stem ++ w then [] else [(k, p)] := by
  split
  · rename_i h
    obtain ⟨w, hw, rfl⟩ := h
    simp [Taken.without, hw]
  · rename_i h
    refine List.filter_eq_self.mpr fun t ht => ?_
    obtain rfl := List.mem_singleton.mp ht
    simp only [Bool.not_eq_true', List.contains_eq_mem, decide_eq_false_iff_not, List.mem_map]
    rintro ⟨w, hw, hkey⟩
    exact h ⟨w, hw, hkey.symm⟩

/-- The second is passed over if the first one is better, which gives way if it is worse. -/
theorem Named.takeFound_behind (hgroups : Apart groups) (hq : Named cs groups q g e stem) (p : Text) :
    takeFound (Glob.canonical cs) groups [] [(Glob.canonical cs p, p)] q =
      if ∃ b ∈ above g e, Glob.canonical cs p = stem ++ b then [(Glob.canonical cs p, p)]
      else if ∃ w ∈ beneath g e, Glob.canonical cs p = stem ++ w then [(Glob.canonical cs q, q)]
      else if Glob.canonical cs p = Glob.canonical cs q then [(Glob.canonical cs p, p)]
      else [(Glob.canonical cs p, p), (Glob.canonical cs q, q)] := by
  have hbetter : ((above g e).any fun b => Taken.has [] (stem ++ b) || Taken.has [(Glob.canonical cs p, p)] (stem ++ b)) = true ↔
      ∃ b ∈ above g e, Glob.canonical cs p = stem ++ b := by
    simp [Taken.has]
  rw [hq.takeFound_eq hgroups, without_singleton]
  simp only [hbetter]
  by_cases habove : ∃ b ∈ above g e, Glob.canonical cs p = stem ++ b
  · rw [if_pos habove, if_pos habove]
  · rw [if_neg habove, if_neg habove]
    by_cases hbeneath : ∃ w ∈ beneath g e, Glob.canonical cs p = stem ++ w
    · rw [if_pos hbeneath, if_pos hbeneath]
      rfl
    · rw [if_neg hbeneath, if_neg hbeneath]
      simp [Taken.has]

/-- What is taken of two files, the first one being better, or worse, or neither. -/
theorem Named.mem_pair (hgroups : Apart groups) (hp : Named cs groups p g' e' stem') (hq : Named cs groups q g e stem) {k : Text} :
    k ∈ (chooseFiles (Glob.canonical cs) groups [] [p, q]).map (Glob.canonical cs) ↔
      if ∃ b ∈ above g e, Glob.canonical cs p = stem ++ b then k = Glob.canonical cs p
      else if ∃ w ∈ beneath g e, Glob.canonical cs p = stem ++ w then k = Glob.canonical cs q
      else k = Glob.canonical cs p ∨ k = Glob.canonical cs q := by
  have hrun : chooseFiles (Glob.canonical cs) groups [] [p, q] =
      (takeFound (Glob.canonical cs) groups [] [(Glob.canonical cs p, p)] q).map (·.2) := by
    simp [chooseFiles, hp.takeFound_nil hgroups]
  rw [hrun, hq.takeFound_behind hgroups p]
  split
  · simp
  · split
    · simp
    · split
      · rename_i hkey
        simp [hkey]
      · simp

/-- Where the order of no two files matters, the files agree on each other's stems. -/
theorem unambiguous_of_pairs (hgroups : Apart groups)
    (hpairs : ∀ p ∈ found, ∀ q ∈ found, ∀ k,
      k ∈ (chooseFiles (Glob.canonical cs) groups [] [p, q]).map (Glob.canonical cs) ↔
        k ∈ (chooseFiles (Glob.canonical cs) groups [] [q, p]).map (Glob.canonical cs)) :
    Unambiguous cs groups found := by
  rintro p hpf q hqf ⟨g, e⟩ hextension x hx hne hkey
  obtain ⟨hg, he, -⟩ := extensionOf?_eq_some hgroups hextension
  have hknown := hgroups.known g hg
  obtain ⟨stem, hp⟩ := exists_named _ hgroups hextension
  rw [hp.sibling x (hknown x hx)] at hkey
  obtain ⟨g', e', hextension'⟩ := exists_of_key hgroups hg hx hkey
  obtain ⟨hg', he', -⟩ := extensionOf?_eq_some hgroups hextension'
  obtain ⟨stem', hq⟩ := exists_named _ hgroups hextension'
  -- `q` bears on `p`; if the order does not matter, `p` bears on `q`
  obtain ⟨y, hy, hback⟩ : ∃ y ∈ g', Glob.canonical cs p = stem' ++ y := by
    by_contra hnone
    have habove : ¬ ∃ b ∈ above g' e', Glob.canonical cs p = stem' ++ b := fun ⟨b, hb, h⟩ =>
      hnone ⟨b, ((mem_above_iff he').mp hb).1, h⟩
    have hbeneath : ¬ ∃ w ∈ beneath g' e', Glob.canonical cs p = stem' ++ w := fun ⟨w, hw, h⟩ =>
      hnone ⟨w, ((mem_beneath_iff (hgroups.nodup g' hg')).mp hw).1, h⟩
    have hboth : ∀ k, k = Glob.canonical cs p ∨ k = Glob.canonical cs q →
        k ∈ (chooseFiles (Glob.canonical cs) groups [] [q, p]).map (Glob.canonical cs) := by
      intro k hk
      rw [← hpairs p hpf q hqf k, hp.mem_pair hgroups hq, if_neg habove, if_neg hbeneath]
      exact hk
    -- but one of the two does not survive when `p` comes behind `q`
    have hsame : Glob.canonical cs p = Glob.canonical cs q := by
      have hpkept := hboth _ (Or.inl rfl)
      have hqkept := hboth _ (Or.inr rfl)
      rw [hq.mem_pair hgroups hp] at hpkept hqkept
      split at hpkept
      · exact hpkept
      · rename_i hnotAbove
        have hxbeneath : x ∈ beneath g e := (mem_above_or_beneath (hgroups.nodup g hg) he hx hne).resolve_left
          fun h => hnotAbove ⟨x, h, hkey⟩
        rw [if_neg hnotAbove, if_pos ⟨x, hxbeneath, hkey⟩] at hqkept
        exact hqkept.symm
    obtain ⟨t, ht, hpt⟩ := hp.key
    obtain rfl := List.append_cancel_left (hkey.symm.trans (hsame.symm.trans hpt))
    exact hne ((map_lowerPoint_extension x (hknown x hx)).symm.trans ht)
  obtain ⟨rfl, rfl, rfl, rfl⟩ := hp.agree hgroups hq hx hy hkey hback
  exact ⟨hextension', hback.trans (hp.sibling y (hknown y he)).symm⟩

/-! ## All files -/

/-- Where no two files found have one key, their order shows in the order of the files taken only. -/
theorem chooseFiles_perm (hgroups : Apart groups) (base : Text) (files : List Text) {found' : List Text}
    (hfound : Unambiguous cs groups found) (hperm : found'.Perm found) (hnodup : (found.map (Glob.canonical cs)).Nodup) :
    (chooseFiles (Glob.canonical cs) groups (listedFiles (Glob.canonical cs) base files) found').Perm
      (chooseFiles (Glob.canonical cs) groups (listedFiles (Glob.canonical cs) base files) found) := by
  have hnodup' : (found'.map (Glob.canonical cs)).Nodup := (hperm.map _).nodup_iff.mpr hnodup
  rw [chooseFiles_eq hgroups base files hfound, chooseFiles_eq hgroups base files (hfound.mono fun p => hperm.mem_iff.mp),
    unrivalledFiles, unrivalledFiles, firsts_of_nodup hnodup, firsts_of_nodup hnodup',
    unrivalled_of_mem_iff (fun _ => Iff.rfl) fun k => (hperm.map _).mem_iff (a := k)]
  exact (hperm.filter _).append_left _

theorem rootFiles_eq (h : Host) (options : Options) (base : Text) (files : List Text) {includes : List Text}
    (excludes : List Text) (hincludes : includes ≠ []) :
    rootFiles h options base files includes excludes =
      chooseFiles (Glob.canonical h.caseSensitive) options.extensionGroups
        (listedFiles (Glob.canonical h.caseSensitive) base files)
        (h.readDirectory base options.extensionGroups.flatten excludes includes none) := by
  rw [rootFiles, List.isEmpty_eq_false_iff.mpr hincludes]
  rfl

/-- The order of two files matters unless they agree on their stems. Where all files found do, the order of none
matters: two searches that find them in different orders give the same root files as the file system tells files
apart, and the same paths where it tells apart all that are found. -/
theorem rootFiles_unordered (options : Options) (caseSensitive : Bool) (found : List Text) :
    let key := Glob.canonical caseSensitive
    let groups := options.extensionGroups
    (Unambiguous caseSensitive groups found ↔ ∀ p ∈ found, ∀ q ∈ found, ∀ k,
        k ∈ (chooseFiles key groups [] [p, q]).map key ↔ k ∈ (chooseFiles key groups [] [q, p]).map key) ∧
      (Unambiguous caseSensitive groups found →
        ∀ (h h' : Host) (base : Text) (files includes includes' excludes excludes' : List Text),
          h.caseSensitive = caseSensitive → h'.caseSensitive = caseSensitive → includes ≠ [] → includes' ≠ [] →
          (h.readDirectory base groups.flatten excludes includes none).Perm found →
          (h'.readDirectory base groups.flatten excludes' includes' none).Perm found →
          let roots := rootFiles h options base files includes excludes
          let roots' := rootFiles h' options base files includes' excludes'
          (∀ k, k ∈ roots.map key ↔ k ∈ roots'.map key) ∧ ((found.map key).Nodup → roots.Perm roots')) := by
  intro key groups
  have hgroups := apart_extensionGroups options
  refine ⟨⟨fun hfound p hp q hq => ?_, unambiguous_of_pairs hgroups⟩, ?_⟩
  · have hpair : Unambiguous caseSensitive groups [q, p] := hfound.mono (by simp [hp, hq])
    exact chooseFiles_keys_perm hgroups [] [] hpair (List.Perm.swap q p [])
  · intro hfound h h' base files includes includes' excludes excludes' hcs hcs' hincludes hincludes' hperm hperm' roots roots'
    subst hcs
    have hfound' := hfound.mono fun p hp => hperm'.mem_iff.mp hp
    have hboth := hperm.trans hperm'.symm
    have hroots : roots = _ := rootFiles_eq h options base files excludes hincludes
    have hroots' : roots' = _ := rootFiles_eq h' options base files excludes' hincludes'
    rw [hroots, hroots', hcs']
    refine ⟨chooseFiles_keys_perm hgroups base files hfound' hboth, fun hnodup => ?_⟩
    exact chooseFiles_perm hgroups base files hfound' hboth ((hperm'.map key).nodup_iff.mpr hnodup)

/-- A file system with the given files in `/p`, which lists them in this order. -/
def listing (names : List Text) : Host where
  caseSensitive := true
  text? _ := none
  fileExists _ := false
  currentDirectory := Text.of "/"
  tree := (Glob.Folder.folder (Text.of "p") (names.foldr Glob.Folder.file .empty) .empty).tree
  readableFiles := 0

theorem rootFiles_unordered_sources :
    let found := ["/p/a.d.ts", "/p/a.js", "/p/a.tsx", "/p/b.js"].map Text.of
    let h := listing (["a.d.ts", "a.js", "a.tsx", "b.js"].map Text.of)
    let h' := listing (["b.js", "a.tsx", "a.js", "a.d.ts"].map Text.of)
    let roots := fun h : Host => rootFiles h javaScriptAllowed (Text.of "/p") [] [Text.of "**/*"] []
    Unambiguous true allGroups found ∧
      (h.readDirectory (Text.of "/p") allGroups.flatten [] [Text.of "**/*"] none).Perm found ∧
      (h'.readDirectory (Text.of "/p") allGroups.flatten [] [Text.of "**/*"] none).Perm found ∧
      (roots h).Perm (roots h') ∧ roots h = ["/p/a.tsx", "/p/b.js"].map Text.of := by
  intro found h h' roots
  have hfound : Unambiguous true allGroups found := by decide +kernel
  have hperm : (h.readDirectory (Text.of "/p") allGroups.flatten [] [Text.of "**/*"] none).Perm found := by
    decide +kernel
  have hperm' : (h'.readDirectory (Text.of "/p") allGroups.flatten [] [Text.of "**/*"] none).Perm found := by
    decide +kernel
  have hroots := (rootFiles_unordered javaScriptAllowed true found).2 hfound h h' (Text.of "/p") [] [Text.of "**/*"]
    [Text.of "**/*"] [] [] rfl rfl (by decide) (by decide) hperm hperm'
  exact ⟨hfound, hperm, hperm', hroots.2 (by decide +kernel), by decide +kernel⟩

/-- Two files with different stems, of which one finds the other. -/
theorem rootFiles_declarationOfScript :
    let found := ["/p/a.d.js", "/p/a.d.ts"].map Text.of
    let h := listing (["a.d.js", "a.d.ts"].map Text.of)
    let h' := listing (["a.d.ts", "a.d.js"].map Text.of)
    let roots := fun h : Host => rootFiles h javaScriptAllowed (Text.of "/p") [] [Text.of "**/*"] []
    found.Nodup ∧
      h.readDirectory (Text.of "/p") allGroups.flatten [] [Text.of "**/*"] none = found ∧
      h'.readDirectory (Text.of "/p") allGroups.flatten [] [Text.of "**/*"] none = found.reverse ∧
      roots h = ["/p/a.d.js", "/p/a.d.ts"].map Text.of ∧ roots h' = ["/p/a.d.ts"].map Text.of := by
  decide +kernel

end TsProject.Config
