/-
  TsProject.Proofs.Config.Extension — names apart from their extensions.

  Extensions are recognized in any case. Lower case maps what stands before an extension
  the same way whichever extension follows, so that names with one stem have keys with one
  stem, and the key of a name tells its stem and its extension. Only an extension that may
  follow `.d` leaves two readings.

  - `exists_stem`: names with one stem, in lower case.
  - `extensionOf?_eq_some`: the extension of a name is the longest it ends in.
  - `Unambiguous`: names that read each other's stem and extension alike.
  - `Unambiguous.of_plain`: so they do if no stem ends in `.d`.
-/

import TsProject.Config.RootFiles
import TsProject.Proofs.Case
import Mathlib

namespace TsProject.Config

open CodePoint

/-! ## Stems -/

/-- Every extension there is. -/
def extensions : List Text := allGroups.flatten

theorem extensions_shape : ∀ e ∈ extensions, (e.all fun c => isAscii c && c != 0x69 && c != 0x6B) = true ∧
    e.head? = some dot ∧ e.tail.head?.any isAsciiLower = true := by
  decide

theorem isCased_of_lowerPoint : ∀ c < 0x80, isAsciiLower (Text.lowerPoint c) = true → Text.isCased c = true := by
  decide

/-- Every range of case-ignorable code points lies below, between or above the letters of ASCII. -/
theorem caseIgnorable_misses_letters : (Text.caseIgnorableRanges.all fun r =>
    Nat.blt r.2 0x41 || (Nat.blt 0x5A r.1 && Nat.blt r.2 0x61) || Nat.blt 0x7A r.1) = true := by
  decide +kernel

theorem isCaseIgnorable_letter {c : CodePoint} (hc : isAsciiLetter c = true) : Text.isCaseIgnorable c = false := by
  simp only [isAsciiLetter, isAsciiUpper, isAsciiLower, Bool.or_eq_true, Text.isBetween_iff] at hc
  refine List.any_eq_false.mpr fun r hr hin => ?_
  have hmiss := List.all_eq_true.mp caseIgnorable_misses_letters r hr
  simp only [Bool.or_eq_true, Bool.and_eq_true, Nat.blt_eq] at hmiss
  rw [Text.isBetween_iff] at hin
  omega

theorem isAsciiLetter_of_lowerPoint {c : CodePoint} (hc : isAscii c = true) (h : isAsciiLower (Text.lowerPoint c) = true) :
    isAsciiLetter c = true := by
  rw [Text.lowerPoint, if_pos hc] at h
  by_cases hupper : isAsciiUpper c = true
  · simp [isAsciiLetter, hupper]
  · rw [if_neg hupper] at h
    simp [isAsciiLetter, h]

theorem ignorable_of_lowerPoint : ∀ c < 0x80, Text.lowerPoint c = dot → Text.isCaseIgnorable c = true := by
  decide

theorem isAscii_of_spells {t : Text} (ht : t.map Text.lowerPoint ∈ extensions) : ∀ c ∈ t, isAscii c = true := by
  intro c hc
  have hall := List.all_eq_true.mp (extensions_shape _ ht).1 _ (List.mem_map_of_mem hc)
  simp only [Bool.and_eq_true, bne_iff_ne] at hall
  exact Text.isAscii_of_lowerPoint hall.1.1 hall.1.2 hall.2

/-- An extension is a dot and a letter behind it, in any case. -/
theorem dropWhile_of_spells {t : Text} (ht : t.map Text.lowerPoint ∈ extensions) :
    ∃ c rest, t.dropWhile Text.isCaseIgnorable = c :: rest ∧ Text.isCased c = true := by
  have hascii := isAscii_of_spells ht
  obtain ⟨-, hhead, hsecond⟩ := extensions_shape _ ht
  match t with
  | [] => cases hhead
  | [_] => cases hsecond
  | d :: c :: rest =>
    simp only [List.map_cons, List.head?_cons, List.tail_cons, Option.some.injEq, Option.any_some] at hhead hsecond
    have hlt : ∀ x ∈ d :: c :: rest, x < 0x80 := fun x hx => of_decide_eq_true (hascii x hx)
    have hdot := ignorable_of_lowerPoint d (hlt d (by simp)) hhead
    have hletter := isCaseIgnorable_letter (isAsciiLetter_of_lowerPoint (hascii c (by simp)) hsecond)
    exact ⟨c, rest, by simp [hdot, hletter], isCased_of_lowerPoint c (hlt c (by simp)) hsecond⟩

theorem startsCased_of_spells (s : Text) : ∃ b, ∀ t : Text, t.map Text.lowerPoint ∈ extensions →
    Text.startsCased (s ++ t) = b := by
  cases hs : s.dropWhile Text.isCaseIgnorable with
  | nil =>
    refine ⟨true, fun t ht => ?_⟩
    obtain ⟨c, rest, hdrop, hcased⟩ := dropWhile_of_spells ht
    rw [Text.startsCased, List.dropWhile_append, hs]
    simp only [List.isEmpty_nil, if_true, hdrop, hcased]
  | cons c rest =>
    refine ⟨Text.isCased c, fun t _ => ?_⟩
    rw [Text.startsCased, List.dropWhile_append, hs]
    rfl

/-- Lower case maps what stands before an extension the same way whichever extension follows. -/
theorem exists_stem (before s : Text) : ∃ stem, ∀ t : Text, t.map Text.lowerPoint ∈ extensions →
    Text.lowerAfter before (s ++ t) = stem ++ t.map Text.lowerPoint := by
  induction s generalizing before with
  | nil => exact ⟨[], fun t ht => Text.lowerAfter_of_ascii (isAscii_of_spells ht)⟩
  | cons c s ih =>
    obtain ⟨stem, hstem⟩ := ih (c :: before)
    obtain ⟨b, hb⟩ := startsCased_of_spells s
    -- what follows matters to a sigma only, and only by whether it starts with a letter
    let image : Text :=
      if c = 0x130 then [0x69, 0x307]
      else if c = 0x3A3 then (if Text.startsCased before && !b then [0x3C2] else [0x3C3])
      else [Text.lowerPoint c]
    refine ⟨image ++ stem, fun t ht => ?_⟩
    rw [List.cons_append, Text.lowerAfter, hstem t ht, hb t ht, List.append_assoc]

/-! ## The extension of a name -/

theorem endsWith_iff {s e : Text} : Text.endsWith s e = true ↔ e <:+ s := List.isSuffixOf_iff_suffix

/-- The longer of two extensions, the first one where they are equally long. -/
def longer (best : Option Text) (e : Text) : Option Text :=
  match best with
  | some b => if b.length < e.length then some e else some b
  | none => some e

theorem longestExtension?_eq (lowered : Text) (group : ExtensionGroup) :
    longestExtension? lowered group = (group.filter (Text.endsWith lowered)).foldl longer none := rfl

theorem foldl_longer_some (l : List Text) (b : Text) : ∃ e, l.foldl longer (some b) = some e ∧ (e = b ∨ e ∈ l) ∧
    b.length ≤ e.length ∧ ∀ x ∈ l, x.length ≤ e.length := by
  induction l generalizing b with
  | nil => exact ⟨b, rfl, Or.inl rfl, Nat.le_refl _, by simp⟩
  | cons x l ih =>
    rw [List.foldl_cons, longer]
    by_cases hlt : b.length < x.length
    · rw [if_pos hlt]
      obtain ⟨e, he, hmem, hx, hl⟩ := ih x
      exact ⟨e, he, Or.inr (List.mem_cons.mpr hmem), by omega, List.forall_mem_cons.mpr ⟨hx, hl⟩⟩
    · rw [if_neg hlt]
      obtain ⟨e, he, hmem, hb, hl⟩ := ih b
      exact ⟨e, he, hmem.imp_right (List.mem_cons_of_mem x), hb, List.forall_mem_cons.mpr ⟨by omega, hl⟩⟩

theorem longestExtension?_eq_none {lowered : Text} {group : ExtensionGroup} (h : longestExtension? lowered group = none) :
    ∀ e ∈ group, ¬ e <:+ lowered := by
  intro e he hsuffix
  rw [longestExtension?_eq] at h
  have hmem : e ∈ group.filter (Text.endsWith lowered) := List.mem_filter.mpr ⟨he, endsWith_iff.mpr hsuffix⟩
  cases hl : group.filter (Text.endsWith lowered) with
  | nil => rw [hl] at hmem; cases hmem
  | cons x l =>
    obtain ⟨e', he', -⟩ := foldl_longer_some l x
    rw [hl, List.foldl_cons, longer, he'] at h
    cases h

theorem longestExtension?_eq_some {lowered : Text} {group : ExtensionGroup} {e : Text}
    (h : longestExtension? lowered group = some e) :
    e ∈ group ∧ e <:+ lowered ∧ ∀ x ∈ group, x <:+ lowered → x.length ≤ e.length := by
  rw [longestExtension?_eq] at h
  have hfits : ∀ x, x ∈ group.filter (Text.endsWith lowered) ↔ x ∈ group ∧ x <:+ lowered := by
    intro x
    rw [List.mem_filter, endsWith_iff]
  cases hl : group.filter (Text.endsWith lowered) with
  | nil => rw [hl] at h; cases h
  | cons x l =>
    rw [hl] at hfits h
    obtain ⟨e', he', hmem, hx, hlongest⟩ := foldl_longer_some l x
    obtain rfl : e' = e := Option.some.inj (he'.symm.trans h)
    obtain ⟨hgroup, hsuffix⟩ := (hfits e').mp (List.mem_cons.mpr hmem)
    refine ⟨hgroup, hsuffix, fun y hy hysuffix => ?_⟩
    rcases List.mem_cons.mp ((hfits y).mpr ⟨hy, hysuffix⟩) with rfl | hyl
    · exact hx
    · exact hlongest y hyl

/-- What is said of the extensions a project supports, so that they tell modules apart. -/
structure Apart (groups : List ExtensionGroup) : Prop where
  known : ∀ g ∈ groups, ∀ e ∈ g, e ∈ extensions
  nodup : ∀ g ∈ groups, g.Nodup
  /-- An extension that ends in another one is of the same group. -/
  apart : ∀ g ∈ groups, ∀ g' ∈ groups, ∀ e ∈ g, ∀ e' ∈ g', e <:+ e' → g = g'

theorem apart_extensionGroups (o : Options) : Apart o.extensionGroups := by
  unfold Options.extensionGroups
  split
  · exact ⟨by decide, by decide, by decide⟩
  · exact ⟨by decide, by decide, by decide⟩

/-- Of two extensions one ends in the other only where it is that of a declaration. -/
theorem eq_or_declaration : ∀ e ∈ extensions, ∀ e' ∈ extensions, e <:+ e' → e = e' ∨ e' = Text.of ".d" ++ e := by
  decide

theorem map_lowerPoint_extension : ∀ e ∈ extensions, e.map Text.lowerPoint = e := by decide

/-- A name has the longest extension that it ends in, in any case. -/
theorem extensionOf?_eq_some {groups : List ExtensionGroup} (hgroups : Apart groups) {p : Text} {g : ExtensionGroup}
    {e : Text} (h : extensionOf? groups p = some (g, e)) : g ∈ groups ∧ e ∈ g ∧ e <:+ Text.lower p ∧
      ∀ g' ∈ groups, ∀ x ∈ g', x <:+ Text.lower p → x.length ≤ e.length := by
  obtain ⟨g', hg', hfound⟩ := List.exists_of_findSome?_eq_some h
  obtain ⟨e', he', hpair⟩ := Option.map_eq_some_iff.mp hfound
  obtain ⟨rfl, rfl⟩ := Prod.mk.inj hpair
  obtain ⟨hmem, hsuffix, hlongest⟩ := longestExtension?_eq_some he'
  refine ⟨hg', hmem, hsuffix, fun g'' hg'' x hx hxsuffix => ?_⟩
  by_contra hlonger
  have hends : e' <:+ x := List.suffix_of_suffix_length_le hsuffix hxsuffix (by omega)
  obtain rfl := hgroups.apart g' hg' g'' hg'' e' hmem x hx hends
  exact hlonger (hlongest x hx hxsuffix)

/-- A name that ends in some extension has one. -/
theorem exists_extensionOf? {groups : List ExtensionGroup} {p : Text} {g : ExtensionGroup} (hg : g ∈ groups) {x : Text}
    (hx : x ∈ g) (h : x <:+ Text.lower p) : ∃ g' e, extensionOf? groups p = some (g', e) := by
  cases hfound : extensionOf? groups p with
  | some r => exact ⟨r.1, r.2, rfl⟩
  | none =>
    have hnone := List.findSome?_eq_none_iff.mp hfound g hg
    exact absurd h (longestExtension?_eq_none (Option.map_eq_none_iff.mp hnone) x hx)

/-! ## Names and their keys -/

/-- A name without an extension it ends in. -/
def stemOf (p e : Text) : Text := p.take (p.length - e.length)

theorem stemOf_append (s : Text) {t e : Text} (h : t.length = e.length) : stemOf (s ++ t) e = s := by
  rw [stemOf, List.length_append, h, Nat.add_sub_cancel, List.take_left]

/-- A name that is spelled as its extension where the file system tells cases apart, and that is not the
name of a declaration without its extension. -/
def Plain (caseSensitive : Bool) (groups : List ExtensionGroup) (p : Text) : Prop :=
  ∀ r ∈ extensionOf? groups p, (caseSensitive = true → r.2 <:+ p) ∧
    ¬ Text.of ".d" <:+ Glob.canonical caseSensitive (stemOf p r.2)

instance (caseSensitive : Bool) (groups : List ExtensionGroup) (p : Text) : Decidable (Plain caseSensitive groups p) :=
  inferInstanceAs (Decidable (∀ r ∈ extensionOf? groups p, _))

/-- The group and the extension of a name, and its key without it. -/
structure Named (caseSensitive : Bool) (groups : List ExtensionGroup) (p : Text) (g : ExtensionGroup) (e stem : Text) :
    Prop where
  extension : extensionOf? groups p = some (g, e)
  /-- Where case counts, the name may spell its extension in capitals. -/
  key : ∃ t : Text, t.map Text.lowerPoint = e ∧ Glob.canonical caseSensitive p = stem ++ t
  sibling : ∀ x ∈ extensions, Glob.canonical caseSensitive (stemOf p e ++ x) = stem ++ x

variable {cs : Bool} {groups : List ExtensionGroup} {found : List Text} {p q : Text} {g g' : ExtensionGroup}
  {e e' stem stem' : Text}

theorem exists_named (cs : Bool) (hgroups : Apart groups) (h : extensionOf? groups p = some (g, e)) :
    ∃ stem, Named cs groups p g e stem := by
  obtain ⟨hg, he, ⟨b, hb⟩, -⟩ := extensionOf?_eq_some hgroups h
  have hknown := hgroups.known g hg e he
  have hspelled := map_lowerPoint_extension e hknown
  have hascii : ∀ c ∈ e, isAscii c = true := isAscii_of_spells (hspelled.symm ▸ hknown)
  obtain ⟨s, t, rfl, ht⟩ := Text.exists_of_lowerAfter_append hascii hb.symm
  have hstem : stemOf (s ++ t) e = s := stemOf_append s (by rw [← ht, List.length_map])
  cases cs with
  | true => exact ⟨s, h, ⟨t, ht, rfl⟩, fun x _ => by rw [hstem]; rfl⟩
  | false =>
    obtain ⟨stem, hall⟩ := exists_stem [] s
    refine ⟨stem, h, ⟨e, hspelled, ?_⟩, fun x hx => ?_⟩
    · have := hall t (ht.symm ▸ hknown)
      rwa [ht] at this
    · have hx' := map_lowerPoint_extension x hx
      have := hall x (hx'.symm ▸ hx)
      rw [hx'] at this
      rw [hstem]
      exact this

/-- What stands in a key before as much as an extension is the stem. -/
theorem Named.stem_eq (hp : Named cs groups p g e stem) {s t : Text} (h : Glob.canonical cs p = s ++ t)
    (ht : t.length = e.length) : s = stem := by
  obtain ⟨t', rfl, hkey⟩ := hp.key
  exact (List.append_inj' (h.symm.trans hkey) (by rw [ht, List.length_map])).1

theorem Named.unique (hp : Named cs groups p g e stem) (hp' : Named cs groups p g' e' stem') :
    g' = g ∧ e' = e ∧ stem' = stem := by
  obtain ⟨rfl, rfl⟩ := Prod.mk.inj (Option.some.inj (hp'.extension.symm.trans hp.extension))
  obtain ⟨t, ht, hkey⟩ := hp'.key
  exact ⟨rfl, rfl, hp.stem_eq hkey (by rw [← ht, List.length_map])⟩

theorem suffix_lower_of_key {x : Text} (hx : x ∈ extensions) (h : Glob.canonical cs p = stem ++ x) : x <:+ Text.lower p := by
  cases cs with
  | false => exact ⟨stem, h.symm⟩
  | true =>
    obtain rfl : p = stem ++ x := h
    have hx' := map_lowerPoint_extension x hx
    obtain ⟨b, hb⟩ := Text.lowerAfter_append_ascii (isAscii_of_spells (hx'.symm ▸ hx)) [] stem
    rw [hx'] at hb
    exact ⟨b, hb.symm⟩

/-- A name whose key ends in an extension has one. -/
theorem exists_of_key {x : Text} (hgroups : Apart groups) (hg : g ∈ groups) (hx : x ∈ g)
    (h : Glob.canonical cs p = stem ++ x) : ∃ g e, extensionOf? groups p = some (g, e) :=
  exists_extensionOf? hg hx (suffix_lower_of_key (hgroups.known g hg x hx) h)

/-- The extension of a name depends on its key alone. -/
theorem extensionOf?_congr (h : Glob.canonical cs q = Glob.canonical cs p) : extensionOf? groups q = extensionOf? groups p := by
  have hlower : Text.lower q = Text.lower p := by
    cases cs with
    | false => exact h
    | true => exact congrArg Text.lower h
  unfold extensionOf?
  rw [hlower]

/-! ## Names of one stem -/

/-- No name is taken for that of another one's module by one of the two only: what has the key of a name with
another extension of its group has that extension, and the name has the key of its own extension. -/
def Unambiguous (caseSensitive : Bool) (groups : List ExtensionGroup) (found : List Text) : Prop :=
  ∀ p ∈ found, ∀ q ∈ found, ∀ r ∈ extensionOf? groups p, ∀ x ∈ r.1, x ≠ r.2 →
    Glob.canonical caseSensitive q = Glob.canonical caseSensitive (stemOf p r.2 ++ x) →
      extensionOf? groups q = some (r.1, x) ∧
        Glob.canonical caseSensitive p = Glob.canonical caseSensitive (stemOf p r.2 ++ r.2)

instance (caseSensitive : Bool) (groups : List ExtensionGroup) (found : List Text) :
    Decidable (Unambiguous caseSensitive groups found) :=
  inferInstanceAs (Decidable (∀ p ∈ found, ∀ q ∈ found, ∀ r ∈ extensionOf? groups p, _))

theorem Unambiguous.mono {found' : List Text} (h : Unambiguous cs groups found) (hsubset : ∀ p ∈ found', p ∈ found) :
    Unambiguous cs groups found' :=
  fun p hp q hq => h p (hsubset p hp) q (hsubset q hq)

/-- A file whose key is that of a name with another extension of its group has that stem and extension. -/
theorem Named.sibling_of_key (hgroups : Apart groups) (hfound : Unambiguous cs groups found) (hpf : p ∈ found)
    (hqf : q ∈ found) (hp : Named cs groups p g e stem) {x : Text} (hx : x ∈ g) (hne : x ≠ e)
    (h : Glob.canonical cs q = stem ++ x) : Named cs groups q g x stem ∧ Glob.canonical cs p = stem ++ e := by
  obtain ⟨hg, he, -⟩ := extensionOf?_eq_some hgroups hp.extension
  have hsibling : ∀ y ∈ g, Glob.canonical cs (stemOf p e ++ y) = stem ++ y := fun y hy =>
    hp.sibling y (hgroups.known g hg y hy)
  obtain ⟨hextension, hspelled⟩ := hfound p hpf q hqf (g, e) hp.extension x hx hne (h.trans (hsibling x hx).symm)
  obtain ⟨stem', hq⟩ := exists_named _ hgroups hextension
  obtain rfl := hq.stem_eq h rfl
  exact ⟨hq, hspelled.trans (hsibling e he)⟩

/-- A plain name has its extension in its key, and before it no `.d`. -/
theorem Named.key_of_plain (hgroups : Apart groups) (hp : Named cs groups p g e stem) (hplain : Plain cs groups p) :
    Glob.canonical cs p = stem ++ e ∧ ¬ Text.of ".d" <:+ stem := by
  obtain ⟨hspelled, hdeclaration⟩ := hplain (g, e) hp.extension
  obtain ⟨-, -, hsuffix, -⟩ := extensionOf?_eq_some hgroups hp.extension
  constructor
  · obtain ⟨s, hs⟩ : e <:+ Glob.canonical cs p := by
      cases cs with
      | false => exact hsuffix
      | true => exact hspelled rfl
    obtain rfl := hp.stem_eq hs.symm rfl
    exact hs.symm
  · -- what ends in `.d` before an extension ends in `.d` without it
    rintro ⟨b, rfl⟩
    refine hdeclaration ?_
    have hts := hp.sibling (Text.of ".ts") (by decide)
    cases cs with
    | true => exact ⟨b, (List.append_cancel_right hts).symm⟩
    | false =>
      rw [List.append_assoc] at hts
      have hknown : Text.of ".d" ++ Text.of ".ts" ∈ extensions := by decide
      have hascii : ∀ c ∈ Text.of ".d" ++ Text.of ".ts", isAscii c = true := by decide
      obtain ⟨s, t, hsplit, ht⟩ := Text.exists_of_lowerAfter_append hascii hts
      have hlength : t.length = 5 := (List.length_map Text.lowerPoint).symm.trans (congrArg List.length ht)
      rw [← List.take_append_drop 2 t, ← List.append_assoc] at hsplit
      obtain ⟨hstem, -⟩ := List.append_inj' hsplit (by rw [List.length_drop, hlength]; rfl)
      have hd : (t.take 2).map Text.lowerPoint = Text.of ".d" := by
        rw [List.map_take, ht]
        rfl
      have htAscii : ∀ c ∈ t.take 2, isAscii c = true := fun c hc =>
        isAscii_of_spells (ht.symm ▸ hknown) c (List.mem_of_mem_take hc)
      obtain ⟨b', hlower⟩ := Text.lowerAfter_append_ascii htAscii [] s
      rw [hd, ← hstem] at hlower
      exact ⟨b', hlower.symm⟩

/-- Where no stem ends in `.d`, a key is cut into stem and extension in one way. -/
theorem cancel_extension {x : Text} (he : e ∈ extensions) (hx : x ∈ extensions) (hstem : ¬ Text.of ".d" <:+ stem)
    (hstem' : ¬ Text.of ".d" <:+ stem') (h : stem ++ e = stem' ++ x) : e = x := by
  have hleft : e <:+ stem' ++ x := h ▸ List.suffix_append stem e
  rcases List.suffix_or_suffix_of_suffix hleft (List.suffix_append stem' x) with hends | hends
  · rcases eq_or_declaration e he x hx hends with hsame | rfl
    · exact hsame
    · rw [← List.append_assoc] at h
      exact absurd ⟨stem', (List.append_cancel_right h).symm⟩ hstem
  · rcases eq_or_declaration x hx e he hends with hsame | rfl
    · exact hsame.symm
    · rw [← List.append_assoc] at h
      exact absurd ⟨stem, List.append_cancel_right h⟩ hstem'

theorem Unambiguous.of_plain (hgroups : Apart groups) (hfound : ∀ p ∈ found, Plain cs groups p) :
    Unambiguous cs groups found := by
  rintro p hpf q hqf ⟨g, e⟩ hextension x hx - hkey
  obtain ⟨hg, he, -⟩ := extensionOf?_eq_some hgroups hextension
  have hknown := hgroups.known g hg
  obtain ⟨stem, hp⟩ := exists_named _ hgroups hextension
  obtain ⟨hpkey, hpstem⟩ := hp.key_of_plain hgroups (hfound p hpf)
  rw [hp.sibling x (hknown x hx)] at hkey
  obtain ⟨g', e', hextension'⟩ := exists_of_key hgroups hg hx hkey
  obtain ⟨hg', he', -⟩ := extensionOf?_eq_some hgroups hextension'
  obtain ⟨stem', hq⟩ := exists_named _ hgroups hextension'
  obtain ⟨hqkey, hqstem⟩ := hq.key_of_plain hgroups (hfound q hqf)
  obtain rfl := cancel_extension (hgroups.known g' hg' e' he') (hknown x hx) hqstem hpstem (hqkey.symm.trans hkey)
  obtain rfl := hgroups.apart g' hg' g hg e' he' e' hx (List.suffix_refl e')
  exact ⟨hextension', hpkey.trans (hp.sibling e (hknown e he)).symm⟩

end TsProject.Config
