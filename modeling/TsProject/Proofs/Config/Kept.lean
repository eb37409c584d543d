/-
  TsProject.Proofs.Config.Kept — the values options keep.

  What an option keeps of a value, it keeps again unchanged; reading its paths against a
  directory and putting the config directory in for its template give values of the same
  kind. So options may be merged and checked once more without loss.

  - `keeps_of_check` / `check_of_keeps`: checking gives such values, and leaves them alone.
  - `Keeps.resolved` / `Keeps.substitute`: so does everything that happens to them later.
-/

import TsProject.Config.Specs
import TsProject.Proofs.Case

namespace TsProject.Config

open CodePoint

/-! ## Lists -/

theorem checkTexts_text (t : Text) (items : List Value) :
    checkTexts (.text t :: items) = (checkTexts items).map (t :: ·) := by
  rw [checkTexts, List.mapM_cons]
  change (do let ts ← checkTexts items; pure (t :: ts)) = _
  cases checkTexts items <;> rfl

theorem checkTextList_texts (ts : List Text) : checkTextList (.texts ts) = .ok ts := by
  change checkTexts (ts.map .text) = .ok ts
  induction ts with
  | nil => rfl
  | cons t ts ih =>
    rw [List.map_cons, checkTexts_text, ih]
    rfl

theorem checkObjects_iff {items : List Value} :
    checkObjects items = .ok () ↔ ∀ v ∈ items, ∃ fields, v = .object fields := by
  unfold checkObjects
  induction items with
  | nil => exact ⟨fun _ => by simp, fun _ => rfl⟩
  | cons v items ih =>
    rw [List.forall_mem_cons]
    cases v with
    | object fields => exact ⟨fun h => ⟨⟨fields, rfl⟩, ih.mp h⟩, fun h => ih.mpr h.2⟩
    | _ => exact ⟨fun h => (by cases h), fun ⟨⟨_, h⟩, _⟩ => (by cases h)⟩

/-! ## Kept values -/

/-- The values an option of a type keeps as they are. -/
inductive Keeps : OptionType → Value → Prop
  | null {type : OptionType} : Keeps type .null
  | flag (b : Bool) : Keeps .flag (.bool b)
  | number (n : Int) : Keeps .number (.int n)
  | string (t : Text) : Keeps .string (.text t)
  | path (t : Text) : Keeps .path (.text t)
  | choice {words : List String} {t : Text} : Text.lower t = t → Text.hasSurrogate t = false → t ∈ words.map Text.of →
      Keeps (.choice words) (.text t)
  | strings (ts : List Text) : Keeps .strings (.texts ts)
  | paths (ts : List Text) : Keeps .paths (.texts ts)
  | libraries {ts : List Text} : (∀ t ∈ ts, Text.lower t = t) → Keeps .libraries (.texts ts)
  | mapping {fields : Fields} : checkMapping fields = .ok () → Keeps .mapping (.object fields)
  | objects {items : List Value} : checkObjects items = .ok () → Keeps .objects (.array items)

theorem keeps_of_check {type : OptionType} {v w : Value} (h : type.check v = .ok w) : Keeps type w := by
  have htexts : ∀ {f : List Text → Value}, (checkTextList v).map f = .ok w → ∃ ts, w = f ts := by
    intro f hf
    cases hv : checkTextList v with
    | error e => rw [hv] at hf; cases hf
    | ok ts => rw [hv] at hf; exact ⟨ts, (Except.ok.inj hf).symm⟩
  by_cases hnull : v = .null
  · subst hnull
    cases type <;> (cases h; exact .null)
  cases type with
  | flag => cases v with
    | bool b => cases h; exact .flag b
    | null => exact absurd rfl hnull
    | _ => cases h
  | number => cases v with
    | int n => cases h; exact .number n
    | null => exact absurd rfl hnull
    | _ => cases h
  | string => cases v with
    | text t => cases h; exact .string t
    | null => exact absurd rfl hnull
    | _ => cases h
  | path => cases v with
    | text t => cases h; exact .path t
    | null => exact absurd rfl hnull
    | _ => cases h
  | choice words => cases v with
    | text t =>
      simp only [OptionType.check] at h
      by_cases hs : Text.hasSurrogate (Text.lower t) = true
      · rw [if_pos hs] at h; cases h
      · rw [if_neg hs] at h
        by_cases hw : (words.map Text.of).contains (Text.lower t) = true
        · rw [if_pos hw] at h
          cases h
          exact .choice (Text.lower_lower t) (by simpa using hs) (List.contains_iff_mem.mp hw)
        · rw [if_neg hw] at h; cases h
    | null => exact absurd rfl hnull
    | _ => cases h
  | strings =>
    obtain ⟨ts, rfl⟩ := htexts (f := Value.texts) (by cases v <;> first | exact h | exact absurd rfl hnull)
    exact .strings ts
  | paths =>
    obtain ⟨ts, rfl⟩ := htexts (f := Value.texts) (by cases v <;> first | exact h | exact absurd rfl hnull)
    exact .paths ts
  | libraries =>
    obtain ⟨ts, rfl⟩ := htexts (f := fun ts => Value.texts (ts.map Text.lower))
      (by cases v <;> first | exact h | exact absurd rfl hnull)
    refine .libraries fun t ht => ?_
    obtain ⟨t, -, rfl⟩ := List.mem_map.mp ht
    exact Text.lower_lower t
  | mapping => cases v with
    | object fields =>
      simp only [OptionType.check] at h
      cases hm : checkMapping fields with
      | error e => rw [hm] at h; cases h
      | ok _ => rw [hm] at h; cases h; exact .mapping hm
    | null => exact absurd rfl hnull
    | _ => cases h
  | objects => cases v with
    | array items =>
      simp only [OptionType.check] at h
      cases hm : checkObjects items with
      | error e => rw [hm] at h; cases h
      | ok _ => rw [hm] at h; cases h; exact .objects hm
    | null => exact absurd rfl hnull
    | _ => cases h

theorem check_of_keeps {type : OptionType} {v : Value} (h : Keeps type v) : type.check v = .ok v := by
  cases h with
  | null => cases type <;> rfl
  | choice hlower hsurrogate hword =>
    simp only [OptionType.check, hlower, hsurrogate, List.contains_iff_mem.mpr hword]
    rfl
  | strings ts =>
    change (checkTextList (.texts ts)).map Value.texts = _
    rw [checkTextList_texts]
    rfl
  | paths ts =>
    change (checkTextList (.texts ts)).map Value.texts = _
    rw [checkTextList_texts]
    rfl
  | @libraries ts hlower =>
    change (checkTextList (.texts ts)).map (fun ts => Value.texts (ts.map Text.lower)) = _
    rw [checkTextList_texts]
    change Except.ok (Value.texts (ts.map Text.lower)) = _
    rw [List.map_congr_left hlower, List.map_id']
  | mapping hm => simp only [OptionType.check, hm]; rfl
  | objects hm => simp only [OptionType.check, hm]; rfl
  | _ => rfl

/-! ## What happens to them -/

/-- The paths of a value read against a directory. -/
def OptionType.resolved (type : OptionType) (base : Text) (v : Value) : Value :=
  match type, v with
  | .path, v => resolvePathValue base v
  | .paths, .array items => .array (items.map (resolvePathValue base))
  | _, v => v

theorem Keeps.resolved {type : OptionType} {v : Value} (h : Keeps type v) (base : Text) :
    Keeps type (type.resolved base v) := by
  cases h with
  | null => cases type <;> exact .null
  | path t => exact .path (resolvePath base t)
  | paths ts =>
    have : OptionType.paths.resolved base (.texts ts) = .texts (ts.map (resolvePath base)) := by
      simp [OptionType.resolved, Value.texts, resolvePathValue]
    rw [this]
    exact .paths _
  | flag b => exact .flag b
  | number n => exact .number n
  | string t => exact .string t
  | choice h1 h2 h3 => exact .choice h1 h2 h3
  | strings ts => exact .strings ts
  | libraries h1 => exact .libraries h1
  | mapping h1 => exact .mapping h1
  | objects h1 => exact .objects h1

theorem substituteText_of_lower {configDir t : Text} (h : Text.lower t = t) : substituteText configDir t = t := by
  unfold substituteText
  by_cases hs : Text.startsWith t configDirTemplate = true
  · -- the template has a capital, and a text in lower case none
    obtain ⟨rest, hrest⟩ := List.isPrefixOf_iff_prefix.mp hs
    have hmem : (0x44 : CodePoint) ∈ t := by
      rw [← hrest]
      exact List.mem_append_left _ (by decide)
    rw [← h] at hmem
    exact absurd (Text.isLower_of_mem_lower hmem).fixed (by decide)
  · rw [if_neg hs]

theorem substitute_texts (configDir : Text) (ts : List Text) :
    substitute configDir (.texts ts) = .texts (ts.map (substituteText configDir)) := by
  simp only [Value.texts, substitute]
  congr 1
  induction ts with
  | nil => rfl
  | cons t ts ih => simp [substituteAll, substitute, ih]

theorem Keeps.substitute {type : OptionType} {v : Value} (h : Keeps type v) (configDir : Text) :
    Keeps type (substitute configDir v) := by
  cases h with
  | null => exact .null
  | flag b => exact .flag b
  | number n => exact .number n
  | string t => exact .string _
  | path t => exact .path _
  | choice h1 h2 h3 =>
    simp only [Config.substitute]
    rw [substituteText_of_lower h1]
    exact .choice h1 h2 h3
  | strings ts => rw [substitute_texts]; exact .strings _
  | paths ts => rw [substitute_texts]; exact .paths _
  | libraries h1 =>
    rw [substitute_texts, List.map_congr_left fun t ht => substituteText_of_lower (h1 t ht), List.map_id']
    exact .libraries h1
  | mapping h1 => exact .mapping h1
  | objects h1 =>
    rename_i items
    have hsame : substituteAll configDir items = items := by
      have hobjects := checkObjects_iff.mp h1
      induction items with
      | nil => rfl
      | cons v items ih =>
        obtain ⟨⟨fields, rfl⟩, hrest⟩ := List.forall_mem_cons.mp hobjects
        rw [substituteAll, ih (checkObjects_iff.mpr hrest) hrest]
        rfl
    simp only [Config.substitute, hsame]
    exact .objects h1

end TsProject.Config
