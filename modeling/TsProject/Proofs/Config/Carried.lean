/-
  TsProject.Proofs.Config.Carried — where the lists of specs come from.

  A list of specs is inherited as a whole. On its way from the config that writes it to
  the one that is resolved it is anchored in the directory of each config between them, so
  the list a layer holds is the one written last, each spec anchored in the same
  directories. Nothing is asked of the configs for that but that they have a layer.

  - `anchorAll`: a spec anchored in one directory after another.
  - `writtenSpecs`: the list that is effective, as it stands in its config.
  - `resolveLayer_carries`: a layer holds the effective lists, anchored.
-/

import TsProject.Proofs.Config.Inheritance

namespace TsProject.Config

open TsProject.Path

/-! ## Lists on their way -/

/-- A spec anchored in one directory after another, the last one first. -/
def anchorAll (directories : List Text) (spec : Text) : Text := directories.foldr Layer.anchor spec

/-- The list held is the list written, if there is one, anchored on its way. -/
def Carried (written held : Option (List Text)) : Prop :=
  ∃ directories, held = written.map (List.map (anchorAll directories))

variable {written written' held held' : Option (List Text)}

theorem carried_self (written : Option (List Text)) : Carried written written := by
  refine ⟨[], ?_⟩
  have hself : anchorAll [] = id := rfl
  rw [hself, List.map_id_fun, Option.map_id_fun]
  rfl

theorem Carried.or (h : Carried written held) (h' : Carried written' held') :
    Carried (written'.or written) (held'.or held) := by
  obtain ⟨ds, rfl⟩ := h
  obtain ⟨ds', rfl⟩ := h'
  cases written' with
  | none => exact ⟨ds, rfl⟩
  | some specs => exact ⟨ds', rfl⟩

theorem Carried.anchor (h : Carried written held) (d : Text) : Carried written (held.map (List.map (Layer.anchor d))) := by
  obtain ⟨ds, rfl⟩ := h
  refine ⟨d :: ds, ?_⟩
  rw [Option.map_map, List.map_comp_map]
  rfl

theorem Carried.eq_nil_iff (h : Carried written held) : held = some [] ↔ written = some [] := by
  obtain ⟨ds, rfl⟩ := h
  simp

theorem Carried.eq_none_iff (h : Carried written held) : held = none ↔ written = none := by
  obtain ⟨ds, rfl⟩ := h
  exact Option.map_eq_none_iff

/-- What anchoring preserves is true of the specs held when it is true of those written. -/
theorem Carried.forall_mem {p : Text → Prop} (h : Carried written held) (hp : ∀ d spec, p spec → p (Layer.anchor d spec))
    (hwritten : ∀ specs ∈ written, ∀ spec ∈ specs, p spec) : ∀ specs ∈ held, ∀ spec ∈ specs, p spec := by
  obtain ⟨ds, rfl⟩ := h
  have hall : ∀ ds spec, p spec → p (anchorAll ds spec) := by
    intro ds spec hspec
    induction ds with
    | nil => exact hspec
    | cons d ds ih => exact hp d _ ih
  intro specs hspecs spec hspec
  obtain ⟨before, hbefore, rfl⟩ := Option.map_eq_some_iff.mp hspecs
  obtain ⟨x, hx, rfl⟩ := List.mem_map.mp hspec
  exact hall ds x (hwritten before hbefore x hx)

/-! ## Layers -/

/-- The lists of a layer are those given, anchored on their way. -/
structure Layer.Carries (l : Layer) (specs : String → Option (List Text)) : Prop where
  files : Carried (specs "files") l.files
  includes : Carried (specs "include") l.includes
  excludes : Carried (specs "exclude") l.excludes

theorem Layer.carries_empty : Layer.Carries {} (fun _ => none) := ⟨carried_self none, carried_self none, carried_self none⟩

theorem Layer.Carries.overlay {l l' : Layer} {specs specs' : String → Option (List Text)} (hl : l.Carries specs)
    (hl' : l'.Carries specs') : (l.overlay l').Carries fun key => (specs' key).or (specs key) where
  files := by
    have hor : (l.overlay l').files = l'.files.or l.files := Option.orElse_eq_or
    rw [hor]
    exact hl.files.or hl'.files
  includes := by
    have hor : (l.overlay l').includes = l'.includes.or l.includes := Option.orElse_eq_or
    rw [hor]
    exact hl.includes.or hl'.includes
  excludes := by
    have hor : (l.overlay l').excludes = l'.excludes.or l.excludes := Option.orElse_eq_or
    rw [hor]
    exact hl.excludes.or hl'.excludes

theorem Layer.Carries.rebase {l : Layer} {specs : String → Option (List Text)} (hl : l.Carries specs) (d : Text) :
    (l.rebase d).Carries specs :=
  ⟨hl.files.anchor d, hl.includes.anchor d, hl.excludes.anchor d⟩

variable {h : Host} {base : Text} {path : List Text}

/-- The list of specs that is effective under a name, as it is written in its config. -/
def writtenSpecs (config : Fields) (a : Ancestry) (key : String) : Option (List Text) :=
  (ownSpecs config key).or (a.last fun _ settings => ownSpecs settings key)

theorem ownLayer_carries {config : Fields} {own : Layer} {entries : List Text} {ps : List Problem}
    (hrun : (ownLayer config base).run [] = .ok ((own, entries), ps)) : own.Carries (ownSpecs config) := by
  obtain ⟨top, problems, options, htop, -, rfl, -, -⟩ := run_ownLayer_iff.mp hrun
  rw [(topLevel_ok htop).1]
  exact ⟨carried_self _, carried_self _, carried_self _⟩

/-- Entries put the lists written in their ancestry over those of any layer. -/
theorem Inherits.carries {readable : List Text} (hr : Lists h readable) {entries : List Text} {a : Ancestry}
    (ha : Inherits h base path entries a) {rs : List (Option Layer × List Problem)}
    (hrs : List.Forall₂
      (fun entry r => (extendedLayer h (resolveLayer h h.readableFiles) base path entry).run [] = .ok r) entries rs)
    {l : Layer} {specs : String → Option (List Text)} (hl : l.Carries specs) :
    ((rs.filterMap (·.1)).foldl Layer.overlay l).Carries fun key =>
      (a.last fun _ settings => ownSpecs settings key).or (specs key) := by
  induction ha generalizing rs l specs with
  | nil =>
    cases hrs
    exact hl
  | skip hf _ ih =>
    obtain ⟨⟨l', ps⟩, rs, hentry, hrest, rfl⟩ := List.forall₂_cons_left_iff.mp hrs
    rcases run_extendedLayer_iff.mp hentry with ⟨_, -, rfl, -⟩ | ⟨_, _, _, hf', -, -⟩
    · exact ih hrest hl
    · rw [hf] at hf'
      cases hf'
  | @config base path entry entries file settings bases later hf _ _ ihb ihl =>
    obtain ⟨⟨l', ps⟩, rs, hentry, hrest, rfl⟩ := List.forall₂_cons_left_iff.mp hrs
    rcases run_extendedLayer_iff.mp hentry with ⟨_, hf', -, -⟩ | ⟨_, _, layer, hf', hnext, rfl⟩
    · rw [hf] at hf'
      cases hf'
    · rw [hf] at hf'
      cases hf'
      rw [resolveLayer_fixed hr, run_layerOver_iff (collects_resolveLayer _)] at hnext
      obtain ⟨own, _, rsb, hown, hrsb, rfl, -⟩ := hnext
      have hinherited := ihb hrsb Layer.carries_empty
      have hlayer := (hinherited.overlay (ownLayer_carries hown)).rebase (directory file)
      have hover := ihl hrest (hl.overlay hlayer)
      simpa only [Ancestry.last, Option.or_none, Option.or_assoc, List.filterMap_cons, List.foldl_cons] using hover

/-- The layer of a config holds the effective lists, anchored on their way to it. -/
theorem resolveLayer_carries {readable : List Text} (hr : Lists h readable) {config : Fields} {a : Ancestry}
    (ha : Inherits h base path (validEntries config) a) {layer : Layer} {ps : List Problem}
    (hrun : (resolveLayer h h.readableFiles config base path).run [] = .ok (layer, ps)) :
    layer.Carries (writtenSpecs config a) := by
  rw [resolveLayer_fixed hr, run_layerOver_iff (collects_resolveLayer _)] at hrun
  obtain ⟨own, _, rs, hown, hrs, rfl, -⟩ := hrun
  have hover := (ha.carries hr hrs Layer.carries_empty).overlay (ownLayer_carries hown)
  simp only [Option.or_none] at hover
  exact hover

end TsProject.Config
