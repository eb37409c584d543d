/-
  TsProject.Proofs.Config.Layers — layers by their laws.

  Layers over one another are a monoid: only their order counts, down to that of the option
  keys. Anchoring goes through an overlay layer by layer, and what is anchored below the root
  stays where it is. So a config is its own layer over those of its ancestry, each anchored at
  home, in one row; how the configs extend each other on the way to it leaves no trace.

  - `Layer.overlay_assoc` / `Layer.empty_overlay` / `Layer.overlay_empty`: the monoid.
  - `Layer.rebase_overlay` / `Layer.rebase_rebase`: anchoring.
  - `Inherits.overlays`: entries put the layers of their ancestry over any layer, one by one.
  - `resolveLayer_eq_overlay`: the layer of a config, flat.
  - `layer_monoid`: the laws, and that two ways to inherit the same give the same.
-/

import TsProject.Proofs.Config.Conversion

namespace TsProject.Config

open TsProject.Path

/-! ## The monoid of layers -/

namespace Layer

variable {a b c l : Layer} {d : Text}

theorem overlay_assoc (ha : a.options.Distinct) (hb : b.options.Distinct) (hc : c.options.Distinct) :
    (a.overlay b).overlay c = a.overlay (b.overlay c) := by
  have hspecs : ∀ x y z : Option (List Text), (z <|> (y <|> x)) = ((z <|> y) <|> x) := by
    intro x y z
    cases z <;> rfl
  simp only [overlay, hspecs, Fields.merge_assoc ha hb hc]

theorem overlay_empty (l : Layer) : l.overlay {} = l := rfl

theorem empty_overlay (hl : l.options.Distinct) : ({} : Layer).overlay l = l := by
  obtain ⟨files, includes, excludes, options⟩ := l
  simp [overlay, Fields.merge_nil_left hl]

theorem distinct_overlay (ha : a.options.Distinct) (b : Layer) : (a.overlay b).options.Distinct :=
  Fields.distinct_merge ha b.options

theorem distinct_empty : ({} : Layer).options.Distinct := List.nodup_nil

theorem distinct_foldl (hl : l.options.Distinct) (ls : List Layer) : (ls.foldl overlay l).options.Distinct := by
  induction ls generalizing l with
  | nil => exact hl
  | cons x ls ih => exact ih (distinct_overlay hl x)

/-- Layers put over one, each by itself or all together. -/
theorem foldl_overlay (hl : l.options.Distinct) {ls : List Layer} (hls : ∀ x ∈ ls, x.options.Distinct) :
    ls.foldl overlay l = l.overlay (ls.foldl overlay {}) := by
  induction ls generalizing l with
  | nil => rfl
  | cons x ls ih =>
    obtain ⟨hx, hls⟩ := List.forall_mem_cons.mp hls
    have hrest : (ls.foldl overlay {}).options.Distinct := distinct_foldl distinct_empty ls
    rw [List.foldl_cons, List.foldl_cons, ih (distinct_overlay hl x) hls, empty_overlay hx, ih hx hls,
      overlay_assoc hl hx hrest]

/-! ## Anchoring -/

theorem mapSpecs_overlay (f : Text → Text) (a b : Layer) : (a.overlay b).mapSpecs f = (a.mapSpecs f).overlay (b.mapSpecs f) := by
  have hspecs : ∀ x y : Option (List Text), (x <|> y).map (List.map f) = (x.map (List.map f) <|> y.map (List.map f)) := by
    intro x y
    cases x <;> rfl
  simp only [mapSpecs, overlay, hspecs]

theorem rebase_overlay (d : Text) (a b : Layer) : (a.overlay b).rebase d = (a.rebase d).overlay (b.rebase d) :=
  mapSpecs_overlay (anchor d) a b

theorem rebase_foldl (d : Text) (ls : List Layer) (l : Layer) :
    (ls.foldl overlay l).rebase d = (ls.map (rebase d)).foldl overlay (l.rebase d) :=
  (List.foldl_map_hom fun a b => (rebase_overlay d a b).symm).symm

/-- What is anchored below the root stays where it is. -/
theorem rebase_rebase (hd : startsAtRoot d = true) (d' : Text) (l : Layer) : (l.rebase d).rebase d' = l.rebase d := by
  have hspecs : ∀ x : Option (List Text),
      (x.map (List.map (anchor d))).map (List.map (anchor d')) = x.map (List.map (anchor d)) := by
    intro x
    rw [Option.map_map, List.map_comp_map]
    congr 2
    exact funext (anchor_anchor hd d')
  simp only [rebase, mapSpecs, hspecs]

/-! ## Layers that hold nothing -/

/-- The layer holds nothing, as that of a config that only extends others. -/
def isEmpty : Layer → Bool
  | ⟨none, none, none, []⟩ => true
  | _ => false

theorem eq_empty (h : l.isEmpty = true) : l = {} := by
  unfold isEmpty at h
  split at h
  · rfl
  · cases h

theorem foldl_filter (ls : List Layer) (l : Layer) : (ls.filter (!·.isEmpty)).foldl overlay l = ls.foldl overlay l := by
  induction ls generalizing l with
  | nil => rfl
  | cons x ls ih =>
    cases hx : x.isEmpty with
    | true => rw [List.filter_cons_of_neg (by simp [hx]), ih, List.foldl_cons, eq_empty hx, overlay_empty]
    | false => rw [List.filter_cons_of_pos (by simp [hx]), List.foldl_cons, List.foldl_cons, ih]

end Layer

/-! ## What a config adds -/

/-- What one config declares, with its specs as written. -/
def declaredLayer (base : Text) (settings : Fields) : Layer where
  files := ownSpecs settings "files"
  includes := ownSpecs settings "include"
  excludes := ownSpecs settings "exclude"
  options := (checkedOptions (ownOptions settings)).values.map fun f => (f.1, resolvedAt base f.1 f.2)

theorem distinct_declaredLayer (base : Text) (settings : Fields) : (declaredLayer base settings).options.Distinct := by
  have hkeys : (declaredLayer base settings).options.map (·.1) = (checkedOptions (ownOptions settings)).values.map (·.1) := by
    simp [declaredLayer]
  rw [Fields.Distinct, hkeys]
  exact (settled_checkedOptions (ownOptions settings)).distinct

theorem declaredLayer_of_noOptions {settings : Fields} (hoptions : ownOptions settings = []) (base : Text) :
    declaredLayer base settings =
      { files := ownSpecs settings "files", includes := ownSpecs settings "include", excludes := ownSpecs settings "exclude" } := by
  rw [declaredLayer, hoptions, checkedOptions_nil]
  rfl

theorem regular_of_noOptions {settings : Fields} (hkeys : ∀ f ∈ settings, Text.hasSurrogate f.1 = false)
    (hoptions : ownOptions settings = []) (hentries : ∀ entry ∈ validEntries settings, ¬ IsDriveRooted entry) :
    Regular settings :=
  ⟨hkeys, by simp [hoptions], by simp [hoptions, Fields.get?], hentries⟩

variable {h : Host} {base : Text} {path : List Text}

theorem ownLayer_eq {config : Fields} {own : Layer} {entries : List Text} {ps : List Problem}
    (hrun : (ownLayer config base).run [] = .ok ((own, entries), ps)) : own = declaredLayer base config := by
  obtain ⟨top, problems, options, htop, hconvert, rfl, -, -⟩ := run_ownLayer_iff.mp hrun
  obtain ⟨-, rfl⟩ := convertOptions_ok_iff.mp hconvert
  rw [(topLevel_ok htop).1]
  rfl

/-- The layers of an ancestry in their order, each anchored at its own directory: those a config extends come before
it, and it comes before those that are extended after it. -/
def Ancestry.layers : Ancestry → List Layer
  | none => []
  | config d settings bases later => bases.layers ++ (declaredLayer d settings).rebase d :: later.layers

/-- The layers of an ancestry that hold anything. -/
def Ancestry.contributions (a : Ancestry) : List Layer := a.layers.filter (!·.isEmpty)

theorem Ancestry.distinct_layers (a : Ancestry) : ∀ l ∈ a.layers, l.options.Distinct := by
  induction a with
  | none => simp [layers]
  | config d settings bases later ihb ihl =>
    rw [layers, List.forall_mem_append, List.forall_mem_cons]
    exact ⟨ihb, distinct_declaredLayer d settings, ihl⟩

/-- The layers of an ancestry stay where they are. -/
theorem Ancestry.rebase_layers {a : Ancestry} (ha : a.All fun d _ => startsAtRoot d = true) (d' : Text) :
    a.layers.map (Layer.rebase d') = a.layers := by
  induction a with
  | none => rfl
  | config d settings bases later ihb ihl =>
    rw [layers, List.map_append, List.map_cons, ihb ha.2.1, ihl ha.2.2, Layer.rebase_rebase ha.1]

/-! ## Resolving -/

/-- Entries put the layers of their ancestry over any layer, one by one. -/
theorem Inherits.overlays {readable : List Text} (hr : Lists h readable) {entries : List Text} {a : Ancestry}
    (ha : Inherits h base path entries a) (hroot : a.All fun d _ => Path.startsAtRoot d = true)
    {rs : List (Option Layer × List Problem)}
    (hrs : List.Forall₂
      (fun entry r => (extendedLayer h (resolveLayer h h.readableFiles) base path entry).run [] = .ok r) entries rs)
    {l : Layer} (hl : l.options.Distinct) : (rs.filterMap (·.1)).foldl Layer.overlay l = a.layers.foldl Layer.overlay l := by
  induction ha generalizing rs l with
  | nil =>
    cases hrs
    rfl
  | skip hf _ ih =>
    obtain ⟨⟨l', ps⟩, rs, hentry, hrest, rfl⟩ := List.forall₂_cons_left_iff.mp hrs
    rcases run_extendedLayer_iff.mp hentry with ⟨_, -, rfl, -⟩ | ⟨_, _, _, hf', -, -⟩
    · exact ih hroot hrest hl
    · rw [hf] at hf'
      cases hf'
  | @config base path entry entries file settings bases later hf _ _ ihb ihl =>
    obtain ⟨⟨l', ps⟩, rs, hentry, hrest, rfl⟩ := List.forall₂_cons_left_iff.mp hrs
    obtain ⟨-, hbasesRoot, hlaterRoot⟩ := hroot
    rcases run_extendedLayer_iff.mp hentry with ⟨_, hf', -, -⟩ | ⟨_, _, layer, hf', hnext, rfl⟩
    · rw [hf] at hf'
      cases hf'
    · rw [hf] at hf'
      cases hf'
      rw [resolveLayer_fixed hr, run_layerOver_iff (collects_resolveLayer _)] at hnext
      obtain ⟨own, _, rsb, hown, hrsb, rfl, -⟩ := hnext
      have hown' : ((declaredLayer (directory file) settings).rebase (directory file)).options.Distinct :=
        distinct_declaredLayer (directory file) settings
      have hbases : (bases.layers.foldl Layer.overlay {}).options.Distinct := Layer.distinct_foldl Layer.distinct_empty bases.layers
      -- the layer of the entry, anchored: only what it declares itself is moved
      have hlayer : (((rsb.filterMap (·.1)).foldl Layer.overlay {}).overlay own).rebase (directory file) =
          (bases.layers.foldl Layer.overlay {}).overlay ((declaredLayer (directory file) settings).rebase (directory file)) := by
        rw [ihb hbasesRoot hrsb Layer.distinct_empty, ownLayer_eq hown, Layer.rebase_overlay, Layer.rebase_foldl,
          Ancestry.rebase_layers hbasesRoot]
        rfl
      calc (((some _, ps) :: rs).filterMap (·.1)).foldl Layer.overlay l
          = (rs.filterMap (·.1)).foldl Layer.overlay (l.overlay ((bases.layers.foldl Layer.overlay {}).overlay
              ((declaredLayer (directory file) settings).rebase (directory file)))) := by
            rw [← hlayer]
            rfl
        _ = later.layers.foldl Layer.overlay ((bases.layers.foldl Layer.overlay l).overlay
              ((declaredLayer (directory file) settings).rebase (directory file))) := by
            rw [ihl hlaterRoot hrest (Layer.distinct_overlay hl _), ← Layer.overlay_assoc hl hbases hown',
              ← Layer.foldl_overlay hl bases.distinct_layers]
        _ = (Ancestry.config (directory file) settings bases later).layers.foldl Layer.overlay l := by
            rw [Ancestry.layers, List.foldl_append, List.foldl_cons]

/-- The layer of a config is what it declares over the layers of its ancestry, in one row. -/
theorem resolveLayer_eq_overlay {readable : List Text} (hr : Lists h readable) {config : Fields} {a : Ancestry}
    (ha : Inherits h base path (validEntries config) a) (hroot : a.All fun d _ => startsAtRoot d = true) {layer : Layer}
    {ps : List Problem} (hrun : (resolveLayer h h.readableFiles config base path).run [] = .ok (layer, ps)) :
    layer = (a.contributions.foldl Layer.overlay {}).overlay (declaredLayer base config) := by
  rw [resolveLayer_fixed hr, run_layerOver_iff (collects_resolveLayer _)] at hrun
  obtain ⟨own, _, rs, hown, hrs, rfl, -⟩ := hrun
  rw [ha.overlays hr hroot hrs Layer.distinct_empty, ownLayer_eq hown, Ancestry.contributions, Layer.foldl_filter]

/-- A config below the root with its ancestry, and nothing in them that stops resolution. -/
structure Resolvable (h : Host) (base : Text) (path : List Text) (config : Fields) (a : Ancestry) : Prop where
  lists : ∃ readable, Lists h readable
  root : startsAtRoot base = true
  regular : Regular config
  inherits : Inherits h base path (validEntries config) a
  ancestors : a.All fun _ settings => Regular settings

theorem Resolvable.run {config : Fields} {a : Ancestry} (hres : Resolvable h base path config a) :
    ∃ problems, (resolveLayer h h.readableFiles config base path).run [] =
      .ok ((a.contributions.foldl Layer.overlay {}).overlay (declaredLayer base config), problems) := by
  obtain ⟨⟨readable, hr⟩, hbase, hconfig, ha, hregular⟩ := hres
  obtain ⟨layer, problems, hrun, -⟩ := resolveLayer_shows hr hconfig ha hregular hbase
  have hroot := ha.startsAtRoot hbase hconfig.entries hregular
  exact ⟨problems, resolveLayer_eq_overlay hr ha hroot hrun ▸ hrun⟩

/-- Layers over one another are a monoid, with the order of the option keys, and anchoring them goes through it and
happens once. So a config has the same layer however it comes to inherit the same: what it declares, over what its
ancestry contributes in a row. Which configs hand that on, at what depth and on whose behalf, does not show. -/
theorem layer_monoid :
    (∀ a b c : Layer, a.options.Distinct → b.options.Distinct → c.options.Distinct →
      (a.overlay b).overlay c = a.overlay (b.overlay c) ∧ (a.overlay b).options.Distinct) ∧
    (∀ a : Layer, a.options.Distinct → ({} : Layer).overlay a = a ∧ a.overlay {} = a) ∧
    (∀ d (a b : Layer), (a.overlay b).rebase d = (a.rebase d).overlay (b.rebase d)) ∧
    (∀ d, startsAtRoot d = true → ∀ d' (a : Layer), (a.rebase d).rebase d' = a.rebase d) ∧
    ∀ {h h' : Host} {base : Text} {path path' : List Text} {config config' : Fields} {a a' : Ancestry},
      Resolvable h base path config a → Resolvable h' base path' config' a' →
      declaredLayer base config' = declaredLayer base config → a'.contributions = a.contributions →
      ∃ layer problems problems', layer = (a.contributions.foldl Layer.overlay {}).overlay (declaredLayer base config) ∧
        (resolveLayer h h.readableFiles config base path).run [] = .ok (layer, problems) ∧
        (resolveLayer h' h'.readableFiles config' base path').run [] = .ok (layer, problems') := by
  refine ⟨fun a b c ha hb hc => ⟨Layer.overlay_assoc ha hb hc, Layer.distinct_overlay ha b⟩,
    fun a ha => ⟨Layer.empty_overlay ha, Layer.overlay_empty a⟩, Layer.rebase_overlay,
    fun d hd d' a => Layer.rebase_rebase hd d' a, ?_⟩
  intro h h' base path path' config config' a a' hres hres' hdeclared hcontributions
  obtain ⟨problems, hrun⟩ := hres.run
  obtain ⟨problems', hrun'⟩ := hres'.run
  rw [hdeclared, hcontributions] at hrun'
  exact ⟨_, problems, problems', rfl, hrun, hrun'⟩

/-- Two configs, one of them in `lib`, and a third there that does nothing but extend both. -/
def groupedLibrary : Host := Host.Memory.host
  { files := [(Text.of "/p/a.json", some (Text.of "\x7b\"files\": [\"x.ts\"], \"include\": [\"old\"]\x7d")),
      (Text.of "/p/lib/b.json", some (Text.of "\x7b\"include\": [\"../src\", \"\"]\x7d")),
      (Text.of "/p/lib/both.json", some (Text.of "\x7b\"extends\": [\"../a.json\", \"./b.json\"]\x7d"))] }

def librarySettings : Fields := [(Text.of "files", .texts [Text.of "x.ts"]), (Text.of "include", .texts [Text.of "old"])]

def innerSettings : Fields := [(Text.of "include", .texts [Text.of "../src", []])]

def bothSettings : Fields := [(Text.of "extends", .texts [Text.of "../a.json", Text.of "./b.json"])]

theorem load_groupedLibrary : load groupedLibrary.text? (Text.of "/p/a.json") = .ok librarySettings ∧
    load groupedLibrary.text? (Text.of "/p/lib/b.json") = .ok innerSettings ∧
    load groupedLibrary.text? (Text.of "/p/lib/both.json") = .ok bothSettings := by
  refine ⟨?_, ?_, ?_⟩ <;> cbv

/-- The two configs, extended one after the other. -/
def listedAncestry : Ancestry :=
  .config (Text.of "/p") librarySettings .none (.config (Text.of "/p/lib") innerSettings .none .none)

def extendsListed : Fields :=
  [(Text.of "extends", .texts [Text.of "./a.json", Text.of "./lib/b.json"]), (Text.of "exclude", .texts [Text.of "tmp"])]

/-- The two configs, extended through the third. -/
def groupedAncestry : Ancestry := .config (Text.of "/p/lib") bothSettings listedAncestry .none

def extendsGrouped : Fields :=
  [(Text.of "extends", .text (Text.of "./lib/both.json")), (Text.of "exclude", .texts [Text.of "tmp"])]

theorem regular_groupedLibrary : Regular librarySettings ∧ Regular innerSettings ∧ Regular bothSettings :=
  ⟨regular_of_noOptions (by decide) rfl (by decide), regular_of_noOptions (by decide) rfl (by decide),
    regular_of_noOptions (by decide) rfl (by decide)⟩

theorem resolvable_listed : Resolvable groupedLibrary (Text.of "/p") [] extendsListed listedAncestry := by
  obtain ⟨hlibrary, hinner, -⟩ := load_groupedLibrary
  obtain ⟨hlibrary', hinner', -⟩ := regular_groupedLibrary
  have hinherits : Inherits groupedLibrary (Text.of "/p") [] (validEntries extendsListed) listedAncestry :=
    .config (follow_eq_ok rfl rfl hlibrary) .nil (.config (follow_eq_ok rfl rfl hinner) .nil .nil)
  exact ⟨⟨_, lists_memory _⟩, rfl, regular_of_noOptions (by decide) rfl (by decide), hinherits, hlibrary', trivial, hinner',
    trivial, trivial⟩

theorem resolvable_grouped : Resolvable groupedLibrary (Text.of "/p") [] extendsGrouped groupedAncestry := by
  obtain ⟨hlibrary, hinner, hboth⟩ := load_groupedLibrary
  obtain ⟨-, -, hboth'⟩ := regular_groupedLibrary
  have hbases : Inherits groupedLibrary (Text.of "/p/lib") [Text.of "/p/lib/both.json"] (validEntries bothSettings)
      listedAncestry :=
    .config (follow_eq_ok rfl (by decide) hlibrary) .nil (.config (follow_eq_ok rfl (by decide) hinner) .nil .nil)
  have hinherits : Inherits groupedLibrary (Text.of "/p") [] (validEntries extendsGrouped) groupedAncestry :=
    .config (follow_eq_ok rfl rfl hboth) hbases .nil
  exact ⟨⟨_, lists_memory _⟩, rfl, regular_of_noOptions (by decide) rfl (by decide), hinherits, hboth',
    resolvable_listed.ancestors, trivial⟩

theorem contributions_listed : listedAncestry.contributions =
    [{ files := some [Text.of "/p/x.ts"], includes := some [Text.of "/p/old"] },
     { includes := some [Text.of "/p/src", Text.of "/p/lib"] }] := by
  simp only [listedAncestry, Ancestry.contributions, Ancestry.layers]
  rw [declaredLayer_of_noOptions rfl, declaredLayer_of_noOptions rfl]
  rfl

/-- The third config holds nothing itself. -/
theorem contributions_grouped : groupedAncestry.contributions = listedAncestry.contributions := by
  have hboth : ((declaredLayer (Text.of "/p/lib") bothSettings).rebase (Text.of "/p/lib")).isEmpty = true := by
    rw [declaredLayer_of_noOptions rfl]
    rfl
  simp [groupedAncestry, Ancestry.contributions, Ancestry.layers, hboth]

/-- The laws for three layers of which each sets what another one sets too; and the same specs, come home through the
config that extends both and without it. -/
theorem layer_monoid_grouped :
    let a : Layer := { files := some [Text.of "x.ts"], options := [(Text.of "strict", .bool true), (Text.of "noEmit", .null)] }
    let b : Layer := { includes := some [Text.of "..\\src", []], options := [(Text.of "strict", .bool false)] }
    let c : Layer := { includes := some [Text.of "lib"], options := [(Text.of "outDir", .null), (Text.of "noEmit", .bool true)] }
    let layer : Layer :=
      { files := some [Text.of "/p/x.ts"]
        includes := some [Text.of "/p/src", Text.of "/p/lib"]
        excludes := some [Text.of "tmp"] }
    (a.overlay b).overlay c = a.overlay (b.overlay c) ∧ (({} : Layer).overlay a = a ∧ a.overlay {} = a) ∧
      (a.overlay b).rebase (Text.of "/p/lib") = (a.rebase (Text.of "/p/lib")).overlay (b.rebase (Text.of "/p/lib")) ∧
      (b.rebase (Text.of "/p/lib")).rebase (Text.of "/q") = b.rebase (Text.of "/p/lib") ∧
      ∃ problems problems',
        (resolveLayer groupedLibrary groupedLibrary.readableFiles extendsListed (Text.of "/p") []).run [] = .ok (layer, problems) ∧
        (resolveLayer groupedLibrary groupedLibrary.readableFiles extendsGrouped (Text.of "/p") []).run [] =
          .ok (layer, problems') := by
  intro a b c layer
  obtain ⟨hassoc, hempty, hthrough, honce, hinherit⟩ := layer_monoid
  have hdistinct : a.options.Distinct ∧ b.options.Distinct ∧ c.options.Distinct := by
    unfold Fields.Distinct
    decide
  obtain ⟨ha, hb, hc⟩ := hdistinct
  have hlisted : declaredLayer (Text.of "/p") extendsListed = { excludes := some [Text.of "tmp"] } := by
    rw [declaredLayer_of_noOptions rfl]
    rfl
  have hgrouped : declaredLayer (Text.of "/p") extendsGrouped = declaredLayer (Text.of "/p") extendsListed := by
    rw [hlisted, declaredLayer_of_noOptions rfl]
    rfl
  obtain ⟨inherited, problems, problems', hinherited, hrun, hrun'⟩ :=
    hinherit resolvable_listed resolvable_grouped hgrouped contributions_grouped
  rw [contributions_listed, hlisted] at hinherited
  obtain rfl : inherited = layer := hinherited
  exact ⟨(hassoc a b c ha hb hc).1, hempty a ha, hthrough _ a b, honce _ rfl _ b, problems, problems', hrun, hrun'⟩

end TsProject.Config
