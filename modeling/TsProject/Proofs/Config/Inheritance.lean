/-
  TsProject.Proofs.Config.Inheritance — a config means what it says together with all it
  extends.

  The configs a config extends, each with those it extends in turn, are its ancestry. A
  config that cannot be found or read, or that closes a circle, is not in it. An option
  has the value the config itself validly declares, or else the one it has in the last
  ancestor that has it, its paths read against the directory of the config that declares
  it; the same goes for the lists of specs, and the root files are those of these lists.

  - `exists_inherits`: every config has an ancestry, and only one.
  - `anchor_anchor`: a spec that is anchored stays where it is.
  - `resolveLayer_shows`: the layer of a config shows what the config and its ancestry declare.
  - `resolve_flattens`: resolving gives what a single config with all of that would give.
-/

import TsProject.Config.Resolution
import TsProject.Proofs.Config.Extends
import TsProject.Proofs.Config.Validation
import TsProject.Proofs.Path
import Mathlib

namespace TsProject.Config

open TsProject.Path

/-! ## What a config declares -/

/-- The options of one config, valid or not. -/
def ownOptions (settings : Fields) : Fields := (setting settings "compilerOptions" checkObject).1.getD []

/-- The value one config validly gives an option, with its paths read against a directory. -/
def ownOption (directory : Text) (settings : Fields) (key : Text) : Option Value :=
  (knownSpec? key).bind fun o => (declared? (ownOptions settings) o).map (o.type.resolved directory)

/-- The specs one config validly lists under a name. -/
def ownSpecs (settings : Fields) (key : String) : Option (List Text) := (setting settings key checkTextList).1

/-- Specs as they are seen from anywhere else. -/
def anchoredSpecs (directory : Text) (settings : Fields) (key : String) : Option (List Text) :=
  (ownSpecs settings key).map (List.map (Layer.anchor directory))

/-- Nothing in a config by itself stops resolution: keys are valid text and no list of paths is null. -/
structure Sound (settings : Fields) : Prop where
  keys : ∀ f ∈ settings, Text.hasSurrogate f.1 = false
  optionKeys : ∀ f ∈ ownOptions settings, Text.hasSurrogate f.1 = false
  lists : ∀ key ∈ pathLists, (ownOptions settings).get? key ≠ some .null

/-- Nothing in a config stops resolution: keys are valid text, no list of paths is null, and no entry
names a drive. -/
structure Regular (settings : Fields) : Prop where
  keys : ∀ f ∈ settings, Text.hasSurrogate f.1 = false
  optionKeys : ∀ f ∈ ownOptions settings, Text.hasSurrogate f.1 = false
  lists : ∀ key ∈ pathLists, (ownOptions settings).get? key ≠ some .null
  entries : ∀ entry ∈ validEntries settings, ¬ IsDriveRooted entry

theorem Regular.sound {settings : Fields} (hs : Regular settings) : Sound settings := ⟨hs.keys, hs.optionKeys, hs.lists⟩

/-! ## Ancestry -/

/-- The configs that some entries lead to, first entry first, each with its directory and with those it
extends in turn. -/
inductive Ancestry where
  | none
  | config (directory : Text) (settings : Fields) (bases later : Ancestry)

namespace Ancestry

/-- What the last config has that has it at all: itself, or from those it extends. -/
def last {α : Type} (own : Text → Fields → Option α) : Ancestry → Option α
  | none => Option.none
  | config directory settings bases later => (later.last own).or ((own directory settings).or (bases.last own))

def All (p : Text → Fields → Prop) : Ancestry → Prop
  | none => True
  | config directory settings bases later => p directory settings ∧ bases.All p ∧ later.All p

end Ancestry

/-- The ancestry of a config in a directory, given its entries and the files on the way to it. -/
inductive Inherits (h : Host) : Text → List Text → List Text → Ancestry → Prop
  | nil {base : Text} {path : List Text} : Inherits h base path [] .none
  | skip {base : Text} {path : List Text} {entry : Text} {entries : List Text} {problem : Problem} {later : Ancestry} :
      follow h base path entry = .error problem → Inherits h base path entries later →
      Inherits h base path (entry :: entries) later
  | config {base : Text} {path : List Text} {entry : Text} {entries : List Text} {file : Text} {settings : Fields}
      {bases later : Ancestry} : follow h base path entry = .ok (file, settings) →
      Inherits h (directory file) (path ++ [file]) (validEntries settings) bases → Inherits h base path entries later →
      Inherits h base path (entry :: entries) (.config (directory file) settings bases later)

variable {h : Host} {base : Text} {path : List Text}

theorem Inherits.unique {entries : List Text} {a b : Ancestry} (ha : Inherits h base path entries a)
    (hb : Inherits h base path entries b) : b = a := by
  induction ha generalizing b with
  | nil =>
    cases hb
    rfl
  | skip hf _ ih =>
    cases hb with
    | skip _ hl => exact ih hl
    | config hf' => rw [hf] at hf'; cases hf'
  | config hf _ _ ihb ihl =>
    cases hb with
    | skip hf' => rw [hf] at hf'; cases hf'
    | config hf' hbases hlater =>
      rw [hf] at hf'
      cases hf'
      rw [ihb hbases, ihl hlater]

/-- Every config has one ancestry. -/
theorem exists_inherits {readable : List Text} (hr : Lists h readable) (config : Fields) (base : Text)
    (path : List Text) : ∃ a, ∀ b, Inherits h base path (validEntries config) b ↔ b = a := by
  have hexists : ∃ a, Inherits h base path (validEntries config) a := by
    induction config, base, path using extends_induction hr with
    | step config base path ih =>
      generalize validEntries config = entries at ih
      induction entries with
      | nil => exact ⟨_, .nil⟩
      | cons entry entries ihe =>
        obtain ⟨later, hlater⟩ := ihe fun e he => ih e (List.mem_cons_of_mem _ he)
        cases hf : follow h base path entry with
        | error problem => exact ⟨_, .skip hf hlater⟩
        | ok r =>
          obtain ⟨bases, hbases⟩ := ih entry List.mem_cons_self r.1 r.2 hf
          exact ⟨_, .config hf hbases hlater⟩
  obtain ⟨a, ha⟩ := hexists
  exact ⟨a, fun b => ⟨ha.unique, fun e => e ▸ ha⟩⟩

/-! ## Directories -/

theorem startsAtRoot_append {p : Text} (hp : startsAtRoot p = true) (t : Text) : startsAtRoot (p ++ t) = true := by
  obtain ⟨s, rfl⟩ := startsAtRoot_iff.mp hp
  rfl

theorem startsAtRoot_resolve {p d : Text} (hd : startsAtRoot d = true) (hp : ¬ IsDriveRooted p) :
    startsAtRoot (Path.resolve p d) = true := by
  obtain ⟨ns, hns, -⟩ := exists_resolve_eq_absolute hd hp
  rw [hns]
  exact startsAtRoot_absolute ns

theorem startsAtRoot_of_mem_enclosing {d : Text} (hd : startsAtRoot d = true) :
    ∀ e ∈ enclosing d, startsAtRoot e = true := by
  induction d using enclosing.induct with
  | case1 d above ih =>
    rw [enclosing, List.forall_mem_cons]
    refine ⟨hd, ?_⟩
    by_cases hlt : above.length < d.length
    · rw [if_pos hlt]
      exact ih hlt (startsAtRoot_directory hd)
    · rw [if_neg hlt]
      simp

theorem startsAtRoot_packageRoot {d : Text} (hd : startsAtRoot d = true) (spec : Text) :
    startsAtRoot (packageRoot d spec) = true := by
  obtain ⟨t, rfl⟩ := startsAtRoot_iff.mp hd
  unfold packageRoot
  rcases List.prefix_cons_iff.mp (Text.trimEnd_prefix (· == CodePoint.slash) _) with htrim | ⟨s, htrim, -⟩
  · rw [htrim]
    rfl
  · rw [htrim]
    rfl

theorem startsAtRoot_of_mem_packageCandidates {d spec path : Text} (hd : startsAtRoot d = true)
    (hp : path ∈ packageCandidates h spec d) : startsAtRoot path = true := by
  have hroot := startsAtRoot_packageRoot hd spec
  simp only [packageCandidates, List.mem_append, List.mem_cons, List.not_mem_nil, or_false, Option.mem_toList,
    Option.map_eq_some_iff] at hp
  rcases hp with ((rfl | rfl) | ⟨declared, -, rfl⟩) | rfl
  · exact hroot
  · exact startsAtRoot_append hroot _
  · exact startsAtRoot_normalize (startsAtRoot_append hroot _)
  · exact startsAtRoot_append hroot _

/-- An entry that names no drive leads to a file below the root. -/
theorem startsAtRoot_of_extendsPath {entry file : Text} (hbase : startsAtRoot base = true) (hentry : ¬ IsDriveRooted entry)
    (hp : extendsPath h entry base = .ok file) : startsAtRoot file = true := by
  have hentry' : ¬ IsDriveRooted (forwardSlashes entry) := by
    rw [IsDriveRooted, isRooted_forwardSlashes, forwardSlashes_forwardSlashes]
    exact hentry
  have hresolve := startsAtRoot_resolve hbase hentry'
  unfold extendsPath at hp
  simp only at hp
  split at hp
  · split at hp
    · cases hp
      exact hresolve
    · split at hp
      · cases hp
        exact startsAtRoot_append hresolve _
      · cases hp
  · split at hp
    · cases hp
    · split at hp
      · rename_i path hpackage
        cases hp
        obtain ⟨d, hd, hmem⟩ := List.mem_flatMap.mp (List.mem_of_find?_eq_some hpackage)
        have hd' := startsAtRoot_of_mem_enclosing (startsAtRoot_normalize hbase) d hd
        exact startsAtRoot_of_mem_packageCandidates hd' hmem
      · cases hp

/-- The directories of an ancestry are below the root. -/
theorem Inherits.startsAtRoot {entries : List Text} {a : Ancestry} (ha : Inherits h base path entries a)
    (hbase : startsAtRoot base = true) (hentries : ∀ entry ∈ entries, ¬ IsDriveRooted entry)
    (hregular : a.All fun _ settings => Regular settings) : a.All fun d _ => Path.startsAtRoot d = true := by
  induction ha with
  | nil => trivial
  | skip _ _ ih => exact ih hbase (List.forall_mem_cons.mp hentries).2 hregular
  | config hf _ _ ihb ihl =>
    obtain ⟨hentry, hlater⟩ := List.forall_mem_cons.mp hentries
    obtain ⟨hsettings, hbases', hlater'⟩ := hregular
    have hdirectory := startsAtRoot_directory (startsAtRoot_of_extendsPath hbase hentry (follow_ok hf).1)
    exact ⟨hdirectory, ihb hdirectory hsettings.entries hbases', ihl hbase hlater hlater'⟩

/-! ## Anchored specs -/

/-- A spec that is anchored stays where it is, wherever it is inherited. -/
theorem anchor_anchor {d : Text} (hd : startsAtRoot d = true) (d' spec : Text) :
    Layer.anchor d' (Layer.anchor d spec) = Layer.anchor d spec := by
  by_cases hfixed : (Text.startsWith spec configDirTemplate || isRooted spec) = true
  · simp only [Layer.anchor, hfixed, if_true]
  · have hmoved : Layer.anchor d spec = Path.resolve spec d := by rw [Layer.anchor, if_neg hfixed]
    have hrelative : ¬ isRooted spec = true := fun hr => hfixed (by simp [hr])
    have hrooted := isRooted_of_startsAtRoot (startsAtRoot_resolve (p := spec) hd fun hdrive => hrelative hdrive.1)
    rw [hmoved, Layer.anchor, if_pos (by simp [hrooted])]

theorem map_anchor_anchoredSpecs {d : Text} (hd : startsAtRoot d = true) (d' : Text) (settings : Fields) (key : String) :
    (anchoredSpecs d settings key).map (List.map (Layer.anchor d')) = anchoredSpecs d settings key := by
  rw [anchoredSpecs, Option.map_map]
  congr 1
  funext specs
  simp only [Function.comp_apply, List.map_map]
  exact List.map_congr_left fun spec _ => anchor_anchor hd d' spec

theorem map_anchor_last {a : Ancestry} (ha : a.All fun d _ => startsAtRoot d = true) (d' : Text) (key : String) :
    (a.last (anchoredSpecs · · key)).map (List.map (Layer.anchor d')) = a.last (anchoredSpecs · · key) := by
  induction a with
  | none => rfl
  | config d settings bases later ihb ihl =>
    simp only [Ancestry.last, Option.map_or]
    rw [ihl ha.2.2, map_anchor_anchoredSpecs ha.1, ihb ha.2.1]

/-! ## Effective layers -/

/-- The value an option has by a config and its ancestry. -/
def effectiveOption (base : Text) (config : Fields) (a : Ancestry) (key : Text) : Option Value :=
  (ownOption base config key).or (a.last (ownOption · · key))

theorem effectiveOption_known {o : OptionSpec} (ho : o ∈ optionSpecs) (base : Text) (config : Fields) (a : Ancestry) :
    effectiveOption base config a o.key = ((declared? (ownOptions config) o).map (o.type.resolved base)).or
      (a.last fun d settings => (declared? (ownOptions settings) o).map (o.type.resolved d)) := by
  simp only [effectiveOption, ownOption, knownSpec?_key ho, Option.bind_some]

/-- The specs listed by a config, as written, or else by its ancestry. -/
def effectiveSpecs (config : Fields) (a : Ancestry) (key : String) : Option (List Text) :=
  (ownSpecs config key).or (a.last (anchoredSpecs · · key))

/-- The options and specs of a layer. -/
structure Layer.Shows (l : Layer) (option : Text → Option Value) (specs : String → Option (List Text)) : Prop where
  settled : Settled l.options
  option : ∀ key, l.options.get? key = option key
  files : l.files = specs "files"
  includes : l.includes = specs "include"
  excludes : l.excludes = specs "exclude"

theorem Layer.shows_empty : Layer.Shows {} (fun _ => none) (fun _ => none) := ⟨settled_nil, fun _ => rfl, rfl, rfl, rfl⟩

variable {l l' : Layer} {option option' : Text → Option Value} {specs specs' : String → Option (List Text)}

theorem Layer.Shows.overlay (hl : l.Shows option specs) (hl' : l'.Shows option' specs') :
    (l.overlay l').Shows (fun key => (option' key).or (option key)) (fun key => (specs' key).or (specs key)) where
  settled := hl.settled.merge hl'.settled
  option key := by
    change (l.options.merge l'.options).get? key = _
    rw [Fields.get?_merge hl'.settled.distinct, hl.option, hl'.option]
  files := by
    rw [← hl.files, ← hl'.files]
    exact Option.orElse_eq_or
  includes := by
    rw [← hl.includes, ← hl'.includes]
    exact Option.orElse_eq_or
  excludes := by
    rw [← hl.excludes, ← hl'.excludes]
    exact Option.orElse_eq_or

theorem Layer.Shows.rebase (hl : l.Shows option specs) (d : Text) :
    (l.rebase d).Shows option (fun key => (specs key).map (List.map (Layer.anchor d))) where
  settled := hl.settled
  option := hl.option
  files := congrArg (Option.map (List.map (Layer.anchor d))) hl.files
  includes := congrArg (Option.map (List.map (Layer.anchor d))) hl.includes
  excludes := congrArg (Option.map (List.map (Layer.anchor d))) hl.excludes

/-! ## Resolving -/

theorem topLevel_of_validKeys {config : Fields} (hkeys : ∀ f ∈ config, Text.hasSurrogate f.1 = false) :
    ∃ top problems, topLevel config = .ok (top, problems) := by
  have hk := validKeys_iff.mp hkeys
  rw [topLevel, if_neg hk]
  exact ⟨_, _, rfl⟩

/-- The layer of a config by itself. -/
theorem ownLayer_shows {config : Fields} (hc : Sound config) (base : Text) :
    ∃ own problems, (ownLayer config base).run [] = .ok ((own, validEntries config), problems) ∧
      own.Shows (ownOption base config) (ownSpecs config) := by
  obtain ⟨top, problems, htop⟩ := topLevel_of_validKeys hc.keys
  obtain ⟨htop', -⟩ := topLevel_ok htop
  have hoptions : top.options = ownOptions config := by rw [htop']; rfl
  have hconvert := convertOptions_regular hc.optionKeys hc.lists base
  rw [← hoptions] at hconvert
  refine ⟨_, _, run_ownLayer_iff.mpr ⟨top, problems, _, htop, hconvert, rfl, (entries_of_topLevel htop).symm, rfl⟩, ?_⟩
  exact
    { settled := (settled_checkedOptions top.options).map fun o ho v hv => by
        rw [resolvedAt_key ho]
        exact hv.resolved base
      option := fun key => by
        change Fields.get? ((checkedOptions top.options).values.map _) key = _
        rw [Fields.get?_map, get?_checkedOptions, ownOption, hoptions]
        cases hk : knownSpec? key with
        | none => rfl
        | some o =>
          obtain ⟨ho, rfl⟩ := knownSpec?_some hk
          have hresolved : resolvedAt base o.key = o.type.resolved base := funext (resolvedAt_key ho base)
          simp only [Option.bind_some, hresolved]
      files := by rw [htop']; rfl
      includes := by rw [htop']; rfl
      excludes := by rw [htop']; rfl }

/-- A config over what its entries give. -/
theorem resolveLayer_of_runs {readable : List Text} (hr : Lists h readable) {config : Fields} (hc : Regular config)
    {a : Ancestry} {rs : List (Option Layer × List Problem)}
    (hrs : List.Forall₂ (fun entry r => (extendedLayer h (resolveLayer h h.readableFiles) base path entry).run [] = .ok r)
      (validEntries config) rs)
    (hshows : ((rs.filterMap (·.1)).foldl Layer.overlay {}).Shows (fun key => a.last (ownOption · · key))
      (fun key => a.last (anchoredSpecs · · key))) :
    ∃ layer problems, (resolveLayer h h.readableFiles config base path).run [] = .ok (layer, problems) ∧
      layer.Shows (effectiveOption base config a) (effectiveSpecs config a) := by
  obtain ⟨own, problems, hown, hownShows⟩ := ownLayer_shows hc.sound base
  have hrun := (run_layerOver_iff (collects_resolveLayer h.readableFiles)).mpr ⟨own, problems, rs, hown, hrs, rfl, rfl⟩
  rw [← resolveLayer_fixed hr] at hrun
  exact ⟨_, _, hrun, hshows.overlay hownShows⟩

/-- The entries of a config succeed, and put what its ancestry declares over any layer. -/
theorem Inherits.runs {readable : List Text} (hr : Lists h readable) {entries : List Text} {a : Ancestry}
    (ha : Inherits h base path entries a) (hregular : a.All fun _ settings => Regular settings)
    (hroot : a.All fun d _ => Path.startsAtRoot d = true) :
    ∃ rs, List.Forall₂
        (fun entry r => (extendedLayer h (resolveLayer h h.readableFiles) base path entry).run [] = .ok r) entries rs ∧
      ∀ {l : Layer} {option : Text → Option Value} {specs : String → Option (List Text)}, l.Shows option specs →
        ((rs.filterMap (·.1)).foldl Layer.overlay l).Shows (fun key => (a.last (ownOption · · key)).or (option key))
          (fun key => (a.last (anchoredSpecs · · key)).or (specs key)) := by
  induction ha with
  | nil => exact ⟨[], .nil, fun hl => hl⟩
  | skip hf _ ih =>
    obtain ⟨rs, hrs, hfold⟩ := ih hregular hroot
    exact ⟨_ :: rs, .cons (run_extendedLayer_iff.mpr (Or.inl ⟨_, hf, rfl, rfl⟩)) hrs, hfold⟩
  | @config base path entry entries file settings bases later hf _ _ ihb ihl =>
    obtain ⟨hsettings, hbases, hlater⟩ := hregular
    obtain ⟨hdirectory, hbasesRoot, hlaterRoot⟩ := hroot
    obtain ⟨rsb, hrsb, hfoldb⟩ := ihb hbases hbasesRoot
    obtain ⟨rs, hrs, hfold⟩ := ihl hlater hlaterRoot
    have hempty : ((rsb.filterMap (·.1)).foldl Layer.overlay {}).Shows (fun key => bases.last (ownOption · · key))
        (fun key => bases.last (anchoredSpecs · · key)) := by
      simpa using hfoldb Layer.shows_empty
    obtain ⟨layer, problems, hrun, hlayer⟩ := resolveLayer_of_runs hr hsettings hrsb hempty
    refine ⟨(some (layer.rebase (directory file)), problems) :: rs, .cons ?_ hrs, fun {l option specs} hl => ?_⟩
    · exact run_extendedLayer_iff.mpr (Or.inr ⟨file, settings, layer, hf, hrun, rfl⟩)
    · -- what is anchored further down stays where it is
      have hspecs : ∀ key, (effectiveSpecs settings bases key).map (List.map (Layer.anchor (directory file))) =
          (anchoredSpecs (directory file) settings key).or (bases.last (anchoredSpecs · · key)) := by
        intro key
        rw [effectiveSpecs, Option.map_or, map_anchor_last hbasesRoot, anchoredSpecs]
      have hover := hfold (hl.overlay (hlayer.rebase (directory file)))
      simp only [hspecs, effectiveOption] at hover
      simpa only [List.filterMap_cons, List.foldl_cons, Ancestry.last, Option.or_assoc] using hover

/-- Resolving a config succeeds, and its layer shows what the config and its ancestry declare. -/
theorem resolveLayer_shows {readable : List Text} (hr : Lists h readable) {config : Fields} (hc : Regular config)
    {a : Ancestry} (ha : Inherits h base path (validEntries config) a)
    (hregular : a.All fun _ settings => Regular settings) (hbase : startsAtRoot base = true) :
    ∃ layer problems, (resolveLayer h h.readableFiles config base path).run [] = .ok (layer, problems) ∧
      layer.Shows (effectiveOption base config a) (effectiveSpecs config a) := by
  obtain ⟨rs, hrs, hfold⟩ := ha.runs hr hregular (ha.startsAtRoot hbase hc.entries hregular)
  exact resolveLayer_of_runs hr hc hrs (by simpa using hfold Layer.shows_empty)

/-- The options of a layer are valid over valid ones, and decide where they are set. -/
theorem effectiveOptions_of_settled (hl : Settled l.options) {existing : Option Options}
    (hexisting : ∀ o ∈ existing, Settled o.values) (base : Text) :
    ∃ options, effectiveOptions base existing l = .ok options ∧ ∀ key, options.values.get? key =
      ((l.options.get? key).map (substitute base)).or (existing.bind (·.values.get? key)) := by
  have hinherited : Settled ((existing.map Options.values).getD []) := by
    cases existing with
    | none => exact settled_nil
    | some o => exact hexisting o rfl
  have hown : Settled (l.options.map fun f => (f.1, substitute base f.2)) :=
    hl.map (g := fun _ => substitute base) fun _ _ _ hv => hv.substitute base
  obtain ⟨options, hoptions, hget⟩ := ofFields_of_settled (hinherited.merge hown)
  refine ⟨options, hoptions, fun key => ?_⟩
  have hexistingGet : Fields.get? ((existing.map Options.values).getD []) key = existing.bind (·.values.get? key) := by
    cases existing with
    | none => rfl
    | some o => rfl
  rw [hget, Fields.get?_merge hown.distinct, Fields.get?_map fun _ => substitute base, hexistingGet]

/-- The options that resolving gives may exist already when another config is resolved. -/
theorem settled_resolve {r : Request} {res : Resolution} (hres : resolve h r = .ok res) : Settled res.options.values := by
  obtain ⟨layer, problems, options, -, hoptions, rfl⟩ := resolve_ok_iff.mp hres
  have hsettled : Settled options.values := settled_of_ofFields hoptions
  exact hsettled

/-- The lists of specs of a config and its ancestry. -/
def effectiveLists (config : Fields) (a : Ancestry) : Layer where
  files := effectiveSpecs config a "files"
  includes := effectiveSpecs config a "include"
  excludes := effectiveSpecs config a "exclude"

/-- The root files by a config and its ancestry: of the files they list, and of what their includes find beside
their excludes. Without files and includes everything is included, and without excludes the output directories
are excluded; the directory of the config is put in for its template, and refused specs are left out. -/
def effectiveFiles (h : Host) (r : Request) (a : Ancestry) (options : Options) : List Text :=
  let base := normalize r.base
  let specs (key : String) := (effectiveSpecs r.config a key).map (List.map (substituteText base))
  let includes := if specs "files" = none ∧ specs "include" = none then [everything] else (specs "include").getD []
  let excludes := (specs "exclude").getD (outputDirectories options)
  rootFiles h options base ((specs "files").getD []) (validSpecs true includes) (validSpecs false excludes)

/-- Resolving a config that extends others gives what one config would give that declares all that is
effective: each option as the config itself validly declares it, or else the last of those it extends in
which it is effective, over the options that exist already; each list of specs likewise, inherited ones
anchored at the directory of the config that declares them. Its own specs stay as written: they are read
against its directory anyway, and problems quote them. The root files are those of the effective lists. -/
theorem resolve_flattens {readable : List Text} (hr : Lists h readable) {r : Request} (hbase : startsAtRoot r.base = true)
    (hconfig : Regular r.config) (hexisting : ∀ o ∈ r.existing, Settled o.values) :
    ∃ a, (∀ b, Inherits h (normalize r.base) r.way (validEntries r.config) b ↔ b = a) ∧
      ((a.All fun _ settings => Regular settings) → ∃ res options problems,
        resolve h r = .ok res ∧ res = conclude h r (effectiveLists r.config a) options problems ∧
        res.fileNames = effectiveFiles h r a res.options ∧
        ∀ key, res.options.values.get? key =
          ((effectiveOption (normalize r.base) r.config a key).map (substitute (normalize r.base))).or
            (r.existing.bind (·.values.get? key))) := by
  obtain ⟨a, ha⟩ := exists_inherits hr r.config (normalize r.base) r.way
  refine ⟨a, ha, fun hregular => ?_⟩
  obtain ⟨layer, problems, hrun, hlayer⟩ :=
    resolveLayer_shows hr hconfig ((ha a).mpr rfl) hregular (startsAtRoot_normalize hbase)
  obtain ⟨options, hoptions, hget⟩ := effectiveOptions_of_settled hlayer.settled hexisting (normalize r.base)
  simp only [hlayer.option] at hget
  have hspecs : conclude h r layer options problems = conclude h r (effectiveLists r.config a) options problems := by
    obtain ⟨files, includes, excludes, fields⟩ := layer
    obtain ⟨-, -, rfl, rfl, rfl⟩ := hlayer
    rfl
  have hfiles : (conclude h r layer options problems).fileNames = effectiveFiles h r a options := by
    rw [hspecs]
    rfl
  exact ⟨_, options, problems, resolve_ok_iff.mpr ⟨layer, problems, options, hrun, hoptions, rfl⟩, hspecs, hfiles, hget⟩

/-- A config in one directory, extended from the one above. -/
def extendedLibrary : Host := Host.Memory.host
  { files := [(Text.of "/lib/base.json",
      some (Text.of "\x7b\"files\": [\"x.ts\"], \"compilerOptions\": \x7b\"outDir\": \"out\", \"strict\": true\x7d\x7d"))] }

def extendingLibrary : Request where
  config := [(Text.of "extends", .text (Text.of "./lib/base.json")),
             (Text.of "compilerOptions", .object [(Text.of "strict", .null)])]
  base := Text.of "/"
  existing := some { values := [(Text.of "outDir", .text (Text.of "/old")), (Text.of "noEmit", .bool true)] }

theorem resolve_flattens_library :
    (Lists extendedLibrary [Text.of "/lib/base.json"] ∧ Regular extendingLibrary.config ∧
      ∀ o ∈ extendingLibrary.existing, Settled o.values) ∧
      ∃ res options problems, resolve extendedLibrary extendingLibrary = .ok res ∧
        res = conclude extendedLibrary extendingLibrary { files := some [Text.of "/lib/x.ts"] } options problems ∧
        res.fileNames = [Text.of "/lib/x.ts"] ∧
        res.options.values.get? (Text.of "outDir") = some (.text (Text.of "/lib/out")) ∧
        res.options.values.get? (Text.of "strict") = some .null ∧
        res.options.values.get? (Text.of "noEmit") = some (.bool true) := by
  let settings : Fields :=
    [(Text.of "files", .texts [Text.of "x.ts"]),
     (Text.of "compilerOptions", .object [(Text.of "outDir", .text (Text.of "out")), (Text.of "strict", .bool true)])]
  have hoptions : ⟨"outDir", .path⟩ ∈ optionSpecs ∧ ⟨"strict", .flag⟩ ∈ optionSpecs ∧ ⟨"noEmit", .flag⟩ ∈ optionSpecs := by
    simp [optionSpecs, emitOptions, typeCheckingOptions]
  obtain ⟨houtDir, hstrict, hnoEmit⟩ := hoptions
  have hlists : Lists extendedLibrary [Text.of "/lib/base.json"] := lists_memory _
  have hnoLists : ∀ {fs : Fields}, (∀ key ∈ pathLists, key ∉ fs.map (·.1)) →
      ∀ key ∈ pathLists, fs.get? key ≠ some .null := by
    intro fs hfs key hkey
    rw [Fields.get?_eq_none_iff.mpr (hfs key hkey)]
    simp
  have hconfig : Regular extendingLibrary.config := ⟨by decide, by decide, hnoLists (by decide), by decide⟩
  have hsettings : Regular settings := ⟨by decide, by decide, hnoLists (by decide), by decide⟩
  have hexisting : ∀ o ∈ extendingLibrary.existing, Settled o.values := by
    intro o ho
    cases ho
    refine ⟨by unfold Fields.Distinct; decide, fun f hf => ?_⟩
    rcases List.mem_pair.mp hf with rfl | rfl
    · exact ⟨_, houtDir, rfl, .path _⟩
    · exact ⟨_, hnoEmit, rfl, .flag _⟩
  have hload : load extendedLibrary.text? (Text.of "/lib/base.json") = .ok settings := by cbv
  have hfollow : follow extendedLibrary (Text.of "/") [] (Text.of "./lib/base.json") =
      .ok (Text.of "/lib/base.json", settings) := by
    have hpath : extendsPath extendedLibrary (Text.of "./lib/base.json") (Text.of "/") =
        .ok (Text.of "/lib/base.json") := rfl
    simp only [follow, hpath, hload]
    rfl
  obtain ⟨a, ha, hflat⟩ := resolve_flattens hlists (r := extendingLibrary) rfl hconfig hexisting
  obtain rfl := (ha _).mp (.config hfollow .nil .nil)
  obtain ⟨res, options, problems, hres, hconclude, hfiles, hoption⟩ := hflat ⟨hsettings, trivial, trivial⟩
  refine ⟨⟨hlists, hconfig, hexisting⟩, res, options, problems, hres, hconclude, hfiles, ?_, ?_, ?_⟩
  · have hvalue := hoption (OptionSpec.key ⟨"outDir", .path⟩)
    rw [effectiveOption_known houtDir] at hvalue
    exact hvalue
  · have hvalue := hoption (OptionSpec.key ⟨"strict", .flag⟩)
    rw [effectiveOption_known hstrict] at hvalue
    exact hvalue
  · have hvalue := hoption (OptionSpec.key ⟨"noEmit", .flag⟩)
    rw [effectiveOption_known hnoEmit] at hvalue
    exact hvalue

end TsProject.Config
