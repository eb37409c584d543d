/-
  TsProject.Proofs.Config.Beside — a config inherited from a file beside it.

  A config that does nothing but extend one in its own directory means what the other one
  means, with relative specs anchored at the directory they are read in anyway. The search
  does not tell the two apart; the verdicts on specs do, unless the specs are steady.

  - `alike_anchor`: a search takes a spec and the spec anchored for one.
  - `rootFiles_alike`: the root files for them.
  - `conclude_rebase`: what is concluded from a layer and from the layer anchored.
  - `run_extending`: the layer of a config that only extends another.
  - `resolve_beside`: the outcome for a config and for the one that extends it.
-/

import TsProject.Config.Resolution
import TsProject.Proofs.Config.Layers
import TsProject.Proofs.Config.Preference
import TsProject.Proofs.Config.Verdict
import TsProject.Proofs.Glob.Spelling

namespace TsProject.Config

open CodePoint TsProject.Path TsProject.Glob

variable {h : Host} {base : Text} {ns : List Text}

/-! ## Anchoring -/

/-- A spec is anchored where it is read anyway, unless it stays as it is. -/
theorem anchor_cases (ns : List Text) (spec : Text) :
    Layer.anchor (absolute ns) spec = spec ∨
      isRooted spec = false ∧ ∃ ms, Layer.anchor (absolute ns) spec = absolute ms ∧
        Path.resolve spec (absolute ns) = absolute ms ∧ ∀ n ∈ ms, IsPlain n := by
  by_cases hfixed : (Text.startsWith spec configDirTemplate || isRooted spec) = true
  · exact Or.inl (if_pos hfixed)
  · right
    have hrelative : isRooted spec = false := by
      rw [Bool.eq_false_iff]
      intro hr
      exact hfixed (by rw [hr, Bool.or_true])
    have hdrive : ¬ IsDriveRooted spec := fun hd => by simp [hd.1] at hrelative
    obtain ⟨ms, hms, hplain⟩ := exists_resolve_eq_absolute (startsAtRoot_absolute ns) hdrive
    exact ⟨hrelative, ms, (if_neg hfixed).trans hms, hms, hplain⟩

theorem resolve_anchor (ns : List Text) (spec : Text) :
    Path.resolve (Layer.anchor (absolute ns) spec) (absolute ns) = Path.resolve spec (absolute ns) := by
  rcases anchor_cases ns spec with hfixed | ⟨-, ms, hanchor, hresolve, hms⟩
  · rw [hfixed]
  · rw [hanchor, hresolve, resolve_of_startsAtRoot (startsAtRoot_forwardSlashes (startsAtRoot_absolute ms)),
      normalize_absolute hms]

theorem alike_anchor (ns : List Text) {spec : Text} (hspec : spec ≠ []) :
    Alike (absolute ns) spec (Layer.anchor (absolute ns) spec) := by
  rcases anchor_cases ns spec with hfixed | ⟨hrelative, ms, hanchor, hresolve, hms⟩
  · rw [hfixed]
    exact Alike.refl _ _
  · refine ⟨resolve_anchor ns spec, ?_, ?_⟩
    · have hrooted : isRooted (absolute ms) = true := isRooted_of_startsAtRoot (startsAtRoot_absolute ms)
      rw [hanchor, absoluteInclude_eq_resolve ns hrelative, hresolve, absoluteInclude, if_pos hrooted]
    · obtain ⟨t, ht⟩ := absolute_cons ms
      rw [hanchor, ht, List.isEmpty_eq_false_iff.mpr hspec]
      rfl

/-- The template is put in before or after anchoring: what it gives is rooted, and anchored specs do not start
with it. -/
theorem substituteText_anchor (ns : List Text) (spec : Text) :
    substituteText (absolute ns) (Layer.anchor (absolute ns) spec) =
      Layer.anchor (absolute ns) (substituteText (absolute ns) spec) := by
  by_cases htemplate : Text.startsWith spec configDirTemplate = true
  · have hrooted : isRooted (substituteText (absolute ns) spec) = true := by
      rw [substituteText, if_pos htemplate]
      exact isRooted_of_startsAtRoot (startsAtRoot_normalize (startsAtRoot_append (startsAtRoot_absolute ns) _))
    rw [Layer.anchor, if_pos (by simp [htemplate]), Layer.anchor, if_pos (by simp [hrooted])]
  · have hkept : substituteText (absolute ns) spec = spec := if_neg htemplate
    rw [hkept]
    rcases anchor_cases ns spec with hfixed | ⟨-, ms, hanchor, -⟩
    · rw [hfixed, hkept]
    · obtain ⟨t, ht⟩ := absolute_cons ms
      have hslash : ¬ Text.startsWith (slash :: t) configDirTemplate = true := by
        simp [Text.startsWith, configDirTemplate, Text.of]
      rw [hanchor, substituteText, ht, if_neg hslash]

theorem mapSpecs_rebase (ns : List Text) (l : Layer) :
    (l.rebase (absolute ns)).mapSpecs (substituteText (absolute ns)) =
      (l.mapSpecs (substituteText (absolute ns))).rebase (absolute ns) := by
  have hmaps : substituteText (absolute ns) ∘ Layer.anchor (absolute ns) =
      Layer.anchor (absolute ns) ∘ substituteText (absolute ns) := funext (substituteText_anchor ns)
  simp only [Layer.rebase, Layer.mapSpecs, Option.map_map, List.map_comp_map, hmaps]

/-! ## Root files -/

theorem rootFiles_alike (h : Host) (o : Options) (hns : ∀ n ∈ ns, IsPlain n) (files : List Text) {f g : Text → Text}
    {includes excludes : List Text} (hincludes : ∀ x ∈ includes, Alike (absolute ns) x (f x))
    (hexcludes : ∀ x ∈ excludes, Alike (absolute ns) x (g x)) :
    rootFiles h o (absolute ns) (files.map (Layer.anchor (absolute ns))) (includes.map f) (excludes.map g) =
      rootFiles h o (absolute ns) files includes excludes := by
  have hlisted : (files.map (Layer.anchor (absolute ns))).map (fun f => Path.resolve f (absolute ns)) =
      files.map fun f => Path.resolve f (absolute ns) := by
    rw [List.map_map]
    exact List.map_congr_left fun f _ => resolve_anchor ns f
  have hfound : h.readDirectory (absolute ns) o.extensionGroups.flatten (excludes.map g) (includes.map f) none =
      h.readDirectory (absolute ns) o.extensionGroups.flatten excludes includes none :=
    matchFiles_alike h.tree (s := ⟨absolute ns, o.extensionGroups.flatten, excludes, includes, h.caseSensitive,
      h.currentDirectory, none⟩) rfl hns hincludes hexcludes
  simp only [rootFiles, listedFiles_eq, hlisted, List.isEmpty_map, hfound]

/-! ## Verdicts -/

/-- Two spellings of a spec that a search takes for one and that are judged alike. -/
structure Interchangeable (isInclude : Bool) (base x y : Text) : Prop where
  alike : Alike base x y
  code : (specProblem? isInclude y).map Problem.code = (specProblem? isInclude x).map Problem.code

/-- The specs that anchoring changes are steady. -/
def AllSteady (isInclude : Bool) (base : Text) (specs : List Text) : Prop :=
  ∀ spec ∈ specs, Layer.anchor base spec ≠ spec → Steady isInclude base spec

variable {isInclude : Bool} {specs : List Text} {f : Text → Text}

theorem interchangeable_anchor (hs : AllSteady isInclude (absolute ns) specs) :
    ∀ spec ∈ specs, Interchangeable isInclude (absolute ns) spec (Layer.anchor (absolute ns) spec) := by
  intro spec hspec
  by_cases hfixed : Layer.anchor (absolute ns) spec = spec
  · rw [hfixed]
    exact ⟨Alike.refl _ _, rfl⟩
  · have hsteady := hs spec hspec hfixed
    obtain ⟨hrelative, ms, hanchor, hresolve, -⟩ := (anchor_cases ns spec).resolve_left hfixed
    refine ⟨alike_anchor ns hsteady.nonempty, ?_⟩
    rw [hanchor, ← hresolve]
    exact hsteady.code_eq (startsAtRoot_absolute ns) hrelative

/-- Putting in the template gives specs that anchoring leaves alone. -/
theorem AllSteady.substitute {listed : Option (List Text)}
    (hs : ∀ specs ∈ listed, AllSteady isInclude (absolute ns) specs) :
    ∀ specs ∈ listed.map (List.map (substituteText (absolute ns))), AllSteady isInclude (absolute ns) specs := by
  intro _ hspecs _ hspec hmoved
  obtain ⟨specs, hlisted, rfl⟩ := Option.map_eq_some_iff.mp hspecs
  obtain ⟨spec, hmem, rfl⟩ := List.mem_map.mp hspec
  by_cases htemplate : Text.startsWith spec configDirTemplate = true
  · have hfixed : Layer.anchor (absolute ns) spec = spec := if_pos (by simp [htemplate])
    exact absurd (by rw [← substituteText_anchor, hfixed]) hmoved
  · have hkept : substituteText (absolute ns) spec = spec := if_neg htemplate
    rw [hkept] at hmoved ⊢
    exact hs specs hlisted spec hmem hmoved

theorem validSpecs_interchangeable (h : ∀ x ∈ specs, Interchangeable isInclude base x (f x)) :
    validSpecs isInclude (specs.map f) = (validSpecs isInclude specs).map f := by
  rw [validSpecs, List.filter_map, validSpecs]
  congr 1
  refine List.filter_congr fun x hx => ?_
  have hcode := congrArg Option.isNone (h x hx).code
  simpa only [Option.isNone_map, Function.comp_apply] using hcode

theorem codes_interchangeable (h : ∀ x ∈ specs, Interchangeable isInclude base x (f x)) :
    (specProblems isInclude (specs.map f)).map Problem.code = (specProblems isInclude specs).map Problem.code := by
  rw [specProblems, specProblems, List.map_filterMap, List.map_filterMap]
  exact filterMap_alike fun x hx => (h x hx).code

/-! ## Conclusions -/

/-- The includes that apply, everything where a layer lists nothing. -/
def Layer.toInclude (l : Layer) : List Text :=
  if l.files = none ∧ l.includes = none then [everything] else l.includes.getD []

/-- The excludes that apply, the output directories where a layer lists none. -/
def Layer.toExclude (l : Layer) (o : Options) : List Text := l.excludes.getD (outputDirectories o)

/-- What is told of a resolution: its files, its options and the codes of its problems. -/
def Resolution.told (res : Resolution) : List Text × Options × List Nat :=
  (res.fileNames, res.options, res.problems.map Problem.code)

theorem toInclude_rebase {l : Layer}
    (hl : ∀ specs ∈ l.includes, AllSteady true (absolute ns) specs) :
    ∃ f, (l.rebase (absolute ns)).toInclude = l.toInclude.map f ∧
      ∀ x ∈ l.toInclude, Interchangeable true (absolute ns) x (f x) := by
  obtain ⟨files, includes, excludes, options⟩ := l
  cases includes with
  | none =>
    refine ⟨id, ?_, fun x _ => ⟨Alike.refl _ _, rfl⟩⟩
    cases files with
    | none => rfl
    | some files => rfl
  | some specs =>
    have hlisted : Layer.toInclude ⟨files, some specs, excludes, options⟩ = specs := by simp [Layer.toInclude]
    refine ⟨Layer.anchor (absolute ns), ?_, ?_⟩
    · rw [hlisted]
      simp [Layer.toInclude, Layer.rebase, Layer.mapSpecs]
    · rw [hlisted]
      exact interchangeable_anchor (hl specs rfl)

theorem toExclude_rebase {l : Layer} (o : Options)
    (hl : ∀ specs ∈ l.excludes, AllSteady false (absolute ns) specs) :
    ∃ g, (l.rebase (absolute ns)).toExclude o = (l.toExclude o).map g ∧
      ∀ x ∈ l.toExclude o, Interchangeable false (absolute ns) x (g x) := by
  obtain ⟨files, includes, excludes, options⟩ := l
  cases excludes with
  | none => exact ⟨id, (List.map_id _).symm, fun x _ => ⟨Alike.refl _ _, rfl⟩⟩
  | some specs => exact ⟨Layer.anchor (absolute ns), rfl, interchangeable_anchor (hl specs rfl)⟩

/-- The root files for a layer whose template is put in. -/
def Layer.roots (h : Host) (o : Options) (base : Text) (l : Layer) : List Text :=
  rootFiles h o base (l.files.getD []) (validSpecs true l.toInclude) (validSpecs false (l.toExclude o))

/-- The codes of the problems with the specs of a layer whose template is put in. -/
def Layer.codes (h : Host) (o : Options) (base : Text) (l : Layer) : List Nat :=
  (if l.files = some [] ∧ l.includes = none then [Catalog.emptyFiles.code] else []) ++
    (specProblems true l.toInclude).map Problem.code ++ (specProblems false (l.toExclude o)).map Problem.code ++
    if (l.roots h o base).isEmpty ∧ l.files = none then [Catalog.noInputs.code] else []

theorem told_conclude (h : Host) (r : Request) (l : Layer) (o : Options) (ps : List Problem) :
    (conclude h r l o ps).told =
      ((l.mapSpecs (substituteText (normalize r.base))).roots h o (normalize r.base),
        { o with configPath := r.name?.map normalize },
        ps.map Problem.code ++ (l.mapSpecs (substituteText (normalize r.base))).codes h o (normalize r.base)) := by
  simp only [Resolution.told, conclude, Layer.codes, Layer.roots, Layer.toInclude, Layer.toExclude, List.map_append,
    List.append_assoc, apply_ite (List.map Problem.code), List.map_cons, List.map_nil]
  rfl

theorem codes_conclude (h : Host) (r : Request) (l : Layer) (o : Options) (ps : List Problem) :
    (conclude h r l o ps).problems.map Problem.code =
      ps.map Problem.code ++ (l.mapSpecs (substituteText (normalize r.base))).codes h o (normalize r.base) :=
  congrArg (·.2.2) (told_conclude h r l o ps)

/-- Anchoring a layer changes neither the files found for it nor the codes. -/
theorem roots_rebase (h : Host) (o : Options) (hns : ∀ n ∈ ns, IsPlain n) {l : Layer}
    (hincludes : ∀ specs ∈ l.includes, AllSteady true (absolute ns) specs)
    (hexcludes : ∀ specs ∈ l.excludes, AllSteady false (absolute ns) specs) :
    (l.rebase (absolute ns)).roots h o (absolute ns) = l.roots h o (absolute ns) ∧
      (l.rebase (absolute ns)).codes h o (absolute ns) = l.codes h o (absolute ns) := by
  obtain ⟨f, hf, hsameInclude⟩ := toInclude_rebase hincludes
  obtain ⟨g, hg, hsameExclude⟩ := toExclude_rebase o hexcludes
  have hfiles : (l.rebase (absolute ns)).files.getD [] = (l.files.getD []).map (Layer.anchor (absolute ns)) := by
    cases hfiles : l.files <;> simp [Layer.rebase, Layer.mapSpecs, hfiles]
  have hnoFiles : (l.rebase (absolute ns)).files = none ↔ l.files = none := Option.map_eq_none_iff
  have hnoIncludes : (l.rebase (absolute ns)).includes = none ↔ l.includes = none := Option.map_eq_none_iff
  have hemptyFiles : (l.rebase (absolute ns)).files = some [] ↔ l.files = some [] := by
    cases hfiles : l.files <;> simp [Layer.rebase, Layer.mapSpecs, hfiles]
  have hroots : (l.rebase (absolute ns)).roots h o (absolute ns) = l.roots h o (absolute ns) := by
    rw [Layer.roots, Layer.roots, hf, hg, hfiles, validSpecs_interchangeable hsameInclude,
      validSpecs_interchangeable hsameExclude]
    exact rootFiles_alike h o hns _ (fun x hx => (hsameInclude x (List.mem_of_mem_filter hx)).alike)
      fun x hx => (hsameExclude x (List.mem_of_mem_filter hx)).alike
  refine ⟨hroots, ?_⟩
  simp only [Layer.codes, hroots, hf, hg, codes_interchangeable hsameInclude, codes_interchangeable hsameExclude, hnoFiles,
    hnoIncludes, hemptyFiles]

/-- What is concluded from a layer and from the layer anchored is told alike. -/
theorem conclude_rebase (h : Host) {r : Request} (hbase : normalize r.base = absolute ns) (hns : ∀ n ∈ ns, IsPlain n)
    (config : Fields) {l : Layer} (hincludes : ∀ specs ∈ l.includes, AllSteady true (absolute ns) specs)
    (hexcludes : ∀ specs ∈ l.excludes, AllSteady false (absolute ns) specs) (o : Options) (ps : List Problem) :
    (conclude h { r with config } (l.rebase (absolute ns)) o ps).told = (conclude h r l o ps).told := by
  -- the template is put in before specs are looked at
  obtain ⟨hroots, hcodes⟩ :=
    @roots_rebase ns h o hns (l.mapSpecs (substituteText (absolute ns))) (.substitute hincludes) (.substitute hexcludes)
  simp only [told_conclude, hbase, mapSpecs_rebase, hroots, hcodes]
  rfl

/-! ## Extending -/

/-- A config that does nothing but extend one beside it. -/
def extendingBase : Fields := [(Text.of "extends", .text (Text.of "./base.json"))]

theorem extendsPath_base (h : Host) (hns : ∀ n ∈ ns, IsPlain n) :
    extendsPath h (Text.of "./base.json") (absolute ns) = .ok (absolute (ns ++ [Text.of "base.json"])) := by
  have hresolve : Path.resolve (Text.of "./base.json") (absolute ns) = absolute (ns ++ [Text.of "base.json"]) := by
    have hsegments : segments (forwardSlashes (Text.of "./base.json")) = [Text.of "base.json"] := by decide
    have hnames : fold true (segments (forwardSlashes (absolute ns))) = ns := rootedNames_absolute hns
    rw [resolve_relative (startsAtRoot_forwardSlashes (startsAtRoot_absolute ns)) (by decide), hsegments,
      fold_append true _ (by decide), hnames]
  have hextension : Text.endsWith (absolute (ns ++ [Text.of "base.json"])) (Text.of ".json") = true := by
    refine List.isSuffixOf_iff_suffix.mpr ⟨below ns ++ Text.of "/base", ?_⟩
    rw [absolute_of_ne_nil (by simp), below_append, List.append_assoc]
    rfl
  have hslashes : forwardSlashes (Text.of "./base.json") = Text.of "./base.json" := by decide
  have hfile : isFileEntry (Text.of "./base.json") = true := by decide
  simp only [extendsPath, hslashes, hfile, hresolve, hextension, Bool.or_true, if_true]

theorem directory_base (hns : ∀ n ∈ ns, IsPlain n) : directory (absolute (ns ++ [Text.of "base.json"])) = absolute ns := by
  have hplain : ∀ n ∈ ns ++ [Text.of "base.json"], IsPlain n :=
    List.forall_mem_append.mpr ⟨hns, List.forall_mem_singleton.mpr ⟨by decide, by decide, by decide, by decide⟩⟩
  rw [directory, normalize_absolute hplain, parent_absolute fun n hn => (hplain n hn).name, List.dropLast_concat]

/-- A config without entries is nothing but its own layer. -/
theorem run_resolveLayer_of_noEntries {config : Fields} (hentries : validEntries config = []) (depth : Nat)
    (way : List Text) : (resolveLayer h depth config base way).run [] =
      ((ownLayer config base).run []).map fun r => (({} : Layer).overlay r.1.1, r.2) := by
  have hover : ∀ next, (layerOver h next config base way).run [] =
      ((ownLayer config base).run []).map fun r => (({} : Layer).overlay r.1.1, r.2) := by
    intro next
    unfold layerOver
    rw [StateT.run_bind]
    cases hown : (ownLayer config base).run [] with
    | error e => rfl
    | ok r =>
      obtain ⟨⟨own, entries⟩, ps⟩ := r
      obtain ⟨top, _, _, htop, -, -, rfl, -⟩ := run_ownLayer_iff.mp hown
      have hnone : top.entries = [] := by rw [entries_of_topLevel htop, hentries]
      change StateT.run (top.entries.mapM (extendedLayer h next base way) >>= fun inherited =>
        pure (((inherited.filterMap id).foldl Layer.overlay {}).overlay own)) ps = _
      rw [hnone]
      rfl
  cases depth with
  | zero => exact hover _
  | succ depth => exact hover _

/-- A config without entries and options is concluded from the specs it lists. -/
theorem resolve_of_specs {r : Request} {top : TopLevel} (htop : topLevel r.config = .ok (top, []))
    (hoptions : top.options = []) (hentries : validEntries r.config = []) (hexisting : r.existing = none) :
    resolve h r = .ok (conclude h r { files := top.files, includes := top.includes, excludes := top.excludes } {} []) := by
  have hconvert : convertOptions top.options (normalize r.base) = .ok {} := by rw [hoptions, convertOptions_nil]
  have hrun : (resolveLayer h h.readableFiles r.config (normalize r.base) r.way).run [] =
      .ok ({ files := top.files, includes := top.includes, excludes := top.excludes }, []) := by
    have hover : ({} : Layer).overlay { files := top.files, includes := top.includes, excludes := top.excludes } = _ :=
      Layer.empty_overlay Layer.distinct_empty
    rw [run_resolveLayer_of_noEntries hentries, run_ownLayer_iff.mpr ⟨_, _, _, htop, hconvert, rfl, rfl, rfl⟩]
    change Except.ok (({} : Layer).overlay { files := top.files, includes := top.includes, excludes := top.excludes }, _) = _
    rw [hover]
    rfl
  refine resolve_ok_iff.mpr ⟨_, [], {}, hrun, ?_, rfl⟩
  rw [effectiveOptions, hexisting]
  exact ofFields_nil

theorem topLevel_extendingBase : topLevel extendingBase = .ok ({ entries := [Text.of "./base.json"] }, []) := rfl

/-- The layer of a config that only extends another is the layer of that one, anchored. -/
theorem run_extending {readable : List Text} (hr : Lists h readable) (hns : ∀ n ∈ ns, IsPlain n) {config : Fields}
    (hentries : validEntries config = []) (hstored : load h.text? (absolute (ns ++ [Text.of "base.json"])) = .ok config)
    {way : List Text} (hway : way.any (sameFile h (absolute (ns ++ [Text.of "base.json"]))) = false) :
    (resolveLayer h h.readableFiles extendingBase (absolute ns) way).run [] =
      ((resolveLayer h h.readableFiles config (absolute ns) way).run []).map fun r => (r.1.rebase (absolute ns), r.2) := by
  have hfollow : follow h (absolute ns) way (Text.of "./base.json") =
      .ok (absolute (ns ++ [Text.of "base.json"]), config) := follow_eq_ok (extendsPath_base h hns) hway hstored
  have hown : (ownLayer extendingBase (absolute ns)).run [] = .ok (({}, [Text.of "./base.json"]), []) :=
    run_ownLayer_iff.mpr ⟨_, _, _, topLevel_extendingBase, convertOptions_nil _, rfl, rfl, rfl⟩
  have hentry : (extendedLayer h (resolveLayer h h.readableFiles) (absolute ns) way (Text.of "./base.json")).run [] =
      ((ownLayer config (absolute ns)).run []).map fun r => (some ((({} : Layer).overlay r.1.1).rebase (absolute ns)), r.2) := by
    rw [extendedLayer_eq, hfollow]
    change StateT.run (resolveLayer h h.readableFiles config (directory (absolute (ns ++ [Text.of "base.json"])))
      (way ++ [absolute (ns ++ [Text.of "base.json"])]) >>= fun layer =>
        pure (some (layer.rebase (directory (absolute (ns ++ [Text.of "base.json"])))))) [] = _
    rw [directory_base hns, StateT.run_bind, run_resolveLayer_of_noEntries hentries]
    cases (ownLayer config (absolute ns)).run [] <;> rfl
  rw [resolveLayer_fixed hr, run_resolveLayer_of_noEntries hentries]
  unfold layerOver
  rw [StateT.run_bind, hown]
  change StateT.run ([Text.of "./base.json"].mapM (extendedLayer h (resolveLayer h h.readableFiles) (absolute ns) way) >>=
    fun inherited => pure (((inherited.filterMap id).foldl Layer.overlay {}).overlay {})) [] = _
  rw [List.mapM_cons, StateT.run_bind, StateT.run_bind, hentry]
  cases (ownLayer config (absolute ns)).run [] with
  | error e => rfl
  | ok r =>
    have hoverlay : ({} : Layer).overlay ((({} : Layer).overlay r.1.1).rebase (absolute ns)) =
        (({} : Layer).overlay r.1.1).rebase (absolute ns) :=
      Layer.empty_overlay (Layer.distinct_overlay Layer.distinct_empty r.1.1)
    change Except.ok (({} : Layer).overlay ((({} : Layer).overlay r.1.1).rebase (absolute ns)), r.2) = _
    rw [hoverlay]
    rfl

theorem specs_of_run {config : Fields} (hentries : validEntries config = []) {depth : Nat} {way : List Text} {l : Layer}
    {ps : List Problem} (hrun : (resolveLayer h depth config base way).run [] = .ok (l, ps)) :
    l.includes = ownSpecs config "include" ∧ l.excludes = ownSpecs config "exclude" := by
  rw [run_resolveLayer_of_noEntries hentries] at hrun
  cases hown : (ownLayer config base).run [] with
  | error e => rw [hown] at hrun; cases hrun
  | ok r =>
    rw [hown] at hrun
    obtain ⟨rfl, -⟩ := Prod.mk.inj (Except.ok.inj hrun)
    obtain ⟨⟨own, entries⟩, ps'⟩ := r
    obtain ⟨top, _, _, htop, -, rfl, -, -⟩ := run_ownLayer_iff.mp hown
    have hempty : ∀ specs : Option (List Text), (specs <|> none) = specs := fun specs => by cases specs <;> rfl
    rw [(topLevel_ok htop).1]
    exact ⟨hempty _, hempty _⟩

theorem resolve_eq (h : Host) (r : Request) : resolve h r =
    ((resolveLayer h h.readableFiles r.config (normalize r.base) r.way).run []).bind fun l =>
      (effectiveOptions (normalize r.base) r.existing l.1).map fun o => conclude h r l.1 o l.2 := rfl

/-- A config is stored beside a request that only extends it: in another file than the request comes from, and
with no entries of its own. -/
structure StoredBeside (h : Host) (r : Request) : Prop where
  root : startsAtRoot r.base = true
  noExtends : r.config.get? (Text.of "extends") = none
  stored : load h.text? (Path.entry (normalize r.base) (Text.of "base.json")) = .ok r.config
  another : ∀ file ∈ r.way, sameFile h (Path.entry (normalize r.base) (Text.of "base.json")) file = false

theorem StoredBeside.normalize_eq {r : Request} (hs : StoredBeside h r) :
    normalize r.base = absolute (rootedNames r.base) := normalize_rooted (startsAtRoot_forwardSlashes hs.root)

theorem StoredBeside.noEntries {r : Request} (hs : StoredBeside h r) : validEntries r.config = [] := by
  rw [validEntries, setting, hs.noExtends]
  rfl

/-- The layer of the request that extends the config is the layer of the config, anchored. -/
theorem StoredBeside.run_extending {readable : List Text} (hr : Lists h readable) {r : Request} (hs : StoredBeside h r) :
    (resolveLayer h h.readableFiles extendingBase (normalize r.base) r.way).run [] =
      ((resolveLayer h h.readableFiles r.config (normalize r.base) r.way).run []).map fun l =>
        (l.1.rebase (normalize r.base), l.2) := by
  have hns : ∀ n ∈ rootedNames r.base, IsPlain n := fun _ => isPlain_of_mem_rootedNames
  have hfile : Path.entry (normalize r.base) (Text.of "base.json") = absolute (rootedNames r.base ++ [Text.of "base.json"]) := by
    rw [hs.normalize_eq, entry_absolute fun n hn => (hns n hn).name]
  have hway : r.way.any (sameFile h (absolute (rootedNames r.base ++ [Text.of "base.json"]))) = false := by
    rw [List.any_eq_false, ← hfile]
    exact fun file hmem => Bool.eq_false_iff.mp (hs.another file hmem)
  rw [hs.normalize_eq]
  exact Config.run_extending hr hns hs.noEntries (hfile ▸ hs.stored) hway

/-- A config that only extends one stored beside it gives what that one gives: the same files, the same options
and problems of the same codes, or the same failure, as long as the specs that anchoring changes are steady. -/
theorem resolve_beside {readable : List Text} (hr : Lists h readable) {r : Request} (hs : StoredBeside h r)
    (hincludes : ∀ specs ∈ ownSpecs r.config "include", AllSteady true (normalize r.base) specs)
    (hexcludes : ∀ specs ∈ ownSpecs r.config "exclude", AllSteady false (normalize r.base) specs) :
    (resolve h { r with config := extendingBase }).map Resolution.told = (resolve h r).map Resolution.told := by
  have hns : ∀ n ∈ rootedNames r.base, IsPlain n := fun _ => isPlain_of_mem_rootedNames
  rw [resolve_eq, resolve_eq]
  change (((resolveLayer h h.readableFiles extendingBase (normalize r.base) r.way).run []).bind _).map _ = _
  rw [hs.run_extending hr]
  cases hrun : (resolveLayer h h.readableFiles r.config (normalize r.base) r.way).run [] with
  | error e => rfl
  | ok l =>
    obtain ⟨layer, ps⟩ := l
    obtain ⟨hinclude, hexclude⟩ := specs_of_run hs.noEntries hrun
    change ((effectiveOptions (normalize r.base) r.existing layer).map _).map _ = ((effectiveOptions _ _ layer).map _).map _
    cases effectiveOptions (normalize r.base) r.existing layer with
    | error e => rfl
    | ok o =>
      change Except.ok (conclude h { r with config := extendingBase } (layer.rebase (normalize r.base)) o ps).told = _
      rw [hs.normalize_eq] at hincludes hexcludes ⊢
      rw [conclude_rebase h hs.normalize_eq hns _ (hinclude ▸ hincludes) (hexclude ▸ hexcludes)]
      rfl

/-- A config whose specs are steady: one of them is refused. -/
def steadyBase : Host := Host.Memory.host
  { files := [(Text.of "/proj/src/a.ts", some []), (Text.of "/proj/base.json",
      some (Text.of "\x7b\"include\": [\"src/**/*\", \"lib/**\"], \"exclude\": [\"src/../out\"]\x7d"))] }

def steadyRequest : Request where
  config := [(Text.of "include", .texts [Text.of "src/**/*", Text.of "lib/**"]),
             (Text.of "exclude", .texts [Text.of "src/../out"])]
  base := Text.of "/proj"
  fileName := some (Text.of "/proj/tsconfig.json")

theorem resolve_beside_steady :
    (Lists steadyBase [Text.of "/proj/src/a.ts", Text.of "/proj/base.json"] ∧ StoredBeside steadyBase steadyRequest ∧
      (∀ specs ∈ ownSpecs steadyRequest.config "include", AllSteady true (normalize steadyRequest.base) specs) ∧
      ∀ specs ∈ ownSpecs steadyRequest.config "exclude", AllSteady false (normalize steadyRequest.base) specs) ∧
      (resolve steadyBase { steadyRequest with config := extendingBase }).map Resolution.told =
        (resolve steadyBase steadyRequest).map Resolution.told := by
  have hlists : Lists steadyBase [Text.of "/proj/src/a.ts", Text.of "/proj/base.json"] := lists_memory _
  have hstored : load steadyBase.text? (Path.entry (normalize steadyRequest.base) (Text.of "base.json")) =
      .ok steadyRequest.config := by cbv
  have hway : steadyRequest.way = [Text.of "/proj/tsconfig.json"] := by decide
  have hbeside : StoredBeside steadyBase steadyRequest :=
    ⟨rfl, rfl, hstored, by rw [hway]; exact List.forall_mem_singleton.mpr (by decide)⟩
  have hincludes : ∀ specs ∈ ownSpecs steadyRequest.config "include",
      AllSteady true (normalize steadyRequest.base) specs := by
    have hspecs : ownSpecs steadyRequest.config "include" = some [Text.of "src/**/*", Text.of "lib/**"] := rfl
    rw [hspecs]
    rintro _ ⟨⟩ spec hspec -
    rcases List.mem_pair.mp hspec with rfl | rfl
    · exact ⟨by decide, by decide, by decide, fun _ h => absurd h (by decide)⟩
    · exact ⟨by decide, by decide, by decide, fun _ _ => ⟨Text.of "lib/", [], rfl, Or.inr ⟨Text.of "lib", rfl⟩, Or.inl rfl⟩⟩
  have hexcludes : ∀ specs ∈ ownSpecs steadyRequest.config "exclude",
      AllSteady false (normalize steadyRequest.base) specs := by
    have hspecs : ownSpecs steadyRequest.config "exclude" = some [Text.of "src/../out"] := rfl
    rw [hspecs]
    rintro _ ⟨⟩ spec hspec -
    obtain rfl := List.mem_singleton.mp hspec
    exact ⟨by decide, by decide, by decide, fun h => absurd h (by decide)⟩
  exact ⟨⟨hlists, hbeside, hincludes, hexcludes⟩, resolve_beside hlists hbeside hincludes hexcludes⟩

/-- Where files are listed, only specs can be wrong. -/
theorem codes_of_files {o : Options} {l : Layer} {f : Text} {fs : List Text} (hl : l.files = some (f :: fs)) :
    l.codes h o base = (specProblems true (l.includes.getD [])).map Problem.code ++
      (specProblems false (l.toExclude o)).map Problem.code := by
  simp [Layer.codes, Layer.toInclude, hl]

/-- A config with an include that climbs behind `**`. -/
def climbingBase : Host := Host.Memory.host
  { files := [(Text.of "/proj/base.json",
      some (Text.of "\x7b\"files\": [\"a.ts\"], \"include\": [\"src/**/../*.ts\"]\x7d"))] }

def climbingRequest : Request where
  config := [(Text.of "files", .texts [Text.of "a.ts"]), (Text.of "include", .texts [Text.of "src/**/../*.ts"])]
  base := Text.of "/proj"
  fileName := some (Text.of "/proj/tsconfig.json")

/-- The include is refused as written, and taken once it is inherited: anchoring has removed the `..`. -/
theorem resolve_beside_climbing : StoredBeside climbingBase climbingRequest ∧
    (resolve climbingBase climbingRequest).map (·.problems.map Problem.code) = .ok [5065] ∧
    (resolve climbingBase { climbingRequest with config := extendingBase }).map (·.problems.map Problem.code) = .ok [] := by
  have hstored : load climbingBase.text? (Path.entry (normalize climbingRequest.base) (Text.of "base.json")) =
      .ok climbingRequest.config := by cbv
  have hway : climbingRequest.way = [Text.of "/proj/tsconfig.json"] := by decide
  have hbeside : StoredBeside climbingBase climbingRequest :=
    ⟨rfl, rfl, hstored, by rw [hway]; exact List.forall_mem_singleton.mpr (by decide)⟩
  have hlists : Lists climbingBase [Text.of "/proj/base.json"] := lists_memory _
  let layer : Layer := { files := some [Text.of "a.ts"], includes := some [Text.of "src/**/../*.ts"] }
  have htop : topLevel climbingRequest.config = .ok ({ files := layer.files, includes := layer.includes }, []) := rfl
  have hrun : (resolveLayer climbingBase climbingBase.readableFiles climbingRequest.config
      (normalize climbingRequest.base) climbingRequest.way).run [] = .ok (layer, []) := by
    rw [run_resolveLayer_of_noEntries hbeside.noEntries,
      run_ownLayer_iff.mpr ⟨_, _, _, htop, convertOptions_nil _, rfl, rfl, rfl⟩]
    rfl
  have hoptions : effectiveOptions (normalize climbingRequest.base) none layer = .ok {} := ofFields_nil
  have hdirect : resolve climbingBase climbingRequest = .ok (conclude climbingBase climbingRequest layer {} []) :=
    resolve_ok_iff.mpr ⟨layer, [], {}, hrun, hoptions, rfl⟩
  have hrun' := hbeside.run_extending hlists
  rw [hrun] at hrun'
  have hextending : resolve climbingBase { climbingRequest with config := extendingBase } =
      .ok (conclude climbingBase { climbingRequest with config := extendingBase }
        (layer.rebase (normalize climbingRequest.base)) {} []) :=
    resolve_ok_iff.mpr ⟨_, _, {}, hrun', hoptions, rfl⟩
  refine ⟨hbeside, ?_, ?_⟩
  · rw [hdirect]
    change Except.ok ((conclude climbingBase climbingRequest layer {} []).problems.map Problem.code) = _
    rw [codes_conclude, codes_of_files rfl]
    exact congrArg Except.ok (by decide)
  · rw [hextending]
    change Except.ok ((conclude climbingBase { climbingRequest with config := extendingBase } _ {} []).problems.map Problem.code) = _
    rw [codes_conclude, codes_of_files rfl]
    exact congrArg Except.ok (by decide)

end TsProject.Config
