/-
  TsProject.Proofs.Config.Output — what a build has written is not picked up again.

  A config without excludes excludes its output directories. These are paths, read as specs,
  and whatever characters a path has, as a spec it excludes everything below it. What a search
  compares with its excludes is the absolute name of a file, which is its path once that is
  normalized, as long as the names in the file system are left alone by normalization.

  - `not_isExcluded_normalize`: no file that is found is excluded under its normalized path.
  - `Located`: options whose paths are in normal form, unless they hold the template.
  - `normalize_of_mem_outputDirectories`: output directories are in normal form.
  - `resolve_avoidsOutput`: a root file below an output directory is listed.
-/

import TsProject.Proofs.Config.Canonical
import TsProject.Proofs.Config.Totality
import TsProject.Proofs.Glob.Exclusion
import TsProject.Proofs.Glob.Once

namespace TsProject.Config

open CodePoint TsProject.Path Glob

/-! ## Below a directory -/

/-- The path goes on behind the directory and a slash. -/
def IsBelow (d p : Text) : Prop := stem d <+: p ∧ p ≠ d

instance (d p : Text) : Decidable (IsBelow d p) := inferInstanceAs (Decidable (_ ∧ _))

theorem exists_of_isBelow {ns ks : List Text} (hns : ∀ n ∈ ns, IsName n) (hks : ∀ k ∈ ks, IsName k)
    (h : IsBelow (absolute ns) (absolute ks)) : ∃ m ms, ks = ns ++ m :: ms := by
  obtain ⟨⟨t, ht⟩, hne⟩ := h
  have hnames : ks = ns ++ names t := by
    rw [← names_absolute hks, ← ht, ← entry_eq_stem, names_entry, names_absolute hns]
  cases hrest : names t with
  | nil =>
    rw [hrest, List.append_nil] at hnames
    exact absurd (congrArg absolute hnames) hne
  | cons m ms => exact ⟨m, ms, hrest ▸ hnames⟩

/-! ## Files found -/

/-- Where names are plain, a file that is found below the root is not excluded under its normalized path. -/
theorem not_isExcluded_normalize {t : Tree} {s : Search}
    (hnames : ∀ d, ∀ n, n ∈ (t.entries d).1 ∨ n ∈ (t.entries d).2 → IsPlain n) {F : Text} (hF : F ∈ matchFiles t s)
    (hroot : startsAtRoot (normalize F) = true) : s.filter.isExcluded (normalize F) = false := by
  obtain ⟨v, hv, n, hn, rfl, g, hg⟩ := exists_met_of_mem_matchFiles hF
  obtain ⟨start, hstart, ns, hleads, hdirectory, habsolute⟩ := hv.descends
  obtain ⟨d, -, rfl⟩ := List.mem_map.mp hstart
  have hplain : ∀ k ∈ ns ++ [n], IsPlain k := by
    refine List.forall_mem_append.mpr ⟨fun k hk => ?_, List.forall_mem_singleton.mpr (hnames _ n (Or.inl hn))⟩
    obtain ⟨x, hx⟩ := hleads.exists_listed k hk
    exact hnames x k (Or.inr hx)
  have hfile : entry v.directory n = descend d (ns ++ [n]) := by
    rw [hdirectory, descend_append]
    rfl
  rw [hfile, startsAtRoot_normalize_eq] at hroot
  have hd : startsAtRoot (forwardSlashes d) = true := startsAtRoot_descend d hplain ▸ hroot
  have hnormal : normalize (entry v.directory n) = entry v.absolute n := by
    have hsegments := segments_of_stem (stem_descend d fun k hk => (hplain k hk).name) hplain
    rw [hfile, normalize_of_segments hd hroot hsegments hplain, habsolute, descend_append, resolve_of_startsAtRoot hd]
    rfl
  rw [hnormal]
  exact (accepted_of_groupOf hg).2

/-! ## Paths among options -/

/-- Valid options, of which paths are in normal form unless they hold the template. -/
structure Located (fs : Fields) : Prop where
  settled : Settled fs
  paths : ∀ o ∈ optionSpecs, o.type = .path → ∀ t, fs.get? o.key = some (.text t) →
    Text.startsWith t configDirTemplate = true ∨ normalize t = t

theorem located_nil : Located [] := ⟨settled_nil, fun _ _ _ _ h => by cases h⟩

theorem Located.merge {fs gs : Fields} (hf : Located fs) (hg : Located gs) : Located (fs.merge gs) where
  settled := hf.settled.merge hg.settled
  paths o ho htype t h := by
    rw [Fields.get?_merge hg.settled.distinct, Option.or_eq_some_iff] at h
    rcases h with h | ⟨-, h⟩
    · exact hg.paths o ho htype t h
    · exact hf.paths o ho htype t h

/-- A config reads its paths against its directory. -/
theorem Layer.Shows.located {base : Text} {config : Fields} {own : Layer}
    (h : own.Shows (ownOption base config) (ownSpecs config)) : Located own.options where
  settled := h.settled
  paths o ho htype t ht := by
    rw [h.option, ownOption, knownSpec?_key ho, Option.bind_some, htype, Option.map_eq_some_iff] at ht
    obtain ⟨v, -, hv⟩ := ht
    cases v with
    | text x =>
      obtain rfl : resolvePath base x = t := Value.text.inj hv
      unfold resolvePath
      split
      · rename_i htemplate
        exact Or.inl htemplate
      · exact Or.inr (normalize_normalize _)
    | _ => cases hv

/-- Where no options exist already, paths are in normal form in the end: the template has been replaced. -/
theorem normalize_of_get? {layer : Layer} (hl : Located layer.options) {base : Text} {options : Options}
    (hoptions : effectiveOptions base none layer = .ok options) {o : OptionSpec} (ho : o ∈ optionSpecs) (htype : o.type = .path)
    {t : Text} (ht : options.values.get? o.key = some (.text t)) : normalize t = t := by
  have hnone : ∀ o ∈ (none : Option Options), Settled o.values := by simp
  obtain ⟨options', hoptions', hget⟩ := effectiveOptions_of_settled hl.settled hnone base
  obtain rfl := Except.ok.inj (hoptions'.symm.trans hoptions)
  rw [hget, Option.bind_none, Option.or_none, Option.map_eq_some_iff] at ht
  obtain ⟨v, hv, hsubstitute⟩ := ht
  cases v with
  | text x =>
    obtain rfl : substituteText base x = t := by
      rw [substitute] at hsubstitute
      exact Value.text.inj hsubstitute
    unfold substituteText
    split
    · exact normalize_normalize _
    · rename_i htemplate
      exact (hl.paths o ho htype x hv).resolve_left htemplate
  | _ => simp [substitute] at hsubstitute

theorem get?_of_text? {options : Options} {name : String} {t : Text} (h : options.text? name = some t) :
    options.values.get? (Text.of name) = some (.text t) := by
  unfold Options.text? at h
  split at h
  · rename_i heq
    rw [heq, Option.some.inj h]
  · cases h

/-- Output directories are in normal form. -/
theorem normalize_of_mem_outputDirectories {layer : Layer} (hl : Located layer.options) {base : Text} {options : Options}
    (hoptions : effectiveOptions base none layer = .ok options) {d : Text} (hd : d ∈ outputDirectories options) :
    normalize d = d := by
  have htable : ⟨"outDir", .path⟩ ∈ optionSpecs ∧ ⟨"declarationDir", .path⟩ ∈ optionSpecs := by
    simp [optionSpecs, emitOptions]
  rcases List.mem_append.mp hd with hd | hd
  · exact normalize_of_get? hl hoptions htable.1 rfl (get?_of_text? (Option.mem_toList.mp hd))
  · exact normalize_of_get? hl hoptions htable.2 rfl (get?_of_text? (Option.mem_toList.mp hd))

/-! ## Root files -/

/-- A path in normal form is a valid exclude, unless a line feed hides a `..` at its end. -/
theorem mem_validSpecs_absolute {specs ns : List Text} (hns : ∀ n ∈ ns, IsPlain n) (hline : ∀ n ∈ ns, lineFeed ∉ n)
    (h : absolute ns ∈ specs) : absolute ns ∈ validSpecs false specs := by
  have hlast : ∀ n ∈ ns.getLast?, n ≠ Text.of "..\n" := by
    rintro n hn rfl
    exact hline _ (List.mem_of_getLast? hn) (by decide)
  refine List.mem_filter.mpr ⟨h, ?_⟩
  simp only [specProblem?, not_recursionThenParent_absolute hns hlast]
  rfl

/-- No file that is found lies below a path in normal form that is among the excludes. -/
theorem not_isBelow_of_mem_matchFiles {m : Host.Memory} (hm : m.PlainlyNamed) {s : Search} {specs : List Text}
    (hexcludes : s.excludes = validSpecs false specs) {d : Text} (hd : d ∈ specs) (hroot : startsAtRoot d = true)
    (hnormal : normalize d = d) {F : Text} (hF : F ∈ matchFiles m.tree s) : ¬ IsBelow d (normalize F) := by
  intro hbelow
  obtain ⟨ns, rfl, hns⟩ := eq_absolute_of_normalize hroot hnormal
  obtain ⟨t, ht⟩ := absolute_cons ns
  have hstart : startsAtRoot (normalize F) = true := by
    rw [startsAtRoot_of_start (ht ▸ List.cons_ne_nil _ _) ((prefix_stem _).trans hbelow.1), hroot]
  have hF' : normalize F = absolute (rootedNames F) := normalize_rooted (startsAtRoot_normalize_eq F ▸ hstart)
  have hplain : ∀ k ∈ rootedNames F, IsPlain k := fun _ => isPlain_of_mem_rootedNames
  rw [hF'] at hbelow
  obtain ⟨n, ms, hsplit⟩ := exists_of_isBelow (fun k hk => (hns k hk).name) (fun k hk => (hplain k hk).name) hbelow
  -- the names of the directory are among those of the file, which has no line feed in its path
  have hline : ∀ k ∈ ns, lineFeed ∉ k := by
    intro k hk hlf
    obtain ⟨v, -, name, hname, rfl, -⟩ := exists_met_of_mem_matchFiles hF
    have hsegment : k ∈ rootedNames (entry v.directory name) := hsplit ▸ List.mem_append_left _ hk
    have hmem := Text.mem_pieces_iff.mp ⟨k, List.mem_of_mem_filter (mem_fold hsegment).1, hlf⟩
    obtain ⟨c, hc, heq⟩ := List.mem_map.mp hmem.1
    split at heq
    · cases heq
    · exact Host.Memory.lineFeed_not_mem_entry hm hname (heq ▸ hc)
  have hslash : slash ∉ n := (hplain n (hsplit ▸ List.mem_append_right _ List.mem_cons_self)).name.2
  obtain ⟨e, he, hmatch⟩ := isMatch_exclude_below s.caseSensitive s.absolutePath hns
    (hexcludes ▸ mem_validSpecs_absolute hns hline hd) hslash ms
  have hexcluded := not_isExcluded_normalize (fun x k => Host.Memory.isPlain_of_mem_entries hm) hF hstart
  rw [hF', hsplit, absolute_of_ne_nil (by simp), Filter.isExcluded] at hexcluded
  change (ofSpecs? .exclude s.absolutePath s.excludes).any _ = false at hexcluded
  rw [he, Option.any_some] at hexcluded
  exact absurd hmatch (Bool.eq_false_iff.mp hexcluded)

/-- A root file that lies below such an exclude is listed. -/
theorem listed_of_mem_rootFiles {m : Host.Memory} (hm : m.PlainlyNamed) {o : Options} {base : Text}
    {files includes specs : List Text} {d : Text} (hd : d ∈ specs) (hroot : startsAtRoot d = true) (hnormal : normalize d = d)
    {F : Text} (hF : F ∈ rootFiles m.host o base files includes (validSpecs false specs)) (hbelow : IsBelow d (normalize F)) :
    ∃ f ∈ files, F = Path.resolve f base := by
  refine (mem_chooseFiles hF).resolve_right fun hfound => ?_
  by_cases hnone : includes.isEmpty = true
  · rw [if_pos hnone] at hfound
    cases hfound
  · rw [if_neg hnone] at hfound
    exact not_isBelow_of_mem_matchFiles hm rfl hd hroot hnormal hfound hbelow

/-! ## Configs that set an output directory -/

/-- A config that extends nothing and sets one option, its output directory. -/
theorem exists_resolve_of_outDir {m : Host.Memory} {r : Request} (hkeys : ∀ f ∈ r.config, Text.hasSurrogate f.1 = false)
    (hentries : validEntries r.config = []) (hexisting : r.existing = none) (hbase : startsAtRoot r.base = true) {t : Text}
    (hown : ownOptions r.config = [(Text.of "outDir", .text t)]) {c : CodePoint} {d : Text}
    (hd : substituteText (normalize r.base) (resolvePath (normalize r.base) t) = c :: d) :
    ∃ layer problems options, (resolveLayer m.host m.host.readableFiles r.config (normalize r.base) r.way).run [] =
        .ok (layer, problems) ∧
      layer.files = ownSpecs r.config "files" ∧ layer.includes = ownSpecs r.config "include" ∧
      layer.excludes = ownSpecs r.config "exclude" ∧ outputDirectories options = [c :: d] ∧
      options.extensionGroups = typeScriptGroups ∧ resolve m.host r = .ok (conclude m.host r layer options problems) := by
  have hconfig : Regular r.config := by
    refine ⟨hkeys, ?_, fun key _ => ?_, by simp [hentries]⟩
    · rw [hown]
      exact List.forall_mem_singleton.mpr (Text.hasSurrogate_of "outDir")
    · rw [hown, Fields.get?_cons]
      split <;> simp [Fields.get?]
  have hinherits : Inherits m.host (normalize r.base) r.way (validEntries r.config) .none := hentries ▸ .nil
  obtain ⟨layer, problems, hrun, hshows⟩ :=
    resolveLayer_shows (lists_memory m) hconfig hinherits trivial (startsAtRoot_normalize hbase)
  have hnone : ∀ o ∈ r.existing, Settled o.values := by simp [hexisting]
  obtain ⟨options, hoptions, hget⟩ := effectiveOptions_of_settled hshows.settled hnone (normalize r.base)
  have hspecs : ∀ key, effectiveSpecs r.config .none key = ownSpecs r.config key := fun key => Option.or_none
  have hvalue : ∀ o ∈ optionSpecs, options.values.get? o.key =
      ((declared? [(Text.of "outDir", .text t)] o).map (o.type.resolved (normalize r.base))).map
        (substitute (normalize r.base)) := by
    intro o ho
    rw [hget, hexisting, Option.bind_none, Option.or_none, hshows.option, effectiveOption_known ho, hown]
    exact congrArg (Option.map _) Option.or_none
  have htable : ⟨"outDir", .path⟩ ∈ optionSpecs ∧ ⟨"declarationDir", .path⟩ ∈ optionSpecs ∧
      ⟨"allowJs", .flag⟩ ∈ optionSpecs := by
    simp [optionSpecs, emitOptions, javaScriptOptions]
  have hres := resolve_ok_iff.mpr ⟨layer, problems, options, hrun, hoptions, rfl⟩
  refine ⟨layer, problems, options, hrun, ?_, ?_, ?_, ?_, ?_, hres⟩
  · rw [hshows.files, hspecs]
  · rw [hshows.includes, hspecs]
  · rw [hshows.excludes, hspecs]
  · have houtDir : options.values.get? (Text.of "outDir") = some (.text (c :: d)) := by
      rw [← hd]
      exact hvalue _ htable.1
    have hdeclarationDir : options.values.get? (Text.of "declarationDir") = none := hvalue _ htable.2.1
    simp only [outputDirectories, Options.text?, houtDir, hdeclarationDir]
    rfl
  · have hallowJs : options.values.get? (Text.of "allowJs") = none := hvalue _ htable.2.2
    simp only [Options.extensionGroups, Options.isSet, hallowJs]
    rfl

/-! ## Root files of a config -/

/-- A root file that lies below an output directory is one of the files listed, unless excludes are set: whatever the
includes are, and whatever characters the directory has in its names. -/
theorem resolve_avoidsOutput {m : Host.Memory} (hm : m.PlainlyNamed) {r : Request} (hexisting : r.existing = none)
    {layer : Layer} {problems : List Problem}
    (hlayer : (resolveLayer m.host m.host.readableFiles r.config (normalize r.base) r.way).run [] = .ok (layer, problems))
    (hexcludes : layer.excludes = none) {res : Resolution} (hres : resolve m.host r = .ok res) :
    ∀ d ∈ outputDirectories res.options, startsAtRoot d = true → ∀ F ∈ res.fileNames, IsBelow d (normalize F) →
      ∃ f ∈ (layer.mapSpecs (substituteText (normalize r.base))).files.getD [], F = Path.resolve f (normalize r.base) := by
  obtain ⟨layer', problems', options, hrun, hoptions, rfl⟩ := resolve_ok_iff.mp hres
  obtain ⟨rfl, -⟩ := Prod.mk.injEq .. ▸ Except.ok.inj (hlayer.symm.trans hrun)
  intro d hd hroot F hF hbelow
  rw [hexisting] at hoptions
  have hlocated : Located layer.options :=
    options_of_run located_nil Located.merge Layer.Shows.located (lists_memory m) hlayer
  have hnormal : normalize d = d := normalize_of_mem_outputDirectories hlocated hoptions hd
  have hspecs : (layer.mapSpecs (substituteText (normalize r.base))).excludes = none := by
    simp only [Layer.mapSpecs, hexcludes, Option.map_none]
  simp only [conclude, hspecs, Option.getD_none] at hF
  exact listed_of_mem_rootFiles hm hd hroot hnormal hF hbelow

/-- A project whose output directory has a wildcard in its name. A file below it is listed. -/
def starredOutput : Request where
  config := [(Text.of "compilerOptions", .object [(Text.of "outDir", .text (Text.of "out*.d"))]),
    (Text.of "files", .texts [Text.of "out*.d/c.ts"]), (Text.of "include", .texts [Text.of "**/*"])]
  base := Text.of "/proj"

def starredProject : Host.Memory := { files := [(Text.of "/proj/a.ts", some []), (Text.of "/proj/out*.d/b.ts", some [])] }

theorem resolve_avoidsOutput_starred :
    starredProject.PlainlyNamed ∧ starredOutput.existing = none ∧ ∃ layer problems res,
      (resolveLayer starredProject.host starredProject.host.readableFiles starredOutput.config (normalize starredOutput.base)
        starredOutput.way).run [] = .ok (layer, problems) ∧ layer.excludes = none ∧
      resolve starredProject.host starredOutput = .ok res ∧ outputDirectories res.options = [Text.of "/proj/out*.d"] ∧
      res.fileNames = [Text.of "/proj/out*.d/c.ts", Text.of "/proj/a.ts"] ∧
      ∀ F ∈ res.fileNames, IsBelow (Text.of "/proj/out*.d") (normalize F) →
        ∃ f ∈ (layer.mapSpecs (substituteText (normalize starredOutput.base))).files.getD [],
          F = Path.resolve f (normalize starredOutput.base) := by
  have hm : starredProject.PlainlyNamed := ⟨by decide, by decide⟩
  obtain ⟨layer, problems, options, hrun, hfiles, hincludes, hexcludes, hout, hgroups, hres⟩ :=
    exists_resolve_of_outDir (m := starredProject) (r := starredOutput) (by decide) (by decide) rfl (by decide) rfl rfl
  replace hfiles : layer.files = some [Text.of "out*.d/c.ts"] := hfiles
  replace hincludes : layer.includes = some [Text.of "**/*"] := hincludes
  replace hexcludes : layer.excludes = none := hexcludes
  replace hout : outputDirectories options = [Text.of "/proj/out*.d"] := hout
  have hnames : (conclude starredProject.host starredOutput layer options problems).fileNames =
      [Text.of "/proj/out*.d/c.ts", Text.of "/proj/a.ts"] := by
    simp only [conclude, rootFiles, Layer.mapSpecs, hfiles, hincludes, hexcludes, hout, hgroups]
    decide +kernel
  refine ⟨hm, rfl, layer, problems, _, hrun, hexcludes, hres, hout, hnames, ?_⟩
  exact resolve_avoidsOutput hm rfl hrun hexcludes hres _ (hout ▸ List.mem_cons_self) (by decide)

/-- A project with an output directory, beside which a file is named as if it were in there. -/
def backslashed : Request where
  config := [(Text.of "compilerOptions", .object [(Text.of "outDir", .text (Text.of "out"))])]
  base := Text.of "/proj"

def backslashedProject : Host.Memory := { files := [(Text.of "/proj/src/a.ts", some []), (Text.of "/proj/out\\b.ts", some [])] }

/-- Normalization takes a backslash for a slash, the search does not. -/
theorem resolve_backslashed :
    backslashedProject.caseSensitive = true ∧
      (∀ p ∈ backslashedProject.files.map (·.1) ++ backslashedProject.allDirectories, lineFeed ∉ p) ∧
      backslashed.existing = none ∧ startsAtRoot backslashed.base = true ∧ ∃ layer problems res,
      (resolveLayer backslashedProject.host backslashedProject.host.readableFiles backslashed.config (normalize backslashed.base)
        backslashed.way).run [] = .ok (layer, problems) ∧ layer.excludes = none ∧ layer.files = none ∧
      resolve backslashedProject.host backslashed = .ok res ∧ outputDirectories res.options = [Text.of "/proj/out"] ∧
      res.fileNames = [Text.of "/proj/out\\b.ts", Text.of "/proj/src/a.ts"] ∧
      IsBelow (Text.of "/proj/out") (normalize (Text.of "/proj/out\\b.ts")) := by
  obtain ⟨layer, problems, options, hrun, hfiles, hincludes, hexcludes, hout, hgroups, hres⟩ :=
    exists_resolve_of_outDir (m := backslashedProject) (r := backslashed) (by decide) (by decide) rfl (by decide) rfl rfl
  replace hfiles : layer.files = none := hfiles
  replace hincludes : layer.includes = none := hincludes
  replace hexcludes : layer.excludes = none := hexcludes
  replace hout : outputDirectories options = [Text.of "/proj/out"] := hout
  have hnames : (conclude backslashedProject.host backslashed layer options problems).fileNames =
      [Text.of "/proj/out\\b.ts", Text.of "/proj/src/a.ts"] := by
    simp only [conclude, rootFiles, Layer.mapSpecs, hfiles, hincludes, hexcludes, hout, hgroups, Option.map_none, and_self, if_true]
    decide +kernel
  exact ⟨rfl, by decide, rfl, rfl, layer, problems, _, hrun, hexcludes, hfiles, hres, hout, hnames, by decide⟩

end TsProject.Config
