/-
  TsProject.Proofs.Config.Inputs — a project without root files is reported.

  Nothing to compile is a problem: either the list of files is empty and there are no
  includes, or nothing is listed and nothing was found. One combination falls between the
  two: an effective list of files that is empty beside includes that find nothing.

  - `codes_of_noRoots` / `conclude_reports`: what is reported of a layer that is not in between.
  - `ofConfigFile_ok_iff`: what a program made from a config is made of.
  - `resolve_reports`: no root files without a report, and no program without root files.
-/

import TsProject.Program
import TsProject.Proofs.Config.Beside
import TsProject.Proofs.Config.Carried

namespace TsProject.Config

open TsProject.Path

variable {h : Host} {base : Text}

/-! ## Conclusions -/

/-- A file that is listed is a root file, whether it is found or not. -/
theorem rootFiles_ne_nil (h : Host) (o : Options) (base f : Text) (files includes excludes : List Text) :
    rootFiles h o base (f :: files) includes excludes ≠ [] := by
  intro hnil
  rw [rootFiles, chooseFiles, listedFiles_eq, List.map_eq_nil_iff, List.append_eq_nil_iff, lastSpelled,
    List.map_eq_nil_iff, List.map_cons, firsts] at hnil
  exact List.cons_ne_nil _ _ hnil.1

/-- A layer without root files is reported, unless its list of files is empty and it has includes. -/
theorem codes_of_noRoots {o : Options} {l : Layer} (hnone : l.roots h o base = [])
    (hclear : ¬ (l.files = some [] ∧ l.includes ≠ none)) : 18002 ∈ l.codes h o base ∨ 18003 ∈ l.codes h o base := by
  unfold Layer.codes
  cases hfiles : l.files with
  | none =>
    -- nothing is listed, so it is told that nothing was found
    right
    apply List.mem_append_right
    rw [hnone, if_pos ⟨rfl, rfl⟩]
    exact List.mem_singleton_self _
  | some files =>
    cases files with
    | nil =>
      have hincludes : l.includes = none := by
        by_contra hincludes
        exact hclear ⟨hfiles, hincludes⟩
      left
      rw [if_pos ⟨rfl, hincludes⟩]
      simp [Catalog.emptyFiles]
    | cons f files =>
      unfold Layer.roots at hnone
      rw [hfiles] at hnone
      exact absurd hnone (rootFiles_ne_nil h o base f files _ _)

/-- The same for what is concluded from a layer. -/
theorem conclude_reports {r : Request} {l : Layer} {o : Options} {ps : List Problem}
    (hnone : (conclude h r l o ps).fileNames = []) (hclear : ¬ (l.files = some [] ∧ l.includes ≠ none)) :
    ∃ p ∈ (conclude h r l o ps).problems, p.code = 18002 ∨ p.code = 18003 := by
  -- putting in the template keeps the number of specs
  have hclear' : ¬ ((l.mapSpecs (substituteText (normalize r.base))).files = some [] ∧
      (l.mapSpecs (substituteText (normalize r.base))).includes ≠ none) := by
    intro hopen
    apply hclear
    simpa [Layer.mapSpecs] using hopen
  have hroots : (l.mapSpecs (substituteText (normalize r.base))).roots h o (normalize r.base) = [] :=
    (congrArg (·.1) (told_conclude h r l o ps)).symm.trans hnone
  have hcode : ∀ code ∈ (l.mapSpecs (substituteText (normalize r.base))).codes h o (normalize r.base),
      ∃ p ∈ (conclude h r l o ps).problems, p.code = code := by
    intro code hmem
    apply List.mem_map.mp
    rw [codes_conclude]
    exact List.mem_append_right _ hmem
  rcases codes_of_noRoots hroots hclear' with hmem | hmem
  · obtain ⟨p, hp, hpcode⟩ := hcode _ hmem
    exact ⟨p, hp, Or.inl hpcode⟩
  · obtain ⟨p, hp, hpcode⟩ := hcode _ hmem
    exact ⟨p, hp, Or.inr hpcode⟩

/-! ## Whole requests -/

/-- The effective list of files is empty, and there are includes. -/
def ListsNoFile (h : Host) (r : Request) : Prop :=
  ∃ a, Inherits h (normalize r.base) r.way (validEntries r.config) a ∧
    writtenSpecs r.config a "files" = some [] ∧ writtenSpecs r.config a "include" ≠ none

theorem rootNames_create (h : Host) (grammar : Grammar) (names : List Text) (o : Options) :
    (Program.create h grammar names o).rootNames = names := by
  have hfold : ∀ (l : List Text) (p : Program), (l.foldl (Program.addRoot h grammar) p).rootNames = p.rootNames := by
    intro l
    induction l with
    | nil => exact fun _ => rfl
    | cons name l ih =>
      intro p
      rw [List.foldl_cons, ih, Program.addRoot]
      split
      · rfl
      · split <;> rfl
  exact hfold names _

/-- The request that a program is made from. -/
def programRequest (h : Host) (configPath : Text) (config : Fields) : Request where
  config := config
  base := directory (Path.resolve configPath h.currentDirectory)
  fileName := some (Path.resolve configPath h.currentDirectory)

theorem ofConfigFile_eq (h : Host) (grammar : Grammar) (configPath : Text) : Program.ofConfigFile h grammar configPath =
    match load h.text? (Path.resolve configPath h.currentDirectory) with
    | .error problem => .error (.problems [problem])
    | .ok config =>
      match resolve h (programRequest h configPath config) with
      | .error failure => .error (.config failure)
      | .ok res =>
        if res.problems.isEmpty then .ok (Program.create h grammar res.fileNames res.options)
        else .error (.problems res.problems) := rfl

/-- A program is made from a config without problems, of its root files. -/
theorem ofConfigFile_ok_iff {grammar : Grammar} {configPath : Text} {p : Program} :
    Program.ofConfigFile h grammar configPath = .ok p ↔
      ∃ config res, load h.text? (Path.resolve configPath h.currentDirectory) = .ok config ∧
        resolve h (programRequest h configPath config) = .ok res ∧ res.problems = [] ∧
        p = Program.create h grammar res.fileNames res.options := by
  rw [ofConfigFile_eq]
  constructor
  · intro hp
    cases hload : load h.text? (Path.resolve configPath h.currentDirectory) with
    | error problem =>
      rw [hload] at hp
      cases hp
    | ok config =>
      simp only [hload] at hp
      cases hres : resolve h (programRequest h configPath config) with
      | error failure =>
        rw [hres] at hp
        cases hp
      | ok res =>
        simp only [hres] at hp
        by_cases hproblems : res.problems.isEmpty = true
        · rw [if_pos hproblems] at hp
          exact ⟨config, res, rfl, hres, List.isEmpty_iff.mp hproblems, (Except.ok.inj hp).symm⟩
        · rw [if_neg hproblems] at hp
          cases hp
  · rintro ⟨config, res, hload, hres, hproblems, rfl⟩
    simp only [hload, hres, hproblems, List.isEmpty_nil, if_true]

/-- A request that comes to no root files is reported as a project without inputs, and no program is made
from a config that comes to none; except where the effective list of files is empty beside includes. -/
theorem resolve_reports {readable : List Text} (hr : Lists h readable) :
    (∀ r res, resolve h r = .ok res → res.fileNames = [] → ¬ ListsNoFile h r →
      ∃ p ∈ res.problems, p.code = 18002 ∨ p.code = 18003) ∧
    ∀ grammar configPath p, Program.ofConfigFile h grammar configPath = .ok p → p.rootNames = [] →
      ∃ config, load h.text? (Path.resolve configPath h.currentDirectory) = .ok config ∧
        ListsNoFile h (programRequest h configPath config) := by
  have hreports : ∀ r res, resolve h r = .ok res → res.fileNames = [] → ¬ ListsNoFile h r →
      ∃ p ∈ res.problems, p.code = 18002 ∨ p.code = 18003 := by
    intro r res hres hnone hclear
    obtain ⟨layer, problems, options, hrun, -, rfl⟩ := resolve_ok_iff.mp hres
    obtain ⟨a, ha⟩ := exists_inherits hr r.config (normalize r.base) r.way
    have hinherits := (ha a).mpr rfl
    have hcarries := resolveLayer_carries hr hinherits hrun
    apply conclude_reports hnone
    intro hopen
    apply hclear
    refine ⟨a, hinherits, hcarries.files.eq_nil_iff.mp hopen.1, ?_⟩
    intro hincludes
    exact hopen.2 (hcarries.includes.eq_none_iff.mpr hincludes)
  refine ⟨hreports, ?_⟩
  intro grammar configPath p hp hnone
  obtain ⟨config, res, hload, hres, hproblems, rfl⟩ := ofConfigFile_ok_iff.mp hp
  rw [rootNames_create] at hnone
  refine ⟨config, hload, ?_⟩
  by_contra hclear
  obtain ⟨q, hq, -⟩ := hreports _ res hres hnone hclear
  rw [hproblems] at hq
  cases hq

/-- A directory with nothing in it but a config. -/
def emptyProject (config : String) : Host := Host.Memory.host
  { files := [(Text.of "/proj/tsconfig.json", some (Text.of config))] }

def includesSource : Request where
  config := [(Text.of "include", .texts [Text.of "src/**/*"])]
  base := Text.of "/proj"

theorem resolve_reports_source :
    Lists (emptyProject "") [Text.of "/proj/tsconfig.json"] ∧ ¬ ListsNoFile (emptyProject "") includesSource ∧
      ∃ res, resolve (emptyProject "") includesSource = .ok res ∧ res.fileNames = [] ∧
        ∃ p ∈ res.problems, p.code = 18002 ∨ p.code = 18003 := by
  have hlists : Lists (emptyProject "") [Text.of "/proj/tsconfig.json"] := lists_memory _
  have hclear : ¬ ListsNoFile (emptyProject "") includesSource := by
    rintro ⟨a, ha, hfiles, -⟩
    have hentries : validEntries includesSource.config = [] := rfl
    rw [hentries] at ha
    cases ha
    cases hfiles
  have hres : resolve (emptyProject "") includesSource = .ok _ := resolve_of_specs rfl rfl rfl rfl
  have hnone : (conclude (emptyProject "") includesSource { includes := some [Text.of "src/**/*"] } {} []).fileNames = [] := by
    decide +kernel
  exact ⟨hlists, hclear, _, hres, hnone, (resolve_reports hlists).1 _ _ hres hnone hclear⟩

/-- An empty list of files beside includes that find nothing. -/
def listsNothing : Request where
  config := [(Text.of "files", .array []), (Text.of "include", .texts [Text.of "src/**/*"])]
  base := Text.of "/proj"

/-- Nothing is found, nothing is reported, and a program without root files is made. -/
theorem resolve_listsNothing :
    (∃ res, resolve (Host.Memory.host {}) listsNothing = .ok res ∧ res.fileNames = [] ∧ res.problems = []) ∧
      ∀ grammar, ∃ p, Program.ofConfigFile (emptyProject "\x7b\"files\": [], \"include\": [\"src/**/*\"]\x7d") grammar
        (Text.of "/proj/tsconfig.json") = .ok p ∧ p.rootNames = [] := by
  constructor
  · exact ⟨_, resolve_of_specs rfl rfl rfl rfl, by decide +kernel, by decide +kernel⟩
  · intro grammar
    let h := emptyProject "\x7b\"files\": [], \"include\": [\"src/**/*\"]\x7d"
    have hload : load h.text? (Text.of "/proj/tsconfig.json") = .ok listsNothing.config := by cbv
    have hres : resolve h (programRequest h (Text.of "/proj/tsconfig.json") listsNothing.config) = .ok _ :=
      resolve_of_specs rfl rfl rfl rfl
    refine ⟨_, ofConfigFile_ok_iff.mpr ⟨_, _, hload, hres, ?_, rfl⟩, ?_⟩
    · decide +kernel
    · rw [rootNames_create]
      decide +kernel

end TsProject.Config
