/-
  TsProject.Proofs.Config.Location — where the file of an `extends` entry is looked for.

  A package is looked up in the directory of the config and in each one above it, nearest
  first, and in each of them under a few names in a fixed order. The search ends at a
  directory that is its own parent. An entry gives the first file that is there; where
  none is, it gives one problem. Two things are not as one would have it: a file named
  with `.json` is taken without a look at it, and the empty directory, which is above
  every relative path, is taken for the root.

  - `exists_enclosing_eq`: the directories of a search, each once.
  - `Offers`: the names under which a package may have its config.
  - `packageConfig?_nearest`: the nearest package wins.
  - `extendsPath_locates`: an entry is located or reported, and when it is neither.
-/

import TsProject.Config.Extends
import TsProject.Host.Memory
import TsProject.Proofs.Directory
import Mathlib

namespace TsProject.Config

open CodePoint TsProject.Path

/-! ## The directories of a search -/

/-- A search goes up from directory to directory, as long as they get shorter, and stops at one that is its own
parent. -/
theorem exists_enclosing_eq {d : Text} (hd : normalize d = d) : ∃ n,
    enclosing d = (List.range (n + 1)).map (directory^[·] d) ∧ directory^[n + 1] d = directory^[n] d ∧
      ∀ k < n, (directory^[k + 1] d).length < (directory^[k] d).length := by
  induction d using enclosing.induct with
  | case1 d above ih =>
    rcases directory_eq_or_shorter hd with hself | hshorter
    · refine ⟨0, ?_, hself, fun k hk => absurd hk (Nat.not_lt_zero k)⟩
      have hstop : ¬ (directory d).length < d.length := by
        rw [hself]
        exact Nat.lt_irrefl _
      rw [enclosing, if_neg hstop]
      rfl
    · obtain ⟨n, henclosing, hlast, hlength⟩ := ih hshorter (normalize_directory d)
      refine ⟨n + 1, ?_, hlast, fun k hk => ?_⟩
      · rw [enclosing, if_pos hshorter, henclosing, List.range_succ_eq_map (n := n + 1), List.map_cons, List.map_map]
        rfl
      · cases k with
        | zero => exact hshorter
        | succ k => exact hlength k (Nat.lt_of_succ_lt_succ hk)

theorem normalize_of_mem_enclosing {d e : Text} (hd : normalize d = d) (he : e ∈ enclosing d) : normalize e = e := by
  induction d using enclosing.induct with
  | case1 d above ih =>
    rw [enclosing] at he
    rcases List.mem_cons.mp he with rfl | he
    · exact hd
    · by_cases hlt : above.length < d.length
      · rw [if_pos hlt] at he
        exact ih hlt (normalize_directory d) he
      · rw [if_neg hlt] at he
        cases he

theorem startsAtRoot_of_mem_enclosing_iff {d e : Text} (hd : normalize d = d) (he : e ∈ enclosing d) :
    startsAtRoot e = startsAtRoot d := by
  induction d using enclosing.induct with
  | case1 d above ih =>
    rw [enclosing] at he
    rcases List.mem_cons.mp he with rfl | he
    · rfl
    · by_cases hlt : above.length < d.length
      · rw [if_pos hlt] at he
        rw [ih hlt (normalize_directory d) he, startsAtRoot_directory_eq, ← startsAtRoot_normalize_eq, hd]
      · rw [if_neg hlt] at he
        cases he

/-- The empty directory is searched on behalf of a relative path, and of no other. -/
theorem nil_mem_enclosing_iff {d : Text} (hd : normalize d = d) : [] ∈ enclosing d ↔ startsAtRoot d = false := by
  constructor
  · intro hnil
    rw [← startsAtRoot_of_mem_enclosing_iff hd hnil]
    rfl
  · intro hstart
    obtain ⟨n, henclosing, hlast, -⟩ := exists_enclosing_eq hd
    have hmem : directory^[n] d ∈ enclosing d := by
      rw [henclosing]
      exact List.mem_map_of_mem (List.mem_range.mpr (Nat.lt_succ_self n))
    rw [Function.iterate_succ_apply'] at hlast
    have hnil := eq_nil_of_directory_eq (normalize_of_mem_enclosing hd hmem)
      ((startsAtRoot_of_mem_enclosing_iff hd hmem).trans hstart) hlast
    rwa [hnil] at hmem

/-! ## The names of a package -/

/-- The manifest of a package is a JSON object that names a config. -/
def Declares (h : Host) (package name : Text) : Prop :=
  ∃ manifest fields, h.text? (package ++ Text.of "/package.json") = some manifest ∧
    Json.parse? manifest = some (.object fields) ∧ Fields.get? fields (Text.of "tsconfig") = some (.text name)

/-- Where the config of a package may be, in order of preference: a manifest that declares none takes nothing but its
own place from the list. -/
inductive Offers (h : Host) (package : Text) : List Text → Prop
  | declared {name : Text} : Declares h package name →
      Offers h package [package, package ++ Text.of ".json", normalize (package ++ slash :: name),
        package ++ Text.of "/tsconfig.json"]
  | undeclared : (∀ name, ¬ Declares h package name) →
      Offers h package [package, package ++ Text.of ".json", package ++ Text.of "/tsconfig.json"]

/-- The directory in which packages are looked for: the root in place of the empty directory. -/
def searched (d : Text) : Text := if d = [] then [slash] else d

variable {h : Host}

theorem declaredConfig?_eq_some_iff {manifest name : Text} : declaredConfig? manifest = some name ↔
    ∃ fields, Json.parse? manifest = some (.object fields) ∧
      Fields.get? fields (Text.of "tsconfig") = some (.text name) := by
  unfold declaredConfig?
  split
  · rename_i fields hparse
    rw [hparse]
    constructor
    · intro hbind
      obtain ⟨v, hv, hname⟩ := Option.bind_eq_some_iff.mp hbind
      cases v <;> cases hname
      exact ⟨fields, rfl, hv⟩
    · rintro ⟨_, hfields, hname⟩
      cases hfields
      rw [hname]
      rfl
  · rename_i hother
    exact ⟨fun hnone => (by cases hnone), fun ⟨fields, hparse, _⟩ => absurd hparse (hother fields)⟩

theorem declares_iff {package name : Text} : Declares h package name ↔
    (h.text? (package ++ Text.of "/package.json")).bind declaredConfig? = some name := by
  rw [Option.bind_eq_some_iff]
  simp only [declaredConfig?_eq_some_iff]
  exact ⟨fun ⟨m, fs, hm, hfs⟩ => ⟨m, hm, fs, hfs⟩, fun ⟨m, hm, fs, hfs⟩ => ⟨m, fs, hm, hfs⟩⟩

theorem packageRoot_eq_join {d : Text} (hd : normalize d = d) (spec : Text) :
    packageRoot d spec = join (searched d) (Text.of "node_modules/" ++ spec) := by
  by_cases hnil : d = []
  · rw [hnil]
    rfl
  · have hname : startsAtRoot (Text.of "node_modules/" ++ spec) = false := rfl
    rw [searched, if_neg hnil, join_eq_trimEnd hd hnil hname, packageRoot, List.append_assoc]
    rfl

/-- The names under which a package is looked for in a directory. -/
theorem packageCandidates_offers {d : Text} (hd : normalize d = d) (spec : Text) :
    Offers h (join (searched d) (Text.of "node_modules/" ++ spec)) (packageCandidates h spec d) := by
  rw [← packageRoot_eq_join hd, packageCandidates]
  cases hdeclared : (h.text? (packageRoot d spec ++ Text.of "/package.json")).bind declaredConfig? with
  | some name => exact .declared (declares_iff.mpr hdeclared)
  | none =>
    refine .undeclared fun name hname => ?_
    rw [declares_iff, hdeclared] at hname
    cases hname

/-! ## The nearest package -/

/-- The path is the first one in a list that is a file. -/
def FirstFile (h : Host) (paths : List Text) (path : Text) : Prop :=
  ∃ before after, paths = before ++ path :: after ∧ h.fileExists path = true ∧ ∀ p ∈ before, h.fileExists p = false

theorem find?_eq_some_iff_firstFile {paths : List Text} {path : Text} :
    paths.find? h.fileExists = some path ↔ FirstFile h paths path := by
  rw [List.find?_eq_some_iff_append]
  simp only [Bool.not_eq_true']
  exact ⟨fun ⟨hp, before, after, hsplit, hbefore⟩ => ⟨before, after, hsplit, hp, hbefore⟩,
    fun ⟨before, after, hsplit, hp, hbefore⟩ => ⟨hp, before, after, hsplit, hbefore⟩⟩

theorem find?_eq_none_iff_forall {paths : List Text} :
    paths.find? h.fileExists = none ↔ ∀ p ∈ paths, h.fileExists p = false := by
  simp only [List.find?_eq_none, Bool.not_eq_true]

/-- The search for a package ends. It takes the directory it starts from, in normal form, and then each one above it
once, nearest first, and gives the first file there is among the names the package may have its config under. It gives
none only where no directory has any. The empty directory, which is the last one above a relative path, is searched as
if it were the root. -/
theorem packageConfig?_nearest (h : Host) (spec base : Text) :
    (∃ n, enclosing (normalize base) = (List.range (n + 1)).map (directory^[·] (normalize base)) ∧
      directory^[n + 1] (normalize base) = directory^[n] (normalize base) ∧
      ∀ k < n, (directory^[k + 1] (normalize base)).length < (directory^[k] (normalize base)).length) ∧
    ([] ∈ enclosing (normalize base) ↔ startsAtRoot (forwardSlashes base) = false) ∧
    (∀ d ∈ enclosing (normalize base),
      Offers h (join (searched d) (Text.of "node_modules/" ++ spec)) (packageCandidates h spec d)) ∧
    (∀ path, packageConfig? h spec base = some path ↔
      ∃ nearer d further, enclosing (normalize base) = nearer ++ d :: further ∧
        FirstFile h (packageCandidates h spec d) path ∧
        ∀ e ∈ nearer, ∀ p ∈ packageCandidates h spec e, h.fileExists p = false) ∧
    (packageConfig? h spec base = none ↔
      ∀ d ∈ enclosing (normalize base), ∀ p ∈ packageCandidates h spec d, h.fileExists p = false) := by
  have hnormal := normalize_normalize base
  have hfind : packageConfig? h spec base =
      (enclosing (normalize base)).findSome? fun d => (packageCandidates h spec d).find? h.fileExists :=
    List.find?_flatMap
  refine ⟨exists_enclosing_eq hnormal, ?_, fun d hd => ?_, fun path => ?_, ?_⟩
  · rw [nil_mem_enclosing_iff hnormal, startsAtRoot_normalize_eq]
  · exact packageCandidates_offers (normalize_of_mem_enclosing hnormal hd) spec
  · rw [hfind, List.findSome?_eq_some_iff]
    simp only [find?_eq_some_iff_firstFile, find?_eq_none_iff_forall]
  · rw [hfind, List.findSome?_eq_none_iff]
    simp only [find?_eq_none_iff_forall]

/-- A package beside a relative directory, where it is not looked for. -/
def besideRelative : Host := Host.Memory.host { files := [(Text.of "node_modules/pkg.json", some (Text.of "\x7b\x7d"))] }

theorem packageConfig?_besideRelative : directory (Text.of "proj") = [] ∧
    besideRelative.fileExists (join [] (Text.of "node_modules/" ++ Text.of "pkg") ++ Text.of ".json") = true ∧
    packageConfig? besideRelative (Text.of "pkg") (Text.of "proj") = none := by
  refine ⟨rfl, rfl, ?_⟩
  cbv

/-! ## Entries -/

/-- Where the file of an entry is looked for, in order. -/
def locations (h : Host) (entry base : Text) : List Text :=
  let entry := forwardSlashes entry
  if isFileEntry entry then
    let path := Path.resolve entry base
    path :: if Text.endsWith path (Text.of ".json") then [] else [path ++ Text.of ".json"]
  else if entry.isEmpty then [] else (enclosing (normalize base)).flatMap (packageCandidates h entry)

/-- The entry names a file, with `.json`, that is not there. -/
def NamesMissing (h : Host) (entry base : Text) : Prop :=
  isFileEntry (forwardSlashes entry) = true ∧
    Text.endsWith (Path.resolve (forwardSlashes entry) base) (Text.of ".json") = true ∧
    h.fileExists (Path.resolve (forwardSlashes entry) base) = false

instance (h : Host) (entry base : Text) : Decidable (NamesMissing h entry base) := inferInstanceAs (Decidable (_ ∧ _))

/-- What is wrong with an entry for which there is no file. -/
def locationProblem (entry : Text) : Problem :=
  if entry = [] then .emptyOption (Text.of "extends") else .fileNotFound (forwardSlashes entry)

/-- An entry leads to the first file there is where it is looked for. Where there is none, it is a problem, unless it
names a file with `.json`. -/
theorem extendsPath_eq (h : Host) (entry base : Text) : extendsPath h entry base =
    match (locations h entry base).find? h.fileExists with
    | some path => .ok path
    | none =>
      if NamesMissing h entry base then .ok (Path.resolve (forwardSlashes entry) base)
      else .error (locationProblem entry) := by
  have hempty : (forwardSlashes entry).isEmpty = entry.isEmpty := by cases entry <;> rfl
  by_cases hfile : isFileEntry (forwardSlashes entry) = true
  · have hne : entry ≠ [] := by
      rintro rfl
      cases hfile
    by_cases hends : Text.endsWith (Path.resolve (forwardSlashes entry) base) (Text.of ".json") = true
    · cases hexists : h.fileExists (Path.resolve (forwardSlashes entry) base) with
      | true => simp [extendsPath, locations, hfile, hexists]
      | false => simp [extendsPath, locations, NamesMissing, hfile, hends, hexists]
    · cases hexists : h.fileExists (Path.resolve (forwardSlashes entry) base) with
      | true => simp [extendsPath, locations, hfile, hexists]
      | false =>
        cases hexists' : h.fileExists (Path.resolve (forwardSlashes entry) base ++ Text.of ".json") with
        | true => simp [extendsPath, locations, hfile, hends, hexists, hexists']
        | false => simp [extendsPath, locations, locationProblem, NamesMissing, hfile, hends, hexists, hexists', hne]
  · cases hentry : entry.isEmpty with
    | true =>
      obtain rfl := List.isEmpty_iff.mp hentry
      rfl
    | false =>
      have hne : entry ≠ [] := List.isEmpty_eq_false_iff.mp hentry
      have hlocations : (locations h entry base).find? h.fileExists = packageConfig? h (forwardSlashes entry) base := by
        simp only [locations, hfile, hempty, hentry]
        rfl
      rw [hlocations]
      cases hpackage : packageConfig? h (forwardSlashes entry) base with
      | some path => simp [extendsPath, hfile, hempty, hne, hpackage]
      | none => simp [extendsPath, locationProblem, NamesMissing, hfile, hempty, hne, hpackage]

theorem code_locationProblem (entry : Text) : (locationProblem entry).code = if entry = [] then 18051 else 6053 := by
  unfold locationProblem
  split <;> rfl

/-- The entry leads to a file that exists, the first one there is where it is looked for. -/
def Leads (h : Host) (entry base : Text) : Prop :=
  ∃ path, extendsPath h entry base = .ok path ∧ FirstFile h (locations h entry base) path

/-- There is no file where the entry is looked for, and it gives the problem that says so. -/
def Reported (h : Host) (entry base : Text) : Prop :=
  (∀ path ∈ locations h entry base, h.fileExists path = false) ∧
    ∃ problem, extendsPath h entry base = .error problem ∧ problem.code = if entry = [] then 18051 else 6053

/-- An entry leads to a file that exists, or it is reported: as empty, or else as not found. The exception is an entry
that names a file with `.json` that is not there, which leads to that file. -/
theorem extendsPath_locates (h : Host) (entry base : Text) :
    (Leads h entry base ∨ Reported h entry base ↔ ¬ NamesMissing h entry base) ∧
      (NamesMissing h entry base → extendsPath h entry base = .ok (Path.resolve (forwardSlashes entry) base)) := by
  have heq := extendsPath_eq h entry base
  cases hfind : (locations h entry base).find? h.fileExists with
  | some path =>
    rw [hfind] at heq
    have hleads : Leads h entry base := ⟨path, heq, find?_eq_some_iff_firstFile.mp hfind⟩
    have hthere : ¬ NamesMissing h entry base := by
      rintro ⟨hfile, hends, hmissing⟩
      simp [locations, hfile, hends, hmissing] at hfind
    exact ⟨⟨fun _ => hthere, fun _ => Or.inl hleads⟩, fun hnamed => absurd hnamed hthere⟩
  | none =>
    rw [hfind] at heq
    have hnone := find?_eq_none_iff_forall.mp hfind
    by_cases hnamed : NamesMissing h entry base
    · rw [if_pos hnamed] at heq
      refine ⟨⟨?_, fun hnot => absurd hnamed hnot⟩, fun _ => heq⟩
      rintro (⟨path, -, before, after, hsplit, hexists, -⟩ | ⟨-, problem, hproblem, -⟩)
      · rw [hnone path (by simp [hsplit])] at hexists
        cases hexists
      · rw [heq] at hproblem
        cases hproblem
    · rw [if_neg hnamed] at heq
      have hreported : Reported h entry base := ⟨hnone, locationProblem entry, heq, code_locationProblem entry⟩
      exact ⟨⟨fun _ => hnamed, fun _ => Or.inr hreported⟩, fun hn => absurd hn hnamed⟩

/-- The same missing file, named with and without its extension. -/
theorem extendsPath_missing :
    extendsPath (Host.Memory.host {}) (Text.of "./missing.json") (Text.of "/proj") = .ok (Text.of "/proj/missing.json") ∧
      (Host.Memory.host {}).fileExists (Text.of "/proj/missing.json") = false ∧
      extendsPath (Host.Memory.host {}) (Text.of "./missing") (Text.of "/proj") =
        .error (.fileNotFound (Text.of "./missing")) :=
  ⟨rfl, rfl, rfl⟩

end TsProject.Config
