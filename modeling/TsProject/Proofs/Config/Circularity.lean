/-
  TsProject.Proofs.Config.Circularity — circles of configs are found, and nothing else is.

  A route is a sequence of files, each named by an `extends` entry of the config before
  it. A circle is reported for every route that comes back to a file on it as soon as it
  does, and for no other: a config that is reached twice along different routes is none.

  - `circular_mem_iff`: the circles reported are exactly the routes that just closed.
  - `exists_circle_iff`: there is one whenever some route ends in a file it has passed.
  - `resolve_circularity`: what resolving a config reports and how deep it nests.
-/

import TsProject.Config.Resolution
import TsProject.Proofs.Config.Extends
import TsProject.Proofs.Config.Validation
import Mathlib

namespace TsProject.Config

/-! ## Which problems are circles -/

theorem Problem.code_eq_iff (p : Problem) : p.code = 18000 ↔ ∃ chain, p = .circular chain := by
  cases p with
  | circular chain => exact ⟨fun _ => ⟨chain, rfl⟩, fun _ => rfl⟩
  | unknownOption name suggestion => cases suggestion <;> exact ⟨fun h => (by cases h), fun ⟨_, h⟩ => (by cases h)⟩
  | _ => exact ⟨fun h => (by cases h), fun ⟨_, h⟩ => (by cases h)⟩

theorem Fault.problem_ne_circular (key : Text) (fault : Fault) (chain : List Text) :
    fault.problem key ≠ .circular chain := by
  cases fault <;> simp [Fault.problem]

theorem extendsPath_ne_circular {h : Host} {entry base : Text} {p : Problem} (he : extendsPath h entry base = .error p)
    (chain : List Text) : p ≠ .circular chain := by
  rintro rfl
  unfold extendsPath at he
  simp only at he
  split at he
  · split at he
    · cases he
    · split at he <;> cases he
  · split at he
    · cases he
    · split at he <;> cases he

theorem load_ne_circular {read : Text → Option Text} {file : Text} {p : Problem} (he : load read file = .error p)
    (chain : List Text) : p ≠ .circular chain := by
  rintro rfl
  unfold load parseText at he
  split at he
  · cases he
  · simp only at he
    split at he
    · cases he
    · split at he <;> cases he

theorem circular_of_follow {h : Host} {base : Text} {path : List Text} {entry : Text} {chain : List Text} :
    follow h base path entry = .error (.circular chain) ↔
      ∃ file, extendsPath h entry base = .ok file ∧ path.any (sameFile h file) = true ∧ chain = path ++ [file] := by
  unfold follow
  constructor
  · intro hf
    split at hf
    · rename_i problem hp
      cases hf
      exact absurd rfl (extendsPath_ne_circular hp chain)
    · rename_i file hp
      split at hf
      · rename_i hc
        cases hf
        exact ⟨file, hp, hc, rfl⟩
      · cases hl : load h.text? file with
        | error p =>
          rw [hl] at hf
          cases hf
          exact absurd rfl (load_ne_circular hl chain)
        | ok config => rw [hl] at hf; cases hf
  · rintro ⟨file, hp, hc, rfl⟩
    simp [hp, hc]

theorem setting_ne_circular {α : Type} {config : Fields} {key : String} {check : Value → Except Fault α}
    (chain : List Text) : .circular chain ∉ (setting config key check).2 := by
  intro hm
  unfold setting at hm
  split at hm
  · cases hm
  · cases hm
  · split at hm
    · cases hm
    · exact Fault.problem_ne_circular _ _ _ (List.mem_singleton.mp hm).symm

theorem checkedOptions_ne_circular (raw : Fields) (chain : List Text) :
    .circular chain ∉ (checkedOptions raw).problems := by
  have hoption : ∀ o, .circular chain ∉ (checkOption raw o).problems := by
    intro o hm
    obtain ⟨fault, hf⟩ := problem_of_checkOption hm
    exact Fault.problem_ne_circular _ _ _ hf.symm
  simp only [checkedOptions, List.mem_append, List.mem_flatMap, List.mem_map, not_or]
  refine ⟨⟨?_, hoption _⟩, ?_⟩
  · rintro ⟨o, -, hm⟩
    exact hoption o hm
  · rintro ⟨key, -, hk⟩
    cases hk

theorem ownLayer_ne_circular {config : Fields} {base : Text} {r : Layer × List Text} {ps : List Problem}
    (hrun : (ownLayer config base).run [] = .ok (r, ps)) (chain : List Text) : .circular chain ∉ ps := by
  obtain ⟨own, entries⟩ := r
  obtain ⟨top, problems, options, htop, hoptions, -, -, rfl⟩ := run_ownLayer_iff.mp hrun
  rw [(topLevel_ok htop).2, convertOptions_ok hoptions]
  simp only [List.mem_append, setting_ne_circular, or_self, false_or]
  exact checkedOptions_ne_circular _ chain

/-! ## Circles and routes -/

variable {h : Host}

/-- The route from a config along which a circle closes for the first time, behind the files on the way. -/
inductive Circle (h : Host) : Fields → Text → List Text → List Text → Prop
  | close {config : Fields} {base : Text} {path : List Text} {entry file : Text} : entry ∈ validEntries config →
      extendsPath h entry base = .ok file → path.any (sameFile h file) = true → Circle h config base path (path ++ [file])
  | further {config : Fields} {base : Text} {path : List Text} {entry file : Text} {config' : Fields}
      {chain : List Text} : entry ∈ validEntries config → follow h base path entry = .ok (file, config') →
      Circle h config' (Path.directory file) (path ++ [file]) chain → Circle h config base path chain

/-- A sequence of files: an entry of the config leads to the first, an entry of the config in each file
to the next one. -/
inductive Route (h : Host) : Fields → Text → List Text → Prop
  | last {config : Fields} {base entry file : Text} : entry ∈ validEntries config → extendsPath h entry base = .ok file →
      Route h config base [file]
  | further {config : Fields} {base entry file : Text} {config' : Fields} {files : List Text} :
      entry ∈ validEntries config → extendsPath h entry base = .ok file → load h.text? file = .ok config' →
      Route h config' (Path.directory file) files → Route h config base (file :: files)

/-- The last file is one of those before it. -/
def ComesBack (h : Host) (files : List Text) : Prop :=
  ∃ before last, files = before ++ [last] ∧ before.any (sameFile h last) = true

theorem Circle.route {config : Fields} {base : Text} {path chain : List Text} (hc : Circle h config base path chain) :
    ∃ files, chain = path ++ files ∧ Route h config base files ∧ ComesBack h chain := by
  induction hc with
  | close he hp hany => exact ⟨_, rfl, .last he hp, _, _, rfl, hany⟩
  | further he hf _ ih =>
    obtain ⟨files, rfl, hroute, hback⟩ := ih
    obtain ⟨hp, -, hload⟩ := follow_ok hf
    exact ⟨_ :: files, by simp, .further he hp hload hroute, hback⟩

theorem exists_circle_of_route {config : Fields} {base : Text} {files : List Text} (hr : Route h config base files)
    {path : List Text} (hback : ComesBack h (path ++ files)) : ∃ chain, Circle h config base path chain := by
  induction hr generalizing path with
  | last he hp =>
    obtain ⟨before, last, hsplit, hany⟩ := hback
    obtain ⟨rfl, hlast⟩ := List.append_inj' hsplit rfl
    obtain rfl := List.cons.inj hlast |>.1
    exact ⟨_, .close he hp hany⟩
  | @further config base entry file config' files he hp hload _ ih =>
    by_cases hany : path.any (sameFile h file) = true
    · exact ⟨_, .close he hp hany⟩
    · have hback' : ComesBack h ((path ++ [file]) ++ files) := by simpa using hback
      obtain ⟨chain, hchain⟩ := ih hback'
      refine ⟨chain, .further he ?_ hchain⟩
      simp [follow, hp, hany, hload, Except.map]

/-- A circle closes somewhere exactly when some route comes back. -/
theorem exists_circle_iff {config : Fields} {base : Text} {path : List Text} :
    (∃ chain, Circle h config base path chain) ↔ ∃ files, Route h config base files ∧ ComesBack h (path ++ files) := by
  constructor
  · rintro ⟨chain, hc⟩
    obtain ⟨files, rfl, hroute, hback⟩ := hc.route
    exact ⟨files, hroute, hback⟩
  · rintro ⟨files, hroute, hback⟩
    exact exists_circle_of_route hroute hback

/-! ## What is reported -/

/-- The circles reported are exactly those that close. -/
theorem circular_mem_iff {readable : List Text} (hr : Lists h readable) {config : Fields} {base : Text} {path : List Text}
    {layer : Layer} {ps : List Problem}
    (hrun : (resolveLayer h h.readableFiles config base path).run [] = .ok (layer, ps)) (chain : List Text) :
    .circular chain ∈ ps ↔ Circle h config base path chain := by
  induction config, base, path using extends_induction hr generalizing layer ps with
  | step config base path ih =>
    rw [resolveLayer_fixed hr, run_layerOver_iff (collects_resolveLayer _)] at hrun
    obtain ⟨own, problems, rs, hown, hrs, -, rfl⟩ := hrun
    -- what one entry reports, by where it leads
    have hentry : ∀ entry ∈ validEntries config, ∀ r : Option Layer × List Problem,
        (extendedLayer h (resolveLayer h h.readableFiles) base path entry).run [] = .ok r →
        (.circular chain ∈ r.2 ↔ follow h base path entry = .error (.circular chain) ∨
          ∃ file config', follow h base path entry = .ok (file, config') ∧
            Circle h config' (Path.directory file) (path ++ [file]) chain) := by
      rintro entry he ⟨l, qs⟩ hr'
      rcases run_extendedLayer_iff.mp hr' with ⟨problem, hf, -, rfl⟩ | ⟨file, config', layer', hf, hnext, -⟩
      · simp [hf, eq_comm]
      · simp [hf, ih entry he file config' hf hnext]
    have hleft := exists_left_of_forall₂ hrs
    have hright := exists_left_of_forall₂ hrs.flip
    have hown' : .circular chain ∉ problems := ownLayer_ne_circular hown chain
    rw [List.mem_append, List.mem_flatMap, or_iff_right hown']
    constructor
    · rintro ⟨r, hmem, hm⟩
      obtain ⟨entry, he, hr'⟩ := hright r hmem
      rcases (hentry entry he r hr').mp hm with hf | ⟨file, config', hf, hc⟩
      · obtain ⟨file, hp, hany, rfl⟩ := circular_of_follow.mp hf
        exact .close he hp hany
      · exact .further he hf hc
    · intro hc
      cases hc with
      | @close _ _ _ entry file he hp hany =>
        obtain ⟨r, hmem, hr'⟩ := hleft entry he
        exact ⟨r, hmem, (hentry entry he r hr').mpr (Or.inl (circular_of_follow.mpr ⟨file, hp, hany, rfl⟩))⟩
      | @further _ _ _ entry file config' _ he hf hc =>
        obtain ⟨r, hmem, hr'⟩ := hleft entry he
        exact ⟨r, hmem, (hentry entry he r hr').mpr (Or.inr ⟨file, config', hf, hc⟩)⟩

theorem conclude_ne_circular {r : Request} {layer : Layer} {options : Options} {problems : List Problem}
    (chain : List Text) : .circular chain ∈ (conclude h r layer options problems).problems ↔ .circular chain ∈ problems := by
  have hspec : ∀ (isInclude : Bool) (specs : List Text), .circular chain ∉ specProblems isInclude specs := by
    intro isInclude specs hm
    obtain ⟨spec, -, hp⟩ := List.mem_filterMap.mp hm
    unfold specProblem? at hp
    split at hp
    · cases hp
    · split at hp <;> cases hp
  have hone : ∀ {c : Prop} [Decidable c] {p : Problem}, p ≠ .circular chain →
      .circular chain ∉ (if c then [p] else []) := by
    intro c _ p hp hm
    split at hm
    · exact hp (List.mem_singleton.mp hm).symm
    · cases hm
  simp only [conclude, List.mem_append, hspec, or_false]
  constructor
  · rintro ((hm | hm) | hm)
    · exact hm
    · exact absurd hm (hone fun e => by cases e)
    · exact absurd hm (hone fun e => by cases e)
  · exact fun hm => Or.inl (Or.inl hm)

/-- Resolving a config nests no deeper than there are readable files besides the config itself, and needs
no bound. It reports a circle exactly when some route from the config comes back to a file on it, and
every circle it reports is such a route. -/
theorem resolve_circularity {readable : List Text} (hr : Lists h readable) (r : Request) :
    (∀ bottom, ((layerOver h)^[readable.length + 1] bottom) r.config (Path.normalize r.base) r.way =
      resolveLayer h h.readableFiles r.config (Path.normalize r.base) r.way) ∧
    (∀ config base path, resolveLayer h h.readableFiles config base path =
      layerOver h (resolveLayer h h.readableFiles) config base path) ∧
    ∀ res, resolve h r = .ok res →
      ((∃ p ∈ res.problems, p.code = 18000) ↔
        ∃ files, Route h r.config (Path.normalize r.base) files ∧ ComesBack h (r.way ++ files)) ∧
      ∀ chain, .circular chain ∈ res.problems →
        ∃ files, chain = r.way ++ files ∧ Route h r.config (Path.normalize r.base) files ∧ ComesBack h chain := by
  refine ⟨fun bottom => ?_, resolveLayer_fixed hr, fun res hres => ?_⟩
  · rw [iterate_layerOver hr bottom _ _ (room_le h readable r.way),
      resolveLayer_of_le hr _ _ (room_le h readable r.way) hr.counted]
  · obtain ⟨layer, problems, options, hrun, -, rfl⟩ := resolve_ok_iff.mp hres
    have hmem := circular_mem_iff hr hrun
    constructor
    · rw [← exists_circle_iff]
      constructor
      · rintro ⟨p, hp, hcode⟩
        obtain ⟨chain, rfl⟩ := p.code_eq_iff.mp hcode
        exact ⟨chain, (hmem chain).mp ((conclude_ne_circular chain).mp hp)⟩
      · rintro ⟨chain, hc⟩
        exact ⟨_, (conclude_ne_circular chain).mpr ((hmem chain).mpr hc), rfl⟩
    · intro chain hm
      exact ((hmem chain).mp ((conclude_ne_circular chain).mp hm)).route

/-- Two configs that extend each other. -/
def mutualExtends : Host := Host.Memory.host
  { files := [(Text.of "/a.json", some (Text.of "\x7b\"files\": [\"main.ts\"], \"extends\": \"./b.json\"\x7d")),
              (Text.of "/b.json", some (Text.of "\x7b\"extends\": \"./a.json\"\x7d"))] }

/-- The first of them. -/
def mutualRequest : Request where
  config := [(Text.of "files", .texts [Text.of "main.ts"]), (Text.of "extends", .text (Text.of "./b.json"))]
  base := Text.of "/"
  fileName := some (Text.of "/a.json")

/-- The circle is the only problem, and the file that is listed is still found. -/
theorem resolve_circularity_mutual :
    Lists mutualExtends [Text.of "/a.json", Text.of "/b.json"] ∧
      (∃ files, Route mutualExtends mutualRequest.config (Path.normalize mutualRequest.base) files ∧
        ComesBack mutualExtends (mutualRequest.way ++ files)) ∧
      ∃ res, resolve mutualExtends mutualRequest = .ok res ∧ res.fileNames = [Text.of "/main.ts"] ∧
        res.problems = [.circular [Text.of "/a.json", Text.of "/b.json", Text.of "/a.json"]] ∧
        ∃ p ∈ res.problems, p.code = 18000 := by
  have hlists : Lists mutualExtends [Text.of "/a.json", Text.of "/b.json"] := lists_memory _
  let circle : Problem := .circular [Text.of "/a.json", Text.of "/b.json", Text.of "/a.json"]
  let inner : Fields := [(Text.of "extends", .text (Text.of "./a.json"))]
  have hload : load mutualExtends.text? (Text.of "/b.json") = .ok inner := by cbv
  have hfirst : extendsPath mutualExtends (Text.of "./b.json") (Text.of "/") = .ok (Text.of "/b.json") := rfl
  have hsecond : extendsPath mutualExtends (Text.of "./a.json") (Text.of "/") = .ok (Text.of "/a.json") := rfl
  have hroute : Route mutualExtends mutualRequest.config (Path.normalize mutualRequest.base)
      [Text.of "/b.json", Text.of "/a.json"] := .further List.mem_cons_self hfirst hload (.last List.mem_cons_self hsecond)
  have hback : ComesBack mutualExtends (mutualRequest.way ++ [Text.of "/b.json", Text.of "/a.json"]) :=
    ⟨[Text.of "/a.json", Text.of "/b.json"], Text.of "/a.json", rfl, by decide⟩
  -- the second config leads back to the first
  have hcircle : follow mutualExtends (Text.of "/") [Text.of "/a.json", Text.of "/b.json"] (Text.of "./a.json") =
      .error circle := circular_of_follow.mpr ⟨_, hsecond, by decide, rfl⟩
  have hinnerOwn : (ownLayer inner (Text.of "/")).run [] = .ok (({}, validEntries inner), []) :=
    run_ownLayer_iff.mpr ⟨_, _, _, rfl, convertOptions_nil _, rfl, rfl, rfl⟩
  have hinner : (resolveLayer mutualExtends mutualExtends.readableFiles inner (Text.of "/")
      [Text.of "/a.json", Text.of "/b.json"]).run [] = .ok ({}, [circle]) := by
    rw [resolveLayer_fixed hlists]
    exact (run_layerOver_iff (collects_resolveLayer _)).mpr ⟨{}, [], [(none, [circle])], hinnerOwn,
      .cons (run_extendedLayer_iff.mpr (Or.inl ⟨circle, hcircle, rfl, rfl⟩)) .nil, rfl, rfl⟩
  -- and the first to the second
  have hfollow : follow mutualExtends (Text.of "/") [Text.of "/a.json"] (Text.of "./b.json") =
      .ok (Text.of "/b.json", inner) := follow_eq_ok hfirst (by decide) hload
  let layer : Layer := { files := some [Text.of "main.ts"] }
  have hown : (ownLayer mutualRequest.config (Text.of "/")).run [] =
      .ok ((layer, validEntries mutualRequest.config), []) :=
    run_ownLayer_iff.mpr ⟨_, _, _, rfl, convertOptions_nil _, rfl, rfl, rfl⟩
  have hrun : (resolveLayer mutualExtends mutualExtends.readableFiles mutualRequest.config
      (Path.normalize mutualRequest.base) mutualRequest.way).run [] = .ok (layer, [circle]) := by
    rw [resolveLayer_fixed hlists]
    exact (run_layerOver_iff (collects_resolveLayer _)).mpr ⟨layer, [], [(some {}, [circle])], hown,
      .cons (run_extendedLayer_iff.mpr (Or.inr ⟨_, inner, {}, hfollow, hinner, rfl⟩)) .nil, rfl, rfl⟩
  have hres : resolve mutualExtends mutualRequest = .ok (conclude mutualExtends mutualRequest layer {} [circle]) :=
    resolve_ok_iff.mpr ⟨layer, _, {}, hrun, ofFields_nil, rfl⟩
  refine ⟨hlists, ⟨_, hroute, hback⟩, _, hres, rfl, rfl, ?_⟩
  exact ((resolve_circularity hlists mutualRequest).2.2 _ hres).1.mpr ⟨_, hroute, hback⟩

end TsProject.Config
