/-
  TsProject.Proofs.Glob.Spelling — a spec may be spelled in more than one way.

  What a search makes of a spec is the path it resolves to, the base cut from it, and
  whether it is empty. Where all of that agrees for two spellings the search does the
  same, step by step. It does agree for a relative spec and the absolute path it resolves
  to; a rooted spec is cut to its base as it stands, so it agrees for that in normal form.

  - `matchFiles_alike`: a search by other spellings of its specs finds the same files.
  - `alike_resolve`: a spec and the absolute path it resolves to.
  - `matchFiles_resolve`: a search by the absolute paths of its includes.
-/

import TsProject.Glob.Walk
import TsProject.Proofs.Glob.Cover
import TsProject.Proofs.Normal

namespace TsProject.Glob

open CodePoint TsProject.Path

/-! ## Alike specs -/

/-- A search takes the two spellings of a spec for one. -/
structure Alike (base x y : Text) : Prop where
  resolve : Path.resolve y base = Path.resolve x base
  start : absoluteInclude base y = absoluteInclude base x
  empty : y.isEmpty = x.isEmpty

variable {base : Text} {f g : Text → Text}

theorem Alike.refl (base x : Text) : Alike base x x := ⟨rfl, rfl, rfl⟩

theorem Alike.ofSpec? {x y : Text} (h : Alike base x y) (u : Usage) : Glob.ofSpec? u base y = Glob.ofSpec? u base x := by
  rw [Glob.ofSpec?, rootAndComponents, h.resolve]
  rfl

theorem filterMap_alike {α : Type} {p : Text → Option α} {specs : List Text} (h : ∀ x ∈ specs, p (f x) = p x) :
    (specs.map f).filterMap p = specs.filterMap p := by
  rw [List.filterMap_map]
  exact List.filterMap_congr h

theorem ofSpecs?_alike (u : Usage) {specs : List Text} (h : ∀ x ∈ specs, Alike base x (f x)) :
    ofSpecs? u base (specs.map f) = ofSpecs? u base specs := by
  have hfilter : (specs.map f).filter (!·.isEmpty) = (specs.filter (!·.isEmpty)).map f := by
    rw [List.filter_map]
    congr 1
    refine List.filter_congr fun x hx => ?_
    simp only [Function.comp_apply, (h x hx).empty]
  have hspecs : ((specs.filter (!·.isEmpty)).map f).filterMap (Glob.ofSpec? u base) =
      (specs.filter (!·.isEmpty)).filterMap (Glob.ofSpec? u base) :=
    filterMap_alike fun x hx => (h x (List.mem_of_mem_filter hx)).ofSpec? u
  rw [ofSpecs?, ofSpecs?, hfilter, hspecs]

theorem cover_alike (caseSensitive : Bool) {specs : List Text} (h : ∀ x ∈ specs, Alike base x (f x)) :
    cover caseSensitive base (specs.map f) = cover caseSensitive base specs := by
  have hbases : (specs.map f).map (fun spec => baseOf (absoluteInclude base spec)) =
      specs.map fun spec => baseOf (absoluteInclude base spec) := by
    rw [List.map_map]
    exact List.map_congr_left fun x hx => congrArg baseOf (h x hx).start
  rw [cover, cover, hbases]

/-- The files found do not depend on which spelling of its specs a search is given. -/
theorem matchFiles_alike (t : Tree) {s : Search} {ns : List Text} (hpath : s.path = absolute ns) (hns : ∀ n ∈ ns, IsPlain n)
    (hincludes : ∀ x ∈ s.includes, Alike s.path x (f x)) (hexcludes : ∀ x ∈ s.excludes, Alike s.path x (g x)) :
    matchFiles t { s with includes := s.includes.map f, excludes := s.excludes.map g } = matchFiles t s := by
  have hnormalize : normalize s.path = s.path := by rw [hpath, normalize_absolute hns]
  have habsolute : s.absolutePath = s.path := by
    have hroot : startsAtRoot (forwardSlashes s.path) = true :=
      startsAtRoot_forwardSlashes (hpath ▸ startsAtRoot_absolute ns)
    rw [Search.absolutePath, hnormalize, Path.resolve_of_startsAtRoot hroot, hnormalize]
  have hfiles : (s.includes.map f).filterMap (ofInclude? s.path) = s.includes.filterMap (ofInclude? s.path) :=
    filterMap_alike fun x hx => congrArg (Option.map _) ((hincludes x hx).ofSpec? .files)
  have hfilter : Search.filter { s with includes := s.includes.map f, excludes := s.excludes.map g } = s.filter := by
    have habsolute' : Search.absolutePath { s with includes := s.includes.map f, excludes := s.excludes.map g } = s.path :=
      habsolute
    rw [Search.filter, Search.filter, habsolute, habsolute']
    simp only [List.isEmpty_map, hfiles, ofSpecs?_alike .directories hincludes, ofSpecs?_alike .exclude hexcludes]
  rw [matchFiles, matchFiles, walk, walk, hfilter]
  simp only [hnormalize, cover_alike s.caseSensitive hincludes]

/-! ## Includes in absolute form -/

/-- A spec and the absolute path it resolves to are alike, as long as the spec is in normal form if it is rooted. -/
theorem alike_resolve (ns : List Text) {spec : Text} (hspec : spec ≠ []) (hrooted : isRooted spec = true → normalize spec = spec) :
    Alike (absolute ns) spec (Path.resolve spec (absolute ns)) := by
  cases hr : isRooted spec with
  | true =>
    rw [resolve_of_isRooted hr, hrooted hr]
    exact Alike.refl _ _
  | false =>
    have hdrive : ¬ IsDriveRooted spec := fun hd => by simp [hd.1] at hr
    obtain ⟨ms, hms, hplain⟩ := exists_resolve_eq_absolute (startsAtRoot_absolute ns) hdrive
    have hroot : isRooted (absolute ms) = true := isRooted_of_startsAtRoot (startsAtRoot_absolute ms)
    refine ⟨?_, ?_, ?_⟩
    · rw [hms, resolve_of_isRooted hroot, normalize_absolute hplain]
    · rw [absoluteInclude_eq_resolve ns hr, hms, absoluteInclude, if_pos hroot]
    · obtain ⟨t, ht⟩ := absolute_cons ms
      rw [hms, ht, List.isEmpty_eq_false_iff.mpr hspec]
      rfl

/-- A directory in which specs are read may be normalized first. -/
theorem resolve_normalize {d : Text} (hd : startsAtRoot d = true) (spec : Text) :
    Path.resolve spec (normalize d) = Path.resolve spec d := by
  cases hr : isRooted spec with
  | true => rw [resolve_of_isRooted hr, resolve_of_isRooted hr]
  | false =>
    have hd' := startsAtRoot_forwardSlashes hd
    rw [normalize_rooted hd', resolve_relative (startsAtRoot_forwardSlashes (startsAtRoot_absolute _)) hr,
      resolve_relative hd' hr, segments_absolute fun _ => isPlain_of_mem_rootedNames, rootedNames, fold_append_fold]

theorem filter_normalize_path (s : Search) : Search.filter { s with path := normalize s.path } = s.filter := by
  have habsolute : Search.absolutePath { s with path := normalize s.path } = s.absolutePath := by
    rw [Search.absolutePath, Search.absolutePath, normalize_normalize]
  rw [Search.filter, Search.filter, habsolute]

/-- A search normalizes its path first. -/
theorem matchFiles_normalize_path (t : Tree) (s : Search) : matchFiles t { s with path := normalize s.path } = matchFiles t s := by
  rw [matchFiles, matchFiles, walk, walk, filter_normalize_path]
  simp only [normalize_normalize]

/-- The search by the absolute paths that the includes of a search resolve to. -/
def Search.resolved (s : Search) : Search := { s with includes := s.includes.map (Path.resolve · s.path) }

/-- A search by the absolute paths of its includes finds the same files in the same order, as long as none is empty and
those that are rooted are in normal form. -/
theorem matchFiles_resolved (t : Tree) {s : Search} (hpath : startsAtRoot s.path = true)
    (hincludes : ∀ spec ∈ s.includes, spec ≠ [] ∧ (isRooted spec = true → normalize spec = spec)) :
    matchFiles t s.resolved = matchFiles t s := by
  have hpath' := startsAtRoot_forwardSlashes hpath
  have halike : ∀ spec ∈ s.includes, Alike (normalize s.path) spec (Path.resolve spec s.path) := by
    intro spec hspec
    rw [← resolve_normalize hpath, normalize_rooted hpath']
    exact alike_resolve _ (hincludes spec hspec).1 (hincludes spec hspec).2
  have hsame := matchFiles_alike t (s := { s with path := normalize s.path }) (g := id) (normalize_rooted hpath')
    (fun _ => isPlain_of_mem_rootedNames) halike fun x _ => Alike.refl _ x
  rw [List.map_id] at hsame
  rw [← matchFiles_normalize_path t s, ← hsame, ← matchFiles_normalize_path t s.resolved]
  rfl

end TsProject.Glob
