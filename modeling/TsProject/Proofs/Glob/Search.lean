/-
  TsProject.Proofs.Glob.Search — a search finds what its specs select, anywhere in the tree.

  Neither the choice of the directories a walk starts from nor what it leaves out on the
  way loses a file: a selected file lies below a directory of the cover, and every
  directory between the two is entered.

  - `walk_spec`: what a walk has listed is closed under entering.
  - `mem_listed_of_selects`: the directory of a selected file is listed.
  - `mem_matchFiles` / `nodup_found`: a search finds what its specs select, and finds it once.
  - `matchFiles_selects`: the files of a search and their order.
-/

import TsProject.Proofs.Glob.Cover
import TsProject.Proofs.Glob.Descent
import TsProject.Proofs.Glob.Folder
import TsProject.Proofs.Glob.Walk

namespace TsProject.Glob

open CodePoint Pattern TsProject.Path

/-! ## What a search selects -/

def matchesInclude (path spec file : Text) : Bool := (ofInclude? path spec).any (·.isMatch true file)

/-- The conditions a search poses on a file. -/
structure Selects (s : Search) (file : Text) : Prop where
  extension : s.extensions = [] ∨ ∃ e ∈ s.extensions, e <:+ file
  notExcluded : ∀ p, ofSpecs? .exclude s.path s.excludes = some p → p.isMatch true file = false
  included : ∃ spec ∈ s.includes, matchesInclude s.path spec file = true

/-- The place of the first include that matches a file. -/
def firstInclude (s : Search) (file : Text) : Nat := s.includes.findIdx (matchesInclude s.path · file)

/-- A search by relative includes, without a bound on depth, where names that differ in case differ. -/
structure Ordinary (s : Search) : Prop where
  caseSensitive : s.caseSensitive = true
  unbounded : s.depth = none
  rooted : startsAtRoot s.path = true
  normalized : normalize s.path = s.path
  includes : s.includes ≠ []
  relative : ∀ spec ∈ s.includes, spec ≠ [] ∧ isRooted spec = false

variable {s : Search} {root : Folder}

theorem Ordinary.path (hs : Ordinary s) : ∃ ns, s.path = absolute ns ∧ ∀ n ∈ ns, IsPlain n :=
  eq_absolute_of_normalize hs.rooted hs.normalized

theorem absolutePath_eq (hrooted : startsAtRoot s.path = true) (hnormalized : normalize s.path = s.path) :
    s.absolutePath = s.path := by
  rw [Search.absolutePath, hnormalized, resolve_of_startsAtRoot (startsAtRoot_forwardSlashes hrooted), hnormalized]

/-- A search by includes that lead to paths from the root, where names that differ in case differ. -/
structure Readable (s : Search) : Prop where
  caseSensitive : s.caseSensitive = true
  absolutePath : s.absolutePath = s.path
  includes : s.includes ≠ []
  resolved : ∀ spec ∈ s.includes, spec ≠ [] ∧ startsAtRoot (resolve spec s.path) = true

theorem Ordinary.readable (hs : Ordinary s) : Readable s where
  caseSensitive := hs.caseSensitive
  absolutePath := absolutePath_eq hs.rooted hs.normalized
  includes := hs.includes
  resolved spec h := by
    refine ⟨(hs.relative spec h).1, ?_⟩
    rw [resolve_relative (startsAtRoot_forwardSlashes hs.rooted) (hs.relative spec h).2]
    exact startsAtRoot_absolute _

/-! ## Groups -/

theorem hasExtension_iff (hs : Readable s) (file : Text) :
    s.filter.hasExtension file = true ↔ s.extensions = [] ∨ ∃ e ∈ s.extensions, e <:+ file := by
  simp [Filter.hasExtension, Search.filter, hs.caseSensitive, canonical, Text.endsWith]

theorem isExcluded_eq_false_iff (hs : Readable s) (file : Text) :
    s.filter.isExcluded file = false ↔
      ∀ p, ofSpecs? .exclude s.path s.excludes = some p → p.isMatch true file = false := by
  simp only [Filter.isExcluded, Search.filter, hs.absolutePath, hs.caseSensitive]
  cases ofSpecs? .exclude s.path s.excludes with
  | none => simp
  | some p => simp

theorem groupOf_eq_some_iff (hcase : s.caseSensitive = true) (habsolute : s.absolutePath = s.path)
    (hincludes : s.includes ≠ []) {file : Text} {g : Nat} :
    s.filter.groupOf file file = some g ↔
      (s.filter.hasExtension file = true ∧ s.filter.isExcluded file = false) ∧
        (s.includes.filterMap (ofInclude? s.path)).findIdx? (·.isMatch true file) = some g := by
  have hfiles : s.filter.files = some (s.includes.filterMap (ofInclude? s.path)) := by
    simp [Search.filter, habsolute, hincludes]
  have hcase' : s.filter.caseSensitive = true := hcase
  simp only [Filter.groupOf, hfiles, hcase']
  cases s.filter.hasExtension file <;> cases s.filter.isExcluded file <;> simp

/-- A file has a group if an include matches it and nothing else speaks against it. -/
theorem exists_groupOf (hcase : s.caseSensitive = true) (habsolute : s.absolutePath = s.path)
    (hincludes : s.includes ≠ []) (file : Text) :
    (∃ g, s.filter.groupOf file file = some g) ↔
      (s.filter.hasExtension file = true ∧ s.filter.isExcluded file = false) ∧
        ∃ spec ∈ s.includes, matchesInclude s.path spec file = true := by
  simp only [groupOf_eq_some_iff hcase habsolute hincludes, exists_and_left]
  refine and_congr_right fun _ => ?_
  rw [← Option.isSome_iff_exists, List.findIdx?_isSome, List.any_eq_true]
  constructor
  · rintro ⟨p, hp, hm⟩
    obtain ⟨spec, hspec, hp⟩ := List.mem_filterMap.mp hp
    exact ⟨spec, hspec, by rw [matchesInclude, hp]; exact hm⟩
  · rintro ⟨spec, hspec, hm⟩
    obtain ⟨p, hp, hm⟩ := (Option.any_eq_true _ _).mp hm
    exact ⟨p, List.mem_filterMap.mpr ⟨spec, hspec, hp⟩, hm⟩

theorem exists_groupOf_iff (hs : Readable s) (file : Text) :
    (∃ g, s.filter.groupOf file file = some g) ↔ Selects s file := by
  rw [exists_groupOf hs.caseSensitive hs.absolutePath hs.includes, hasExtension_iff hs, isExcluded_eq_false_iff hs]
  exact ⟨fun h => ⟨h.1.1, h.1.2, h.2⟩, fun h => ⟨⟨h.extension, h.notExcluded⟩, h.included⟩⟩

theorem findIdx_le_of_filterMap {α β : Type} (g : α → Option β) (p q : β → Bool) (l : List α) {i j : Nat}
    (hi : (l.filterMap g).findIdx? p = some i) (hj : (l.filterMap g).findIdx? q = some j) (hij : i ≤ j) :
    l.findIdx (fun a => (g a).any p) ≤ l.findIdx fun a => (g a).any q := by
  induction l generalizing i j with
  | nil => exact Nat.le_refl _
  | cons a l ih =>
    rw [List.findIdx_cons, List.findIdx_cons]
    cases hg : g a with
    | none =>
      rw [List.filterMap_cons_none hg] at hi hj
      simpa using ih hi hj hij
    | some b =>
      rw [List.filterMap_cons_some hg, List.findIdx?_cons] at hi hj
      cases hp : p b with
      | true => simp [hp]
      | false =>
        cases hq : q b with
        | true =>
          simp only [hp, hq, Bool.false_eq_true, if_false, if_true, Option.map_eq_some_iff, Option.some.injEq] at hi hj
          obtain ⟨i', -, rfl⟩ := hi
          omega
        | false =>
          simp only [hp, hq, Bool.false_eq_true, if_false, Option.map_eq_some_iff] at hi hj
          obtain ⟨i', hi', rfl⟩ := hi
          obtain ⟨j', hj', rfl⟩ := hj
          simpa [hp, hq] using ih hi' hj' (by omega)

/-- The groups are in the order of the includes. -/
theorem firstInclude_le_of_groupOf (hs : Readable s) {F G : Text} {g g' : Nat} (hF : s.filter.groupOf F F = some g)
    (hG : s.filter.groupOf G G = some g') (h : g ≤ g') : firstInclude s F ≤ firstInclude s G :=
  have hfirst : ∀ {file g}, s.filter.groupOf file file = some g →
      (s.includes.filterMap (ofInclude? s.path)).findIdx? (·.isMatch true file) = some g := fun h =>
    ((groupOf_eq_some_iff hs.caseSensitive hs.absolutePath hs.includes).mp h).2
  findIdx_le_of_filterMap _ _ _ _ (hfirst hF) (hfirst hG) h

/-! ## Directories -/

/-- What a walk lists: paths given by names. -/
def IsNamed (d : Text) : Prop := ∃ ns, d = absolute ns ∧ ∀ n ∈ ns, IsName n

theorem mem_entered {f : Filter} {ns : List Text} (h : ∀ n ∈ ns, IsName n) {d : Text} :
    d ∈ entered root.tree f (absolute ns) ↔
      ∃ e n, root.at? ns = some e ∧ n ∈ e.folders ∧ d = absolute (ns ++ [n]) ∧ f.enters d = true := by
  simp only [entered, Folder.entries_tree h, List.mem_filter, List.mem_map]
  constructor
  · rintro ⟨⟨n, hn, rfl⟩, he⟩
    cases hat : root.at? ns with
    | none => rw [hat] at hn; cases hn
    | some e =>
      rw [hat] at hn
      exact ⟨e, n, rfl, hn, entry_absolute h n, he⟩
  · rintro ⟨e, n, hat, hn, rfl, he⟩
    exact ⟨⟨n, by rw [hat]; exact hn, entry_absolute h n⟩, he⟩

theorem entered_subset (hroot : root.Valid) (f : Filter) {d : Text} (hd : IsNamed d) :
    entered root.tree f d ⊆ root.folderPlaces.map absolute ∧ ∀ inner ∈ entered root.tree f d, IsNamed inner := by
  obtain ⟨ns, rfl, hns⟩ := hd
  have hat : ∀ inner ∈ entered root.tree f (absolute ns), ∃ p e, inner = absolute p ∧ p ≠ [] ∧ root.at? p = some e := by
    intro inner hi
    obtain ⟨e, n, he, hn, rfl, -⟩ := (mem_entered hns).mp hi
    obtain ⟨e', he'⟩ := Folder.mem_folders.mp hn
    exact ⟨ns ++ [n], e', rfl, by simp, by rw [Folder.at?_concat he, he']⟩
  constructor
  · intro inner hi
    obtain ⟨p, e, rfl, hp, he⟩ := hat inner hi
    exact List.mem_map_of_mem (Folder.mem_folderPlaces_of_at? hp he)
  · intro inner hi
    obtain ⟨p, e, rfl, -, he⟩ := hat inner hi
    exact ⟨p, rfl, fun n hn => ((hroot.at he).1 n hn).name⟩

/-- A walk lists the directories of the cover, and is closed under entering. -/
theorem walk_spec (hroot : root.Valid) (hs : Ordinary s) :
    Consistent root.tree s.filter (walk root.tree s) ∧ (∀ d ∈ (walk root.tree s).listed, IsNamed d) ∧
      (∀ d ∈ (walk root.tree s).listed, entered root.tree s.filter d ⊆ (walk root.tree s).listed) ∧
      cover true s.path s.includes ⊆ (walk root.tree s).listed := by
  obtain ⟨ns, hpath, hns⟩ := hs.path
  have hvisit : ∀ base ∈ cover true s.path s.includes, ∀ w, Consistent root.tree s.filter w →
      remaining (root.folderPlaces.map absolute) w ≤ root.folderPlaces.length →
      Consistent root.tree s.filter (visit root.tree s.filter root.tree.levels base
          (resolve base (normalize s.currentDirectory)) none w) ∧
        Advance root.tree s.filter IsNamed w (visit root.tree s.filter root.tree.levels base
          (resolve base (normalize s.currentDirectory)) none w) ∧
        base ∈ (visit root.tree s.filter root.tree.levels base
          (resolve base (normalize s.currentDirectory)) none w).listed := by
    intro base hbase w hw hbound
    rw [hpath] at hbase
    obtain ⟨ds, rfl, hds, -⟩ := mem_cover hns (fun spec h => (hs.relative spec h).2) hbase
    rw [resolve_of_startsAtRoot (startsAtRoot_forwardSlashes (startsAtRoot_absolute ds)), normalize_absolute hds]
    refine visit_spec hs.caseSensitive (fun _ => rfl) (fun d hd => (entered_subset hroot _ hd).1)
      (fun d hd => (entered_subset hroot _ hd).2) _ ⟨ds, rfl, fun n hn => (hds n hn).name⟩ hw ?_
    simp only [Folder.tree]
    split <;> omega
  have hstart : Consistent root.tree s.filter {} := ⟨rfl, List.nodup_nil, rfl⟩
  have hbound : remaining (root.folderPlaces.map absolute) {} ≤ root.folderPlaces.length :=
    (List.length_filter_le _ _).trans_eq (List.length_map _)
  have hwalk : walk root.tree s = (cover true s.path s.includes).foldl (fun w base => visit root.tree s.filter
      root.tree.levels base (resolve base (normalize s.currentDirectory)) none w) {} := by
    rw [walk, hs.normalized, hs.caseSensitive, hs.unbounded]
  obtain ⟨hw, ha, hl⟩ := foldl_visits hvisit hstart hbound
  rw [← hwalk] at hw ha hl
  exact ⟨hw, fun d hd => (ha.fresh d hd).resolve_left (by simp), fun d hd => (ha.closed d hd).resolve_left (by simp), hl⟩

/-! ## No file is lost -/

theorem isEntryName_of_filePlace (hroot : root.Valid) {e : Folder} {ns : List Text} {n : Text}
    (he : root.at? ns = some e) (hn : n ∈ e.files) : ∀ m ∈ ns ++ [n], IsEntryName m := by
  obtain ⟨hns, hv⟩ := hroot.at he
  intro m hm
  rcases List.mem_append.mp hm with hm | hm
  · exact hns m hm
  · rw [List.mem_singleton.mp hm]
    exact hv.files.2 n hn

theorem isExcluded_append {f : Filter} {base : Text} {specs : List Text} (hexclude : f.exclude = ofSpecs? .exclude base specs)
    (hcase : f.caseSensitive = true) {d : Text} (hd : ¬ [lineFeed] <:+ d) (t : Text) (h : f.isExcluded d = true) :
    f.isExcluded (d ++ slash :: t) = true := by
  unfold Filter.isExcluded at h ⊢
  obtain ⟨p, hp, hm⟩ := (Option.any_eq_true _ _).mp h
  rw [hcase] at hm
  refine (Option.any_eq_true _ _).mpr ⟨p, hp, ?_⟩
  rw [hcase]
  exact isMatch_exclude_append (hexclude ▸ hp) (exact_iff.mpr rfl) hd hm

/-- Every directory on the way to a file that an include matches is entered, unless the file is excluded. -/
theorem enters_of_included (hcase : s.caseSensitive = true) (habsolute : s.absolutePath = s.path) {spec : Text}
    (hspec : spec ∈ s.includes) (hne : spec ≠ []) {w : Text} {segs pre post : List Text} (hw : slash ∉ w)
    (hlf : lineFeed ∉ w) (hsegs : ∀ m ∈ segs, IsEntryName m) (hsplit : segs = pre ++ post) (hpost : post ≠ [])
    (hm : matchesInclude s.path spec (w ++ below segs) = true)
    (hexcluded : s.filter.isExcluded (w ++ below segs) = false) : s.filter.enters (w ++ below pre) = true := by
  simp only [Filter.enters, Bool.and_eq_true, Bool.not_eq_true']
  constructor
  · obtain ⟨p, hp, hm⟩ := (Option.any_eq_true _ _).mp hm
    simp only [Search.filter, habsolute, hcase]
    cases hdir : ofSpecs? .directories s.path s.includes with
    | none => rfl
    | some d => exact isMatch_directories hspec hne hp hdir hw hlf hsegs hm (hsplit ▸ List.prefix_append pre post)
  · obtain ⟨m, ms, rfl⟩ := List.exists_cons_of_ne_nil hpost
    have hbelow : w ++ below segs = w ++ below pre ++ slash :: (m ++ below ms) := by
      rw [hsplit, below_append, below_cons, List.append_assoc]
    have hpre : lineFeed ∉ below pre := lineFeed_not_mem_below fun n hn => hsegs n (hsplit ▸ List.mem_append_left _ hn)
    have hend : ¬ [lineFeed] <:+ w ++ below pre := fun h =>
      (List.mem_append.mp (h.subset List.mem_cons_self)).elim hlf hpre
    rw [Bool.eq_false_iff]
    intro hpreExcluded
    rw [hbelow, isExcluded_append rfl hcase hend _ hpreExcluded] at hexcluded
    cases hexcluded

/-- Every directory on the way to a selected file is entered. -/
theorem enters_of_selects (hs : Readable s) {segs pre post : List Text} (hsegs : ∀ m ∈ segs, IsEntryName m)
    (hsplit : segs = pre ++ post) (hpre : pre ≠ []) (hpost : post ≠ []) (hsel : Selects s (absolute segs)) :
    s.filter.enters (absolute pre) = true := by
  obtain ⟨spec, hspec, hm⟩ := hsel.included
  have hexcluded := (isExcluded_eq_false_iff hs _).mpr hsel.notExcluded
  have hsegsNe : segs ≠ [] := by simp [hsplit, hpre]
  rw [absolute_of_ne_nil hsegsNe] at hm hexcluded
  rw [absolute_of_ne_nil hpre]
  exact enters_of_included (w := []) hs.caseSensitive hs.absolutePath hspec (hs.resolved spec hspec).1 List.not_mem_nil
    List.not_mem_nil hsegs hsplit hpost hm hexcluded

/-- What an include matches lies below its base. -/
theorem includeBase_prefix {base spec : Text} {segs : List Text} (hresolve : startsAtRoot (resolve spec base) = true)
    (hne : segs ≠ []) (hsegs : ∀ m ∈ segs, IsEntryName m) (h : matchesInclude base spec (absolute segs) = true) :
    includeBase base spec <+: segs.dropLast := by
  obtain ⟨p, hp, hm⟩ := (Option.any_eq_true _ _).mp h
  rw [absolute_of_ne_nil hne, isMatch_ofInclude delimits_exact hresolve hp hsegs, aligned_exact_iff hsegs] at hm
  have hlast : (names (resolve spec base)).getLast? ≠ some recursive := by
    intro hl
    rw [ofInclude?, ofSpec?_eq hresolve, if_pos ⟨by decide, hl⟩] at hp
    cases hp
  exact baseNames_prefix hlast hm

/-- The directory of a selected file is listed. -/
theorem mem_listed_of_selects (hroot : root.Valid) (hs : Ordinary s) {e : Folder} {ns : List Text} {n : Text}
    (he : root.at? ns = some e) (hn : n ∈ e.files) (hsel : Selects s (absolute (ns ++ [n]))) :
    absolute ns ∈ (walk root.tree s).listed := by
  have hsegs := isEntryName_of_filePlace hroot he hn
  obtain ⟨ps, hpath, hps⟩ := hs.path
  obtain ⟨-, -, hclosed, hcover⟩ := walk_spec hroot hs
  -- a directory of the cover lies above the file
  obtain ⟨spec, hspec, hm⟩ := hsel.included
  have hbase := includeBase_prefix (hs.readable.resolved spec hspec).2 (by simp) hsegs hm
  rw [List.dropLast_concat] at hbase
  obtain ⟨ds, hds, -, hpre⟩ := exists_cover hps (fun spec h => (hs.relative spec h).2) hspec
  rw [← hpath] at hds hpre
  obtain ⟨rest, rfl⟩ := hpre.trans hbase
  -- and the walk enters one directory after the other from there
  refine Folder.at?_induction (Q := fun ns => absolute ns ∈ (walk root.tree s).listed) he (hcover hds) ?_
  intro ms m post e' hway he' hm hlisted
  have hnames : ∀ m ∈ ms, IsName m := fun x hx => ((hroot.at he').1 x hx).name
  refine hclosed _ hlisted ((mem_entered hnames).mpr ⟨e', m, he', hm, rfl, ?_⟩)
  have hsplit : ds ++ rest ++ [n] = (ms ++ [m]) ++ (post ++ [n]) := by simp [hway]
  exact enters_of_selects hs.readable hsegs hsplit (by simp) (by simp) hsel

/-! ## The files of a search -/

theorem mem_selected {d file : Text} {t : Tree} {f : Filter} {g : Nat} :
    (g, file) ∈ selected t f d ↔ ∃ n ∈ (t.entries d).1, file = entry d n ∧ f.groupOf file file = some g := by
  simp only [selected, selectFiles, List.mem_filterMap, Option.map_eq_some_iff, Prod.mk.injEq]
  constructor
  · rintro ⟨n, hn, g', hg, rfl, rfl⟩
    exact ⟨n, hn, rfl, hg⟩
  · rintro ⟨n, hn, rfl, hg⟩
    exact ⟨n, hn, g, hg, rfl, rfl⟩

theorem mem_found (hroot : root.Valid) (hs : Ordinary s) {file : Text} {g : Nat} :
    (g, file) ∈ (walk root.tree s).found ↔ ∃ ns n e, file = absolute (ns ++ [n]) ∧ root.at? ns = some e ∧ n ∈ e.files ∧
      absolute ns ∈ (walk root.tree s).listed ∧ s.filter.groupOf file file = some g := by
  obtain ⟨hw, hnamed, -⟩ := walk_spec hroot hs
  rw [hw.found, List.mem_flatMap]
  simp only [mem_selected]
  constructor
  · rintro ⟨d, hd, n, hn, rfl, hg⟩
    obtain ⟨ns, rfl, hns⟩ := hnamed d hd
    rw [Folder.entries_tree hns] at hn
    cases hat : root.at? ns with
    | none => rw [hat] at hn; cases hn
    | some e =>
      rw [hat] at hn
      exact ⟨ns, n, e, entry_absolute hns n, hat, hn, hd, hg⟩
  · rintro ⟨ns, n, e, rfl, hat, hn, hd, hg⟩
    have hns : ∀ m ∈ ns, IsName m := fun m hm => ((hroot.at hat).1 m hm).name
    exact ⟨absolute ns, hd, n, by rw [Folder.entries_tree hns, hat]; exact hn, (entry_absolute hns n).symm, hg⟩

theorem mem_filePaths (hroot : root.Valid) {file : Text} :
    file ∈ root.filePaths ↔ ∃ ns n e, file = absolute (ns ++ [n]) ∧ root.at? ns = some e ∧ n ∈ e.files := by
  simp only [Folder.filePaths, List.mem_map, Folder.mem_filePlaces hroot]
  constructor
  · rintro ⟨_, ⟨ns, n, e, rfl, hat, hn⟩, rfl⟩
    exact ⟨ns, n, e, rfl, hat, hn⟩
  · rintro ⟨ns, n, e, rfl, hat, hn⟩
    exact ⟨_, ⟨ns, n, e, rfl, hat, hn⟩, rfl⟩

theorem mem_matchFiles (hroot : root.Valid) (hs : Ordinary s) (file : Text) :
    file ∈ matchFiles root.tree s ↔ file ∈ root.filePaths ∧ Selects s file := by
  rw [matchFiles, Walk.mem_files, mem_filePaths hroot]
  simp only [mem_found hroot hs]
  constructor
  · rintro ⟨g, -, ns, n, e, rfl, hat, hn, -, hg⟩
    exact ⟨⟨ns, n, e, rfl, hat, hn⟩, (exists_groupOf_iff hs.readable _).mp ⟨g, hg⟩⟩
  · rintro ⟨⟨ns, n, e, rfl, hat, hn⟩, hsel⟩
    obtain ⟨g, hg⟩ := (exists_groupOf_iff hs.readable _).mpr hsel
    exact ⟨g, groupOf_lt hg, ns, n, e, rfl, hat, hn, mem_listed_of_selects hroot hs hat hn hsel, hg⟩

/-- The files of one directory are distinct, and so are those of different directories. -/
theorem nodup_found (hroot : root.Valid) (hs : Ordinary s) : ((walk root.tree s).found.map (·.2)).Nodup := by
  obtain ⟨hw, hnamed, -⟩ := walk_spec hroot hs
  have hmem : ∀ ns, (∀ n ∈ ns, IsName n) → ∀ file ∈ (selected root.tree s.filter (absolute ns)).map (·.2),
      ∃ n, IsName n ∧ file = absolute (ns ++ [n]) := by
    intro ns hns file hfile
    obtain ⟨⟨g, _⟩, hsel, rfl⟩ := List.mem_map.mp hfile
    obtain ⟨n, hn, rfl, -⟩ := mem_selected.mp hsel
    rw [Folder.entries_tree hns] at hn
    cases hat : root.at? ns with
    | none => rw [hat] at hn; cases hn
    | some e =>
      rw [hat] at hn
      exact ⟨n, ((hroot.at hat).2.files.2 n hn).name, entry_absolute hns n⟩
  have hname : ∀ {ns n}, (∀ m ∈ ns, IsName m) → IsName n → ∀ m ∈ ns ++ [n], IsName m := by
    intro ns n hns hn m hm
    rcases List.mem_append.mp hm with hm | hm
    · exact hns m hm
    · exact List.mem_singleton.mp hm ▸ hn
  rw [hw.found, List.map_flatMap, List.nodup_flatMap]
  constructor
  · intro d hd
    obtain ⟨ns, rfl, hns⟩ := hnamed d hd
    have hfiles : (root.tree.entries (absolute ns)).1.Nodup := by
      rw [Folder.entries_tree hns]
      cases hat : root.at? ns with
      | none => exact List.nodup_nil
      | some e => exact (hroot.at hat).2.files.1
    rw [selected, selectFiles, List.map_filterMap]
    refine hfiles.filterMap fun n m file hn hm => ?_
    simp only [Option.map_map, Option.mem_def, Option.map_eq_some_iff, Function.comp_apply, entry_absolute hns] at hn hm
    obtain ⟨_, -, rfl⟩ := hn
    obtain ⟨_, -, he⟩ := hm
    rw [absolute_of_ne_nil (by simp), absolute_of_ne_nil (by simp)] at he
    simpa using he.symm
  · refine hw.nodup.imp_of_mem fun {d d'} hd hd' hne file hf hf' => ?_
    obtain ⟨ns, rfl, hns⟩ := hnamed d hd
    obtain ⟨ms, rfl, hms⟩ := hnamed d' hd'
    obtain ⟨n, hn, rfl⟩ := hmem ns hns file hf
    obtain ⟨m, hm, he⟩ := hmem ms hms _ hf'
    have := absolute_inj (hname hns hn) (hname hms hm) he
    exact hne (by rw [(List.append_inj' this rfl).1])

/-- A search finds exactly the files of the tree that its specs select, each of them once, those of an
earlier include first. -/
theorem matchFiles_selects (hroot : root.Valid) (hs : Ordinary s) :
    (∀ file, file ∈ matchFiles root.tree s ↔ file ∈ root.filePaths ∧ Selects s file) ∧
      (matchFiles root.tree s).Nodup ∧
      (matchFiles root.tree s).Pairwise fun F G => firstInclude s F ≤ firstInclude s G := by
  refine ⟨mem_matchFiles hroot hs, Walk.nodup_files _ (nodup_found hroot hs), Walk.pairwise_files _ ?_⟩
  intro g F g' G hF hG hle
  obtain ⟨-, -, -, -, -, -, -, hF⟩ := (mem_found hroot hs).mp hF
  obtain ⟨-, -, -, -, -, -, -, hG⟩ := (mem_found hroot hs).mp hG
  exact firstInclude_le_of_groupOf hs.readable hF hG hle

/-- The files of the first include come first, though they are met last. -/
theorem matchFiles_selects_nested :
    let root := Folder.folder (Text.of "proj") (.folder (Text.of "src")
      (.folder (Text.of "lib") (.file (Text.of "c.ts") .empty) (.file (Text.of "a.ts") (.file (Text.of ".b.ts") .empty)))
      (.file (Text.of "d.ts") .empty)) .empty
    let s : Search :=
      { path := Text.of "/proj", extensions := [Text.of ".ts"], includes := [Text.of "src/*/*", Text.of "src/*"] }
    (root.Valid ∧ Ordinary s) ∧ (∀ file, file ∈ matchFiles root.tree s ↔ file ∈ root.filePaths ∧ Selects s file) ∧
      (matchFiles root.tree s).Nodup ∧
      ((matchFiles root.tree s).Pairwise fun F G => firstInclude s F ≤ firstInclude s G) ∧
      matchFiles root.tree s = [Text.of "/proj/src/lib/c.ts", Text.of "/proj/src/a.ts"] := by
  intro root s
  have hroot : root.Valid := by decide
  have hs : Ordinary s := ⟨rfl, rfl, by decide, by decide, by decide, by decide⟩
  obtain ⟨hmem, hnodup, hsorted⟩ := matchFiles_selects hroot hs
  refine ⟨⟨hroot, hs⟩, hmem, hnodup, hsorted, ?_⟩
  rw [matchFiles, walk, cover_of_sorted (by decide)]
  decide +kernel

end TsProject.Glob
