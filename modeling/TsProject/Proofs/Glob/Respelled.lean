/-
  TsProject.Proofs.Glob.Respelled — includes may be spelled as one likes, up to a point.

  On a file system that lists a directory under every spelling of its path, a search finds
  the same files whether its includes are given as they are or as the absolute paths they
  resolve to. A relative include is normalized before it is cut to its base. One that is
  rooted is not, so it must be legible: its base as it stands has to lie where the base of
  the normalized include does, and it may not seem to lie in a directory it does not lie in.

  - `LegibleSpec`: no backslash, no `..`, and no slash at the end behind a name with a dot.
  - `exists_cover_legible`: the base of an include lies in a directory of the cover.
  - `mem_normalized`: the files of a search by legible includes, up to their spelling.
  - `matchFiles_respelled`: a search finds the same files by its includes in absolute form.
-/

import TsProject.Proofs.Glob.Once
import TsProject.Proofs.Glob.Search
import TsProject.Proofs.Glob.Spelling

namespace TsProject.Glob

open CodePoint TsProject.Path

/-! ## Legible includes -/

/-- A rooted spec that can be cut to its base as it stands. -/
structure LegibleSpec (spec : Text) : Prop where
  rooted : startsAtRoot spec = true
  noBackslash : backslash ∉ spec
  noDotDot : dotDotSegment ∉ segments spec
  /-- What looks like a directory is no file. -/
  ends : spec.getLast? = some slash → spec.any isWildcard = true ∨ ∀ n ∈ (segments spec).getLast?, dot ∉ n

/-- A path from the root without backslashes and without `..`. -/
structure Direct (p : Text) : Prop where
  rooted : startsAtRoot p = true
  noBackslash : backslash ∉ p
  noDotDot : dotDotSegment ∉ segments p

theorem Direct.rootedNames_eq {p : Text} (h : Direct p) : rootedNames p = segments p := by
  rw [rootedNames, forwardSlashes_of_not_mem h.noBackslash]
  exact fold_of_not_mem true h.noDotDot

theorem Direct.isPlain {p n : Text} (h : Direct p) (hn : n ∈ segments p) : IsPlain n := by
  rw [← h.rootedNames_eq] at hn
  exact isPlain_of_mem_rootedNames hn

theorem direct_absolute {ns : List Text} (h : ∀ n ∈ ns, IsPlain n) : Direct (absolute ns) ∧ segments (absolute ns) = ns := by
  have hback : backslash ∉ absolute ns := by
    unfold absolute
    split
    · decide
    · exact backslash_not_mem_below fun n hn => (h n hn).noBackslash
  have hsegments := segments_absolute h
  rw [forwardSlashes_of_not_mem hback] at hsegments
  refine ⟨⟨startsAtRoot_absolute ns, hback, ?_⟩, hsegments⟩
  rw [hsegments]
  exact not_mem_of_isPlain h

/-- A path that lies in another by its spelling starts with the segments of that one. -/
theorem segments_of_isWithin {d b : Text} (h : isWithin true d b = true) : segments d <+: segments b := by
  rw [segments_eq_names, segments_eq_names]
  exact (names_of_isWithin h).filter _

/-- Wildcards stand in segments. -/
theorem any_hasWildcard_segments (p : Text) : (segments p).any hasWildcard = p.any isWildcard := by
  have hslash : isWildcard slash = false := by decide
  have hdot : hasWildcard dotSegment = false := by decide
  rw [Bool.eq_iff_iff, List.any_eq_true, List.any_eq_true]
  constructor
  · rintro ⟨n, hn, hw⟩
    obtain ⟨c, hc, hcw⟩ := List.any_eq_true.mp hw
    exact ⟨c, (Text.mem_pieces_iff.mp ⟨n, (List.mem_filter.mp hn).1, hc⟩).1, hcw⟩
  · rintro ⟨c, hc, hcw⟩
    have hne : c ≠ slash := by
      rintro rfl
      rw [hslash] at hcw
      cases hcw
    obtain ⟨n, hn, hcn⟩ := Text.mem_pieces_iff.mpr ⟨hc, hne⟩
    have hw : hasWildcard n = true := List.any_eq_true.mpr ⟨c, hcn, hcw⟩
    refine ⟨n, List.mem_filter.mpr ⟨hn, ?_⟩, hw⟩
    rw [Bool.and_eq_true, Bool.not_eq_true', List.isEmpty_eq_false_iff, bne_iff_ne]
    refine ⟨List.ne_nil_of_mem hcn, ?_⟩
    rintro rfl
    rw [hdot] at hw
    cases hw

/-- What stands before the first wildcard of a direct path, up to a slash, is among the names of its base. -/
theorem prefix_baseNames {p head tail : Text} (hp : p = head ++ slash :: tail) (hhead : ∀ c ∈ head, isWildcard c = false)
    (hwild : p.any isWildcard = true) : segments head <+: baseNames (segments p) := by
  have hnames : ∀ n ∈ segments head, (!hasWildcard n) = true := by
    intro n hn
    rw [Bool.not_eq_true']
    refine List.any_eq_false.mpr fun c hc => ?_
    rw [hhead c (Text.mem_pieces_iff.mp ⟨n, (List.mem_filter.mp hn).1, hc⟩).1]
    exact Bool.false_ne_true
  rw [baseNames, any_hasWildcard_segments, if_pos hwild, hp, segments_append_slash, List.takeWhile_append_of_pos hnames]
  exact List.prefix_append _ _

/-- With wildcards the base of a legible spec is what stands before the slash in front of the first one. -/
theorem baseOf_of_wildcard {spec : Text} (h : LegibleSpec spec) (hwild : spec.any isWildcard = true) :
    Direct (baseOf spec) ∧ segments (baseOf spec) <+: baseNames (segments spec) := by
  obtain ⟨rest, hrest⟩ := startsAtRoot_iff.mp h.rooted
  have hslash : isWildcard slash = false := by decide
  have hmem : slash ∈ spec.takeWhile (!isWildcard ·) := by
    rw [hrest, List.takeWhile_cons_of_pos (by rw [hslash]; rfl)]
    exact List.mem_cons_self
  obtain ⟨head, last, hcut, hlast⟩ := Text.exists_last hmem
  have hhead : ∀ c ∈ head, isWildcard c = false := by
    intro c hc
    have hc' : c ∈ spec.takeWhile (!isWildcard ·) := by
      rw [hcut]
      exact List.mem_append_left _ hc
    simpa using List.mem_takeWhile_imp hc'
  obtain ⟨after, hafter⟩ := List.takeWhile_prefix (l := spec) (!isWildcard ·)
  have hsplit : spec = head ++ slash :: (last ++ after) := by
    rw [← hafter, hcut, List.append_assoc, List.cons_append]
  have hbase : baseOf spec = if head.isEmpty then [slash] else head := by
    have hthrough : (Text.throughLast slash (spec.takeWhile (!isWildcard ·))).dropLast = head := by
      rw [hcut, Text.throughLast_append _ _ hlast, List.dropLast_concat]
    rw [baseOf, if_pos hwild]
    simp only [List.contains_iff_mem.mpr hmem, if_true, hthrough]
  rw [hbase]
  cases head with
  | nil => exact ⟨⟨rfl, by decide, by decide⟩, List.nil_prefix⟩
  | cons c head =>
    refine ⟨⟨?_, ?_, ?_⟩, prefix_baseNames hsplit hhead hwild⟩
    · rw [hsplit, List.cons_append] at hrest
      rw [(List.cons.inj hrest).1]
      rfl
    · intro hc
      apply h.noBackslash
      rw [hsplit]
      exact List.mem_append_left _ hc
    · intro hn
      apply h.noDotDot
      rw [hsplit, segments_append_slash]
      exact List.mem_append_left _ hn

/-- No last name has a dot: either it is the one behind the last slash, or nothing is behind that in a legible spec. -/
theorem LegibleSpec.dot_not_mem_last {spec start last : Text} (h : LegibleSpec spec) (hwild : ¬ spec.any isWildcard = true)
    (hcut : spec = start ++ slash :: last) (hlast : slash ∉ last) (hdot : dot ∉ last) :
    ∀ n ∈ (segments spec).getLast?, dot ∉ n := by
  by_cases hempty : last = []
  · rw [hempty] at hcut
    refine (h.ends ?_).resolve_left hwild
    rw [hcut, List.getLast?_concat]
  · have hone : segments last = [last] := by
      have hne : last ≠ dotSegment := by
        rintro rfl
        exact hdot List.mem_cons_self
      rw [segments, Text.splitOn_of_not_mem hlast]
      simp [hempty, hne]
    intro n hn
    rw [hcut, segments_append_slash, hone, List.getLast?_concat] at hn
    rw [← Option.some.inj hn]
    exact hdot

/-- Without wildcards it is the spec, or the directory of the spec. -/
theorem baseOf_of_noWildcard {spec : Text} (h : LegibleSpec spec) (hwild : ¬ spec.any isWildcard = true) :
    Direct (baseOf spec) ∧ segments (baseOf spec) <+: baseNames (segments spec) := by
  have hspec : Direct spec := ⟨h.rooted, h.noBackslash, h.noDotDot⟩
  have hmem : slash ∈ spec := by
    obtain ⟨rest, hrest⟩ := startsAtRoot_iff.mp h.rooted
    rw [hrest]
    exact List.mem_cons_self
  obtain ⟨start, last, hcut, hlast⟩ := Text.exists_last hmem
  have hbaseName : baseName spec = last := by rw [baseName, hcut, Text.afterLast_append _ _ hlast]
  rw [baseOf, if_neg hwild, hbaseName, baseNames, any_hasWildcard_segments, if_neg hwild]
  by_cases hdot : last.contains dot = true
  · rw [if_pos hdot, directory_rooted (startsAtRoot_forwardSlashes h.rooted), hspec.rootedNames_eq]
    obtain ⟨hdirect, hsegments⟩ := direct_absolute fun n hn => hspec.isPlain (List.dropLast_subset _ hn)
    refine ⟨hdirect, ?_⟩
    rw [hsegments]
    split
    · exact List.prefix_refl _
    · exact List.dropLast_prefix _
  · rw [if_neg hdot]
    refine ⟨hspec, ?_⟩
    have hlastDot : ¬ (segments spec).getLast?.any (·.contains dot) = true := by
      intro hany
      obtain ⟨n, hn, hc⟩ := (Option.any_eq_true _ _).mp hany
      have hdot' : dot ∉ last := fun hm => hdot (List.contains_iff_mem.mpr hm)
      exact h.dot_not_mem_last hwild hcut hlast hdot' n hn (List.contains_iff_mem.mp hc)
    rw [if_neg hlastDot]

/-- The base of a legible spec lies where that of the normalized spec does, or above it. -/
theorem baseOf_legible {spec : Text} (h : LegibleSpec spec) :
    Direct (baseOf spec) ∧ segments (baseOf spec) <+: baseNames (segments spec) := by
  by_cases hwild : spec.any isWildcard = true
  · exact baseOf_of_wildcard h hwild
  · exact baseOf_of_noWildcard h hwild

/-! ## The cover -/

/-- A search below the root by includes that are relative or legible, without a bound on depth, where names that
differ in case differ. -/
structure LegibleSearch (s : Search) : Prop where
  caseSensitive : s.caseSensitive = true
  unbounded : s.depth = none
  rooted : startsAtRoot s.path = true
  normalized : normalize s.path = s.path
  extensions : ∀ e ∈ s.extensions, slash ∉ e
  includes : s.includes ≠ []
  specs : ∀ spec ∈ s.includes, spec ≠ [] ∧ (isRooted spec = true → LegibleSpec spec)

variable {s : Search} {root : Folder}

theorem LegibleSearch.notDrive (hs : LegibleSearch s) {spec : Text} (hspec : spec ∈ s.includes) : ¬ IsDriveRooted spec := by
  intro hdrive
  have hroot := startsAtRoot_forwardSlashes ((hs.specs spec hspec).2 hdrive.1).rooted
  rw [hdrive.2] at hroot
  cases hroot

theorem LegibleSearch.readable (hs : LegibleSearch s) : Readable s where
  caseSensitive := hs.caseSensitive
  absolutePath := absolutePath_eq hs.rooted hs.normalized
  includes := hs.includes
  resolved spec hspec := by
    obtain ⟨ns, hns, -⟩ := exists_resolve_eq_absolute hs.rooted (hs.notDrive hspec)
    refine ⟨(hs.specs spec hspec).1, ?_⟩
    rw [hns]
    exact startsAtRoot_absolute ns

/-- The base of an include, as it stands, lies where its names say, or above. -/
theorem LegibleSearch.baseOf (hs : LegibleSearch s) {spec : Text} (hspec : spec ∈ s.includes) :
    Direct (baseOf (absoluteInclude s.path spec)) ∧
      segments (Glob.baseOf (absoluteInclude s.path spec)) <+: includeBase s.path spec := by
  obtain ⟨ns, hpath, -⟩ := eq_absolute_of_normalize hs.rooted hs.normalized
  cases hr : isRooted spec with
  | false =>
    obtain ⟨hbase, hplain⟩ := baseOf_absoluteInclude ns hr
    obtain ⟨hdirect, hsegments⟩ := direct_absolute hplain
    rw [hpath, hbase, hsegments]
    exact ⟨hdirect, List.prefix_refl _⟩
  | true =>
    have hlegible := (hs.specs spec hspec).2 hr
    have hspec' : Direct spec := ⟨hlegible.rooted, hlegible.noBackslash, hlegible.noDotDot⟩
    have hnames : names (resolve spec s.path) = segments spec := by
      have hroot := startsAtRoot_forwardSlashes hlegible.rooted
      rw [resolve_of_startsAtRoot hroot, normalize_rooted hroot, hspec'.rootedNames_eq,
        names_absolute fun n hn => (hspec'.isPlain hn).name]
    rw [absoluteInclude, if_pos hr, includeBase, hnames]
    exact baseOf_legible hlegible

theorem direct_of_mem_cover (hs : LegibleSearch s) {d : Text} (hd : d ∈ cover true s.path s.includes) : Direct d := by
  rcases eq_or_exists_of_mem_cover hd with rfl | ⟨spec, hspec, rfl⟩
  · obtain ⟨ns, hpath, hns⟩ := eq_absolute_of_normalize hs.rooted hs.normalized
    rw [hpath]
    exact (direct_absolute hns).1
  · exact (hs.baseOf hspec).1

/-- The base of every include lies in a directory of the cover. -/
theorem exists_cover_legible (hs : LegibleSearch s) {spec : Text} (hspec : spec ∈ s.includes) :
    ∃ d ∈ cover true s.path s.includes, segments d <+: includeBase s.path spec := by
  obtain ⟨d, hd, hwithin⟩ := exists_cover_isWithin true s.path hspec
  exact ⟨d, hd, (segments_of_isWithin hwithin).trans (hs.baseOf hspec).2⟩

/-! ## Stops -/

/-- A stop at a place of the tree, under whatever spelling. -/
structure Placed (v : Stop) (ns : List Text) : Prop where
  plain : ∀ n ∈ ns, IsPlain n
  names : rootedNames v.directory = ns
  absolute : v.absolute = absolute ns
  rooted : startsAtRoot (forwardSlashes v.directory) = true
  unbounded : v.depth = none

variable {v u : Stop} {ns : List Text} {n : Text} {f : Filter}

theorem Placed.isName (hv : Placed v ns) : ∀ n ∈ ns, IsName n := fun n hn => (hv.plain n hn).name

theorem Placed.entries (hv : Placed v ns) :
    root.resolving.entries v.directory = ((root.at? ns).map fun d => (d.files, d.folders)).getD ([], []) := by
  simp only [Folder.resolving, hv.names]

theorem Placed.child (hv : Placed v ns) (hn : IsPlain n) : Placed (v.child n) (ns ++ [n]) where
  plain := List.forall_mem_append.mpr ⟨hv.plain, List.forall_mem_singleton.mpr hn⟩
  names := by
    change rootedNames (entry v.directory n) = _
    rw [rootedNames_entry _ hn, hv.names]
  absolute := by
    change entry v.absolute n = _
    rw [hv.absolute, entry_absolute hv.isName]
  rooted := by
    obtain ⟨t, ht⟩ := prefix_entry v.directory n
    obtain ⟨w, hw⟩ := startsAtRoot_iff.mp hv.rooted
    change startsAtRoot (forwardSlashes (entry v.directory n)) = true
    rw [← ht, forwardSlashes_append, hw]
    rfl
  unbounded := by
    change v.depth.map (· - 1) = none
    rw [hv.unbounded]
    rfl

/-- One place has one real path. -/
theorem Placed.eq_of_real {ms : List Text} (hv : Placed v ns) (hu : Placed u ms) (hf : f.caseSensitive = true)
    (h : v.real root.resolving f = u.real root.resolving f) : ns = ms := by
  rw [Stop.real_eq hf, Stop.real_eq hf] at h
  change v.absolute = u.absolute at h
  rw [hv.absolute, hu.absolute] at h
  exact absolute_inj hv.isName hu.isName h

/-- The path of an entry, once it is normalized. -/
theorem Placed.normalize_entry (hv : Placed v ns) (hn : IsPlain n) :
    normalize (entry v.directory n) = Path.absolute (ns ++ [n]) := by
  have hchild := hv.child hn
  have hrooted : startsAtRoot (forwardSlashes (entry v.directory n)) = true := hchild.rooted
  rw [normalize_rooted hrooted]
  exact congrArg Path.absolute hchild.names

theorem mem_inner (hv : Placed v ns) : u ∈ v.inner root.resolving f ↔
    ∃ e n, root.at? ns = some e ∧ n ∈ e.folders ∧ f.enters (absolute (ns ++ [n])) = true ∧ u = v.child n := by
  have hdepth : ¬ v.depth = some 1 := by
    rw [hv.unbounded]
    simp
  rw [Stop.inner, if_neg hdepth, List.mem_map, hv.entries, hv.absolute]
  constructor
  · rintro ⟨n, hn, rfl⟩
    obtain ⟨hn, henters⟩ := List.mem_filter.mp hn
    rw [entry_absolute hv.isName] at henters
    cases hat : root.at? ns with
    | none =>
      rw [hat] at hn
      cases hn
    | some e =>
      rw [hat] at hn
      exact ⟨e, n, rfl, hn, henters, rfl⟩
  · rintro ⟨e, n, hat, hn, henters, rfl⟩
    rw [hat]
    refine ⟨n, List.mem_filter.mpr ⟨hn, ?_⟩, rfl⟩
    rw [entry_absolute hv.isName]
    exact henters

theorem placed_start (hs : LegibleSearch s) {d : Text} (hd : d ∈ cover true s.path s.includes) :
    Placed ⟨d, Path.resolve d (normalize s.currentDirectory), s.depth⟩ (segments d) := by
  have hdirect := direct_of_mem_cover hs hd
  have hrooted := startsAtRoot_forwardSlashes hdirect.rooted
  refine ⟨fun n hn => hdirect.isPlain hn, hdirect.rootedNames_eq, ?_, hrooted, hs.unbounded⟩
  change Path.resolve d _ = _
  rw [resolve_of_startsAtRoot hrooted, normalize_rooted hrooted, hdirect.rootedNames_eq]

theorem starts_eq (hs : LegibleSearch s) : s.starts =
    (cover true s.path s.includes).map fun d => ⟨d, Path.resolve d (normalize s.currentDirectory), s.depth⟩ := by
  rw [Search.starts, hs.caseSensitive, hs.normalized]

/-- Whatever a search meets is at a place. -/
theorem exists_placed (hplain : root.Plain) (hs : LegibleSearch s) (hv : Met root.resolving s.filter s.starts v) :
    ∃ ns, Placed v ns := by
  induction hv with
  | first hv =>
    rw [starts_eq hs] at hv
    obtain ⟨d, hd, rfl⟩ := List.mem_map.mp hv
    exact ⟨_, placed_start hs hd⟩
  | inner _ hu ih =>
    obtain ⟨ns, hns⟩ := ih
    obtain ⟨e, n, hat, hn, -, rfl⟩ := (mem_inner hns).mp hu
    exact ⟨_, hns.child ((hplain.at hat).2.names.2 n hn)⟩

theorem bounded_resolving (hplain : root.Plain) (hs : LegibleSearch s) : Bounded root.resolving s := by
  refine ⟨root.folderPlaces.map absolute, ?_, ?_⟩
  · intro v hv u hu
    obtain ⟨ns, hns⟩ := exists_placed hplain hs hv
    obtain ⟨e, n, hat, hn, -, rfl⟩ := (mem_inner hns).mp hu
    obtain ⟨e', he'⟩ := Folder.mem_folders.mp hn
    have hchild := hns.child ((hplain.at hat).2.names.2 n hn)
    have hreal : (v.child n).real root.resolving s.filter = absolute (ns ++ [n]) := by
      rw [Stop.real_eq hs.caseSensitive]
      exact hchild.absolute
    rw [hreal]
    exact List.mem_map_of_mem (Folder.mem_folderPlaces_of_at? (by simp) (by rw [Folder.at?_concat hat, he']))
  · rw [List.length_map]
    exact Nat.lt_succ_self _

/-! ## No file is lost -/

/-- The stops of a search. -/
structure Course (root : Folder) (s : Search) (stops : List Stop) : Prop where
  placed : ∀ v ∈ stops, ∃ ns, Placed v ns
  starts : ∀ d ∈ cover true s.path s.includes, ∃ v ∈ stops, Placed v (segments d)
  closed : ∀ v ∈ stops, ∀ ns, Placed v ns → ∀ e n, root.at? ns = some e → n ∈ e.folders →
    s.filter.enters (absolute (ns ++ [n])) = true → ∃ w ∈ stops, Placed w (ns ++ [n])

theorem Itinerary.course (hplain : root.Plain) (hs : LegibleSearch s) {stops : List Stop}
    (h : Itinerary root.resolving s.filter [] s.starts stops) : Course root s stops := by
  have hplaced : ∀ v ∈ stops, ∃ ns, Placed v ns := fun v hv => exists_placed hplain hs (h.met (fun u hu => .first hu) v hv)
  have hsame : ∀ {u ns}, Placed u ns → Listed root.resolving s.filter [] stops u → ∃ w ∈ stops, Placed w ns := by
    intro u ns hu hlisted
    obtain ⟨w, hw, hreal⟩ := hlisted.resolve_left List.not_mem_nil
    obtain ⟨ms, hms⟩ := hplaced w hw
    refine ⟨w, hw, ?_⟩
    rw [← hms.eq_of_real hu hs.caseSensitive hreal]
    exact hms
  refine ⟨hplaced, ?_, ?_⟩
  · intro d hd
    apply hsame (placed_start hs hd)
    apply h.closed.1
    rw [starts_eq hs]
    exact List.mem_map_of_mem hd
  · intro v hv ns hns e n hat hn henters
    have hchild := hns.child ((hplain.at hat).2.names.2 n hn)
    apply hsame hchild
    apply h.closed.2 v hv
    exact (mem_inner hns).mpr ⟨e, n, hat, hn, henters, rfl⟩

/-- A place that a selected file is in is on the course. -/
theorem Course.mem_of_selects {stops : List Stop} (hc : Course root s stops) (hroot : root.Valid) (hs : LegibleSearch s)
    {e : Folder} (he : root.at? ns = some e) (hn : n ∈ e.files) (hsel : Selects s (absolute (ns ++ [n]))) :
    ∃ v ∈ stops, Placed v ns := by
  have hsegs := isEntryName_of_filePlace hroot he hn
  -- a directory of the cover lies above the file
  obtain ⟨spec, hspec, hbase⟩ : ∃ spec ∈ s.includes, includeBase s.path spec <+: ns := by
    obtain ⟨spec, hspec, hm⟩ := hsel.included
    refine ⟨spec, hspec, ?_⟩
    have hbase := includeBase_prefix (hs.readable.resolved spec hspec).2 (by simp) hsegs hm
    rw [List.dropLast_concat] at hbase
    exact hbase
  obtain ⟨d, hd, hpre⟩ := exists_cover_legible hs hspec
  obtain ⟨rest, rfl⟩ := hpre.trans hbase
  -- and the walk enters one directory after the other from there
  refine Folder.at?_induction (Q := fun ns => ∃ v ∈ stops, Placed v ns) he (hc.starts d hd) ?_
  rintro ms m post e' hway he' hm ⟨v, hv, hplaced⟩
  have hsplit : segments d ++ rest ++ [n] = (ms ++ [m]) ++ (post ++ [n]) := by simp [hway]
  exact hc.closed v hv _ hplaced e' m he' hm (enters_of_selects hs.readable hsegs hsplit (by simp) (by simp) hsel)

/-! ## The files of a search -/

/-- An extension is that of the name, whatever directory the name stands in. -/
theorem hasExtension_entry (hs : LegibleSearch s) {d : Text} (hd : d ≠ []) (n : Text) :
    s.filter.hasExtension (entry d n) = true ↔ s.extensions = [] ∨ ∃ e ∈ s.extensions, e <:+ n := by
  obtain ⟨x, hx, -⟩ := exists_stem hd
  have hsuffix : ∀ e ∈ s.extensions, (e <:+ entry d n ↔ e <:+ n) := by
    intro e he
    rw [entry_eq_stem, hx, List.append_assoc, List.singleton_append]
    constructor
    · rintro ⟨t, ht⟩
      rcases List.append_eq_append_iff.mp ht with ⟨y, -, hy⟩ | ⟨y, -, hy⟩
      · exact absurd (hy ▸ List.mem_append_right y List.mem_cons_self) (hs.extensions e he)
      · cases y with
        | nil =>
          rw [List.nil_append] at hy
          exact absurd (hy ▸ List.mem_cons_self) (hs.extensions e he)
        | cons c y => exact ⟨y, (List.cons.inj hy).2.symm⟩
    · intro hsuf
      exact hsuf.trans ((List.suffix_cons slash n).trans (List.suffix_append x _))
  rw [hasExtension_iff hs.readable]
  apply or_congr_right
  constructor
  · rintro ⟨e, he, hsuf⟩
    exact ⟨e, he, (hsuffix e he).mp hsuf⟩
  · rintro ⟨e, he, hsuf⟩
    exact ⟨e, he, (hsuffix e he).mpr hsuf⟩

theorem groupOf_entry (hs : LegibleSearch s) {d d' : Text} (hd : d ≠ []) (hd' : d' ≠ []) (n file : Text) :
    s.filter.groupOf (entry d n) file = s.filter.groupOf (entry d' n) file := by
  have hextension : s.filter.hasExtension (entry d n) = s.filter.hasExtension (entry d' n) := by
    rw [Bool.eq_iff_iff, hasExtension_entry hs hd, hasExtension_entry hs hd']
  rw [Filter.groupOf, Filter.groupOf, hextension]

/-- What is found at a place: the files there that are selected. -/
theorem mem_files_placed (hs : LegibleSearch s) (hv : Placed v ns) {g : Nat} {F : Text} :
    (g, F) ∈ v.files root.resolving s.filter ↔ ∃ e n, root.at? ns = some e ∧ n ∈ e.files ∧ F = entry v.directory n ∧
      s.filter.groupOf (absolute (ns ++ [n])) (absolute (ns ++ [n])) = some g := by
  have hne : v.directory ≠ [] := by
    intro h
    have hrooted := hv.rooted
    rw [h] at hrooted
    cases hrooted
  have hne' : absolute ns ≠ [] := by
    obtain ⟨t, ht⟩ := absolute_cons ns
    rw [ht]
    exact List.cons_ne_nil _ _
  have hgroup : ∀ n, s.filter.groupOf (entry v.directory n) (entry v.absolute n) =
      s.filter.groupOf (absolute (ns ++ [n])) (absolute (ns ++ [n])) := by
    intro n
    rw [groupOf_entry hs hne hne', hv.absolute, entry_absolute hv.isName]
  rw [Stop.files, selectFiles, List.mem_filterMap, hv.entries]
  simp only [Option.map_eq_some_iff, Prod.mk.injEq, hgroup]
  constructor
  · rintro ⟨n, hn, g', hg, rfl, rfl⟩
    cases hat : root.at? ns with
    | none =>
      rw [hat] at hn
      cases hn
    | some e =>
      rw [hat] at hn
      exact ⟨e, n, rfl, hn, rfl, hg⟩
  · rintro ⟨e, n, hat, hn, rfl, hg⟩
    rw [hat]
    exact ⟨n, hn, g, hg, rfl, rfl⟩

/-- A search finds the files of the tree that its specs select, however it spells them. -/
theorem mem_normalized (hroot : root.Valid) (hplain : root.Plain) (hs : LegibleSearch s) (G : Text) :
    G ∈ (matchFiles root.resolving s).map normalize ↔ G ∈ root.filePaths ∧ Selects s G := by
  obtain ⟨stops, hcourse, hwalk⟩ := walk_follows (bounded_resolving hplain hs)
  have hc : Course root s stops := ((hcourse stops).mpr rfl).course hplain hs
  have hfound : (walk root.resolving s).found = stops.flatMap (Stop.files root.resolving s.filter) := by
    rw [hwalk, found_after]
    exact List.nil_append _
  rw [mem_filePaths hroot, List.mem_map]
  simp only [matchFiles, Walk.mem_files, hfound, List.mem_flatMap]
  constructor
  · rintro ⟨F, ⟨g, -, v, hv, hF⟩, rfl⟩
    obtain ⟨ns, hns⟩ := hc.placed v hv
    obtain ⟨e, n, hat, hn, rfl, hg⟩ := (mem_files_placed hs hns).mp hF
    rw [hns.normalize_entry ((hplain.at hat).2.names.1 n hn)]
    exact ⟨⟨ns, n, e, rfl, hat, hn⟩, (exists_groupOf_iff hs.readable _).mp ⟨g, hg⟩⟩
  · rintro ⟨⟨ns, n, e, rfl, hat, hn⟩, hsel⟩
    obtain ⟨g, hg⟩ := (exists_groupOf_iff hs.readable _).mpr hsel
    obtain ⟨v, hv, hns⟩ := hc.mem_of_selects hroot hs hat hn hsel
    refine ⟨entry v.directory n, ⟨g, groupOf_lt hg, v, hv, ?_⟩, ?_⟩
    · exact (mem_files_placed hs hns).mpr ⟨e, n, hat, hn, rfl, hg⟩
    · exact hns.normalize_entry ((hplain.at hat).2.names.1 n hn)

/-! ## Includes in absolute form -/

/-- The absolute path that an include resolves to is legible. -/
theorem legible_absolute {ms : List Text} (hms : ∀ m ∈ ms, IsPlain m) : LegibleSpec (absolute ms) := by
  obtain ⟨hdirect, hsegments⟩ := direct_absolute hms
  refine ⟨hdirect.rooted, hdirect.noBackslash, hdirect.noDotDot, ?_⟩
  intro hends
  right
  have hnone : ms = [] := by
    by_contra hne
    rw [absolute_of_ne_nil hne] at hends
    exact getLast?_below_ne_slash (fun m hm => (hms m hm).name) slash hends rfl
  rw [hsegments, hnone]
  simp

theorem LegibleSearch.resolved (hs : LegibleSearch s) : LegibleSearch s.resolved where
  caseSensitive := hs.caseSensitive
  unbounded := hs.unbounded
  rooted := hs.rooted
  normalized := hs.normalized
  extensions := hs.extensions
  includes h := hs.includes (List.map_eq_nil_iff.mp h)
  specs := by
    intro x hx
    obtain ⟨spec, hspec, rfl⟩ := List.mem_map.mp hx
    obtain ⟨ms, hms, hplain⟩ := exists_resolve_eq_absolute hs.rooted (hs.notDrive hspec)
    rw [hms]
    refine ⟨?_, fun _ => legible_absolute hplain⟩
    obtain ⟨t, ht⟩ := absolute_cons ms
    rw [ht]
    exact List.cons_ne_nil _ _

/-- It selects the same files. -/
theorem selects_resolved (hs : LegibleSearch s) (G : Text) : Selects s.resolved G ↔ Selects s G := by
  have hmatches : ∀ spec ∈ s.includes, matchesInclude s.path (Path.resolve spec s.path) G = matchesInclude s.path spec G := by
    intro spec hspec
    obtain ⟨ms, hms, hplain⟩ := exists_resolve_eq_absolute hs.rooted (hs.notDrive hspec)
    have hroot : isRooted (absolute ms) = true := isRooted_of_startsAtRoot (startsAtRoot_absolute ms)
    have hresolve : Path.resolve (Path.resolve spec s.path) s.path = Path.resolve spec s.path := by
      rw [hms, resolve_of_isRooted hroot, normalize_absolute hplain]
    have hspec? : ofSpec? .files s.path (Path.resolve spec s.path) = ofSpec? .files s.path spec := by
      rw [ofSpec?, rootAndComponents, hresolve]
      rfl
    rw [matchesInclude, matchesInclude, ofInclude?, ofInclude?, hspec?]
  have hincluded : (∃ spec ∈ s.resolved.includes, matchesInclude s.path spec G = true) ↔
      ∃ spec ∈ s.includes, matchesInclude s.path spec G = true := by
    constructor
    · rintro ⟨x, hx, hm⟩
      obtain ⟨spec, hspec, rfl⟩ := List.mem_map.mp hx
      exact ⟨spec, hspec, (hmatches spec hspec).symm.trans hm⟩
    · rintro ⟨spec, hspec, hm⟩
      exact ⟨_, List.mem_map_of_mem hspec, (hmatches spec hspec).trans hm⟩
  constructor
  · exact fun h => ⟨h.extension, h.notExcluded, hincluded.mp h.included⟩
  · exact fun h => ⟨h.extension, h.notExcluded, hincluded.mpr h.included⟩

/-- Replacing each include by the absolute path it resolves to changes nothing, if those that are rooted are in normal
form; and if they are only legible, it changes no file found, on a file system that resolves paths. -/
theorem matchFiles_respelled {s : Search} (hpath : startsAtRoot s.path = true) (hspecs : ∀ spec ∈ s.includes, spec ≠ []) :
    ((∀ spec ∈ s.includes, isRooted spec = true → normalize spec = spec) →
      ∀ t, matchFiles t s.resolved = matchFiles t s) ∧
    ((∀ spec ∈ s.includes, isRooted spec = true → LegibleSpec spec) → s.caseSensitive = true → s.depth = none →
      (∀ e ∈ s.extensions, slash ∉ e) → ∀ root : Folder, root.Valid → root.Plain →
        ∀ F, F ∈ (matchFiles root.resolving s.resolved).map normalize ↔ F ∈ (matchFiles root.resolving s).map normalize) := by
  constructor
  · intro hnormal t
    exact matchFiles_resolved t hpath fun spec hspec => ⟨hspecs spec hspec, hnormal spec hspec⟩
  · intro hlegible hcase hdepth hextensions root hroot hplain F
    by_cases hnone : s.includes = []
    · have hsame : s.resolved = s := by
        rw [Search.resolved, hnone, List.map_nil, ← hnone]
      rw [hsame]
    · have hs : LegibleSearch { s with path := normalize s.path } :=
        ⟨hcase, hdepth, startsAtRoot_normalize hpath, normalize_normalize s.path, hextensions, hnone,
          fun spec hspec => ⟨hspecs spec hspec, hlegible spec hspec⟩⟩
      have hresolved : Search.resolved { s with path := normalize s.path } =
          { s.resolved with path := normalize s.resolved.path } := by
        have hincludes : s.includes.map (Path.resolve · (normalize s.path)) = s.includes.map (Path.resolve · s.path) :=
          List.map_congr_left fun spec _ => resolve_normalize hpath spec
        simp only [Search.resolved, hincludes]
      rw [← matchFiles_normalize_path root.resolving s.resolved, ← matchFiles_normalize_path root.resolving s, ← hresolved,
        mem_normalized hroot hplain hs.resolved, mem_normalized hroot hplain hs, selects_resolved hs]

theorem matchFiles_respelled_dots :
    let root := Folder.folder (Text.of "lib") (.file (Text.of "b.ts") .empty)
      (.folder (Text.of "proj") (.folder (Text.of "src") (.file (Text.of "a.ts") .empty) .empty) .empty)
    let s : Search := { path := Text.of "/proj", includes := [Text.of "//lib/./*.ts", Text.of ".\\src//../src/*.ts"] }
    (startsAtRoot s.path = true ∧ (∀ spec ∈ s.includes, spec ≠ []) ∧
      (∀ spec ∈ s.includes, isRooted spec = true → LegibleSpec spec) ∧ root.Valid ∧ root.Plain) ∧
      matchFiles root.resolving s = [Text.of "//lib/./b.ts", Text.of "/proj/src/a.ts"] ∧
      ∀ F, F ∈ (matchFiles root.resolving s.resolved).map normalize ↔ F ∈ (matchFiles root.resolving s).map normalize := by
  intro root s
  have hspecs : ∀ spec ∈ s.includes, spec ≠ [] := by decide
  have hlegible : ∀ spec ∈ s.includes, isRooted spec = true → LegibleSpec spec := by
    refine List.forall_mem_cons.mpr ⟨fun _ => ⟨by decide, by decide, by decide, by decide⟩, ?_⟩
    exact List.forall_mem_singleton.mpr fun h => absurd h (by decide)
  have hroot : root.Valid := by decide
  have hplain : root.Plain := by decide
  have hfound : matchFiles root.resolving s = [Text.of "//lib/./b.ts", Text.of "/proj/src/a.ts"] := by
    rw [matchFiles, walk, cover_of_sorted (by decide)]
    decide +kernel
  exact ⟨⟨rfl, hspecs, hlegible, hroot, hplain⟩, hfound,
    (matchFiles_respelled rfl hspecs).2 hlegible rfl rfl (List.forall_mem_nil _) root hroot hplain⟩

/-- A rooted include that only seems to lie below the path that is searched. -/
theorem matchFiles_climbing :
    let root := Folder.folder (Text.of "lib") (.file (Text.of "a.ts") .empty) .empty
    let s : Search := { path := Text.of "/proj", includes := [Text.of "/proj/../lib/*.ts"] }
    matchFiles root.resolving s = [] ∧ matchFiles root.resolving s.resolved = [Text.of "/lib/a.ts"] := by
  decide +kernel

end TsProject.Glob
