/-
  TsProject.Proofs.Glob.Monotone — more includes lose no file, more excludes find none.

  An include adds a directory to start from, and then others are not started from, because
  they lie in it; it adds to the pattern of the directories, and it adds a group. A file
  that was found below a directory that is no longer started from is found on the way down
  from the new one: each directory in between leads to the file, and so the include that
  selects the file lets the walk in. That takes an include that has a part in the pattern
  of the directories, which the empty one has not, and directories that lie where their
  names say, as those of a rooted spec with `..` do not.

  - `Straight`: a spec whose base is in normal form.
  - `exists_way`: what is found lies below every directory that the new cover may start from.
  - `mem_matchFiles_of_way`: what lies on such a way is found.
  - `matchFiles_monotone`: more includes, and more excludes.
-/

import TsProject.Proofs.Glob.Drive
import TsProject.Proofs.Glob.Exclusion
import TsProject.Proofs.Glob.Respelled

namespace TsProject.Glob

open CodePoint Pattern TsProject.Path

variable {t : Tree} {f : Filter} {s : Search} {d d' spec : Text} {ns ms : List Text}

/-! ## Straight specs -/

/-- A directory that lies where its name says: rooted, and in normal form. -/
structure Upright (d : Text) : Prop where
  rooted : isRooted d = true
  normalized : normalize d = d
  onOneLine : d.head? ≠ some lineFeed

instance (d : Text) : Decidable (Upright d) :=
  decidable_of_iff (isRooted d = true ∧ normalize d = d ∧ d.head? ≠ some lineFeed)
    ⟨fun h => ⟨h.1, h.2.1, h.2.2⟩, fun h => ⟨h.rooted, h.normalized, h.onOneLine⟩⟩

/-- A spec that is relative, or that stays rooted when it is normalized and has an upright base. -/
def Straight (spec : Text) : Prop := isRooted spec = true → isRooted (normalize spec) = true ∧ Upright (baseOf spec)

instance (spec : Text) : Decidable (Straight spec) :=
  inferInstanceAs (Decidable (isRooted spec = true → isRooted (normalize spec) = true ∧ Upright (baseOf spec)))

theorem upright_absolute (hns : ∀ n ∈ ns, IsPlain n) : Upright (absolute ns) where
  rooted := isRooted_of_startsAtRoot (startsAtRoot_absolute ns)
  normalized := normalize_absolute hns
  onOneLine := by
    obtain ⟨u, hu⟩ := absolute_cons ns
    rw [hu, List.head?_cons, ne_eq, Option.some.injEq]
    decide

theorem Straight.base (h : Straight spec) (ns : List Text) : Upright (baseOf (absoluteInclude (absolute ns) spec)) := by
  cases hr : isRooted spec with
  | true =>
    rw [absoluteInclude, if_pos hr]
    exact (h hr).2
  | false =>
    obtain ⟨hbase, hplain⟩ := baseOf_absoluteInclude ns hr
    rw [hbase]
    exact upright_absolute hplain

/-- A search below the root by straight includes, without a bound on depth, where names that differ in case differ. -/
structure StraightSearch (s : Search) : Prop where
  caseSensitive : s.caseSensitive = true
  unbounded : s.depth = none
  rooted : startsAtRoot s.path = true
  normalized : normalize s.path = s.path
  includes : ∀ spec ∈ s.includes, Straight spec

theorem StraightSearch.upright (hs : StraightSearch s) (hd : d ∈ cover true s.path s.includes) : Upright d := by
  obtain ⟨ns, hpath, hns⟩ := eq_absolute_of_normalize hs.rooted hs.normalized
  rcases eq_or_exists_of_mem_cover hd with rfl | ⟨spec, hspec, rfl⟩
  · rw [hpath]
    exact upright_absolute hns
  · rw [hpath]
    exact (hs.includes spec hspec).base ns

/-! ## Stops -/

/-- The stop at a directory whose name is its absolute name. -/
def stopAt (d : Text) : Stop := ⟨d, d, none⟩

theorem StraightSearch.starts_eq (hs : StraightSearch s) : s.starts = (cover true s.path s.includes).map stopAt := by
  rw [Search.starts, hs.caseSensitive, hs.normalized, hs.unbounded]
  refine List.map_congr_left fun d hd => ?_
  rw [resolve_of_isRooted (hs.upright hd).rooted, (hs.upright hd).normalized]
  rfl

/-- What a search by straight specs meets is a directory below one of the cover. -/
theorem Met.way (hs : StraightSearch s) {v : Stop} (h : Met t s.filter s.starts v) :
    ∃ d ∈ cover true s.path s.includes, ∃ ns, Leads t d ns ∧ v = stopAt (descend d ns) := by
  have hdepth : v.depth = none := by
    refine h.depth_eq_none fun u hu => ?_
    rw [hs.starts_eq] at hu
    obtain ⟨d, -, rfl⟩ := List.mem_map.mp hu
    rfl
  obtain ⟨start, hstart, ns, hleads, hdirectory, habsolute⟩ := h.descends
  rw [hs.starts_eq] at hstart
  obtain ⟨d, hd, rfl⟩ := List.mem_map.mp hstart
  refine ⟨d, hd, ns, hleads, ?_⟩
  rw [stopAt, Stop.mk.injEq]
  exact ⟨hdirectory, habsolute, hdepth⟩

/-- A directory that is listed under some name is a stop under its own. -/
theorem stopAt_mem_of_listed (hrealpath : ∀ p, t.realpath p = p) (hs : StraightSearch s) {stops : List Stop}
    (hmet : ∀ v ∈ stops, Met t s.filter s.starts v) (h : Listed t s.filter [] stops (stopAt d)) : stopAt d ∈ stops := by
  have hreal : ∀ v : Stop, v.real t s.filter = v.absolute := by
    intro v
    rw [Stop.real_eq hs.caseSensitive, hrealpath]
  rcases h with hseen | ⟨w, hw, hsame⟩
  · cases hseen
  · obtain ⟨d', -, ns, -, rfl⟩ := (hmet w hw).way hs
    rw [hreal, hreal] at hsame
    change descend d' ns = d at hsame
    rwa [hsame] at hw

/-! ## Ways -/

/-- Listings hold the names of entries, and a directory that has entries is listed in the one above it. -/
structure Tree.Grounded (t : Tree) : Prop where
  names : ∀ d, ∀ n ∈ (t.entries d).1 ++ (t.entries d).2, IsEntryName n
  listed : ∀ d n, isRooted d = true → IsPlain n → t.entries (entry d n) ≠ ([], []) → n ∈ (t.entries d).2

theorem Leads.entries_ne (h : Leads t d ns) (hend : t.entries (descend d ns) ≠ ([], [])) : t.entries d ≠ ([], []) := by
  cases ns with
  | nil => exact hend
  | cons n ns =>
    intro hnone
    have hn := h.1
    rw [hnone] at hn
    cases hn

theorem Leads.isEntryName (ht : t.Grounded) (h : Leads t d ns) : ∀ n ∈ ns, IsEntryName n := by
  intro n hn
  obtain ⟨x, hx⟩ := h.exists_listed n hn
  exact ht.names x n (List.mem_append_right _ hx)

/-- The plain names of a directory that has entries lead to it from any rooted directory above. -/
theorem Tree.Grounded.leads (ht : t.Grounded) (hd : isRooted d = true) (hns : ∀ n ∈ ns, IsPlain n)
    (h : t.entries (descend d ns) ≠ ([], [])) : Leads t d ns := by
  induction ns using List.reverseRecOn with
  | nil => trivial
  | append_singleton ns n ih =>
    obtain ⟨hns, hn⟩ := List.forall_mem_append.mp hns
    rw [descend_append] at h
    have hlisted : n ∈ (t.entries (descend d ns)).2 :=
      ht.listed _ n (isRooted_of_start hd (prefix_descend d ns)) (hn n (List.mem_singleton_self n)) h
    have habove : t.entries (descend d ns) ≠ ([], []) := by
      intro hnone
      rw [hnone] at hlisted
      cases hlisted
    exact leads_append.mpr ⟨ih hns habove, hlisted, trivial⟩

/-- The names of an upright directory: a drive, unless it lies below the root, and the plain names that lead down
from the directory of either. -/
structure Names (d : Text) (atRoot : Bool) (drive ms : List Text) : Prop where
  located : d = Glob.located atRoot (drive ++ ms)
  length : drive.length = if atRoot then 0 else 1
  oneLine : ∀ c ∈ drive, IsEntryName c
  plain : ∀ m ∈ ms, IsPlain m
  descend : ∃ top, isRooted top = true ∧ d = Path.descend top ms

theorem Upright.exists_names (hd : Upright d) : ∃ atRoot drive ms, Names d atRoot drive ms := by
  obtain ⟨top, atRoot, drive, ms, htop, hms, hdescend, hlocated, hlength, hdrive⟩ := exists_located hd.rooted hd.normalized
  refine ⟨atRoot, drive, ms, hlocated, hlength, fun c hc => ?_, hms, top, htop, hdescend⟩
  exact ⟨(hdrive c hc).1, fun hlf => hd.onOneLine ((hdrive c hc).2 hlf)⟩

variable {atRoot : Bool} {drive : List Text}

theorem Names.ne_nil (h : Names d atRoot drive ms) (hroot : atRoot = false) : drive ++ ms ≠ [] := by
  have hlength := h.length
  rw [hroot] at hlength
  apply List.append_ne_nil_of_left_ne_nil
  rintro rfl
  cases hlength

theorem Names.isName (h : Names d atRoot drive ms) : ∀ n ∈ drive ++ ms, IsName n :=
  List.forall_mem_append.mpr ⟨fun c hc => (h.oneLine c hc).name, fun m hm => (h.plain m hm).name⟩

/-- They are names of entries if the directory has any. -/
theorem Names.isEntryName (h : Names d atRoot drive ms) (ht : t.Grounded) (hentries : t.entries d ≠ ([], [])) :
    ∀ n ∈ drive ++ ms, IsEntryName n := by
  obtain ⟨top, htop, hdescend⟩ := h.descend
  rw [hdescend] at hentries
  exact List.forall_mem_append.mpr ⟨h.oneLine, (ht.leads htop h.plain hentries).isEntryName ht⟩

theorem Names.descend_eq (h : Names d atRoot drive ms) (hns : ∀ n ∈ ns, IsEntryName n) :
    Path.descend d ns = Glob.located atRoot (drive ++ ms ++ ns) := by
  rw [h.located, descend_located h.ne_nil h.isName fun n hn => (hns n hn).name]

theorem startsAtRoot_of_isWithin (hne : d' ≠ []) (h : isWithin true d' d = true) : startsAtRoot d = startsAtRoot d' := by
  simp only [isWithin, canonical, if_true, Bool.or_eq_true, beq_iff_eq] at h
  rcases h with rfl | h
  · rfl
  · rw [startsAtRoot_of_start (by simp) (List.isPrefixOf_iff_prefix.mp h),
      ← startsAtRoot_of_start (by simp) (trimEnd_slash d'), startsAtRoot_of_start hne (List.prefix_append d' [slash])]

/-- An upright directory lies below every upright one that it is within. -/
theorem Upright.exists_descend (hd : Upright d) (hd' : Upright d') (h : isWithin true d' d = true) :
    ∃ ns, (∀ n ∈ ns, IsPlain n) ∧ d = descend d' ns := by
  obtain ⟨atRoot, drive, ms, hnames⟩ := hd.exists_names
  obtain ⟨atRoot', drive', ms', hnames'⟩ := hd'.exists_names
  have hne : d' ≠ [] := by
    rintro rfl
    exact Bool.false_ne_true hd'.rooted
  have hroot : atRoot = atRoot' := by
    have hsame := startsAtRoot_of_isWithin hne h
    rwa [hnames.located, hnames'.located, startsAtRoot_located hnames.ne_nil hnames.isName,
      startsAtRoot_located hnames'.ne_nil hnames'.isName] at hsame
  subst hroot
  have hpre := names_of_isWithin h
  rw [hnames.located, hnames'.located, names_located atRoot hnames.isName, names_located atRoot hnames'.isName] at hpre
  -- the drives are as many in both, so what is below is plain
  obtain ⟨ns, hns⟩ := hpre
  rw [List.append_assoc] at hns
  obtain ⟨rfl, rfl⟩ := List.append_inj hns (hnames'.length.trans hnames.length.symm)
  have hplain : ∀ n ∈ ns, IsPlain n := fun n hn => hnames.plain n (List.mem_append_right _ hn)
  refine ⟨ns, hplain, ?_⟩
  calc d = located atRoot (drive' ++ ms' ++ ns) := by rw [hnames.located, List.append_assoc]
    _ = descend (located atRoot (drive' ++ ms')) ns :=
      (descend_located hnames'.ne_nil hnames'.isName fun n hn => (hplain n hn).name).symm
    _ = descend d' ns := by rw [← hnames'.located]

/-! ## More includes -/

/-- A search with more includes. -/
def Search.including (s : Search) (more : List Text) : Search := { s with includes := s.includes ++ more }

/-- A directory of a cover lies in one of the cover of more includes. -/
theorem exists_cover_of_subset {caseSensitive : Bool} {path : Text} {includes includes' : List Text} (h : includes ⊆ includes')
    (hd : d ∈ cover caseSensitive path includes) :
    ∃ d' ∈ cover caseSensitive path includes', isWithin caseSensitive d' d = true := by
  rcases eq_or_exists_of_mem_cover hd with rfl | ⟨spec, hspec, rfl⟩
  · exact ⟨d, subset_foldl_keep _ _ _ List.mem_cons_self, isWithin_refl _ _⟩
  · exact exists_cover_isWithin caseSensitive path (h hspec)

/-- A file that is found lies on a way down from the cover of more includes. -/
theorem exists_way {more : List Text} (ht : t.Grounded) (hs : StraightSearch s) (hs' : StraightSearch (s.including more))
    (hbounded : Bounded t s) {F : Text} (hF : F ∈ matchFiles t s) :
    ∃ d ∈ cover true s.path (s.includes ++ more), ∃ ns n, Leads t d ns ∧ n ∈ (t.entries (descend d ns)).1 ∧
      F = entry (descend d ns) n ∧ ∃ g, s.filter.groupOf F F = some g := by
  obtain ⟨stops, hcourse, hwalk⟩ := walk_follows hbounded
  obtain ⟨v, hv, n, hn, rfl, g, hg⟩ := (mem_matchFiles_of_course hwalk).mp hF
  have hmet : Met t s.filter s.starts v := ((hcourse stops).mpr rfl).met (fun _ => .first) v hv
  obtain ⟨d, hd, rest, hrest, rfl⟩ := hmet.way hs
  obtain ⟨d', hd', hwithin⟩ := exists_cover_of_subset (List.subset_append_left _ more) hd
  obtain ⟨ns, hns, rfl⟩ := (hs.upright hd).exists_descend (hs'.upright hd') hwithin
  -- the directory of the old cover has entries, so it is listed all the way from the new one
  have hentries : t.entries (descend (descend d' ns) rest) ≠ ([], []) := by
    intro hnone
    change n ∈ (t.entries (descend (descend d' ns) rest)).1 at hn
    rw [hnone] at hn
    cases hn
  have hleads : Leads t d' ns := ht.leads (hs'.upright hd').rooted hns (hrest.entries_ne hentries)
  refine ⟨d', hd', ns ++ rest, n, leads_append.mpr ⟨hleads, hrest⟩, ?_⟩
  rw [descend_append]
  exact ⟨hn, rfl, g, hg⟩

/-- Every directory on a way down from the cover is entered if an include matches the file it leads to. -/
theorem enters_of_way (ht : t.Grounded) (hs : StraightSearch s) (hd : d ∈ cover true s.path s.includes) {pre post : List Text}
    (hpre : pre ≠ []) (hleads : Leads t d (pre ++ post)) {n : Text} (hn : n ∈ (t.entries (descend d (pre ++ post))).1)
    (hspec : spec ∈ s.includes) (hne : spec ≠ []) (hm : matchesInclude s.path spec (entry (descend d (pre ++ post)) n) = true)
    (hexcluded : s.filter.isExcluded (entry (descend d (pre ++ post)) n) = false) :
    s.filter.enters (descend d pre) = true := by
  have hentries : t.entries (descend d (pre ++ post)) ≠ ([], []) := by
    intro hnone
    rw [hnone] at hn
    cases hn
  obtain ⟨atRoot, drive, ms, hnames⟩ := (hs.upright hd).exists_names
  have habove := hnames.isEntryName ht (hleads.entries_ne hentries)
  have hway := hleads.isEntryName ht
  have hend : ∀ m ∈ pre ++ post ++ [n], IsEntryName m := List.forall_mem_append.mpr
    ⟨hway, List.forall_mem_singleton.mpr (ht.names _ n (List.mem_append_left _ hn))⟩
  have hfile : entry (descend d (pre ++ post)) n = located atRoot (drive ++ ms ++ (pre ++ post ++ [n])) := by
    rw [← hnames.descend_eq hend, descend_append d (pre ++ post)]
    rfl
  rw [hfile] at hm hexcluded
  rw [hnames.descend_eq fun m hm => hway m (List.mem_append_left _ hm)]
  have hsplit : drive ++ ms ++ (pre ++ post ++ [n]) = drive ++ ms ++ pre ++ (post ++ [n]) := by simp
  exact enters_located hs.caseSensitive (absolutePath_eq hs.rooted hs.normalized) hspec hne
    (List.forall_mem_append.mpr ⟨habove, hend⟩) hsplit (List.append_ne_nil_of_right_ne_nil _ hpre) (by simp) hm hexcluded

/-- A file on a way down from the cover is found if an include matches it that has a part in the pattern of the
directories. -/
theorem mem_matchFiles_of_way (hrealpath : ∀ p, t.realpath p = p) (ht : t.Grounded) (hs : StraightSearch s)
    (hbounded : Bounded t s) (hd : d ∈ cover true s.path s.includes) (hleads : Leads t d ns) {n : Text}
    (hn : n ∈ (t.entries (descend d ns)).1) (hspec : spec ∈ s.includes) (hne : spec ≠ [])
    (hm : matchesInclude s.path spec (entry (descend d ns) n) = true)
    (hgroup : ∃ g, s.filter.groupOf (entry (descend d ns) n) (entry (descend d ns) n) = some g) :
    entry (descend d ns) n ∈ matchFiles t s := by
  obtain ⟨stops, hcourse, hwalk⟩ := walk_follows hbounded
  have hitinerary : Itinerary t s.filter [] s.starts stops := (hcourse stops).mpr rfl
  have hmet : ∀ v ∈ stops, Met t s.filter s.starts v := hitinerary.met fun _ => .first
  have hexcluded : s.filter.isExcluded (entry (descend d ns) n) = false :=
    ((exists_groupOf hs.caseSensitive (absolutePath_eq hs.rooted hs.normalized) (List.ne_nil_of_mem hspec) _).mp hgroup).1.2
  -- the directory of the cover is a start, and the walk enters one directory after the other from there
  suffices ∀ mid post, ns = mid ++ post → stopAt (descend d mid) ∈ stops from
    (mem_matchFiles_of_course hwalk).mpr ⟨_, this ns [] (List.append_nil ns).symm, n, hn, rfl, hgroup⟩
  intro mid
  induction mid using List.reverseRecOn with
  | nil =>
    intro post _
    refine stopAt_mem_of_listed hrealpath hs hmet (hitinerary.closed.1 _ ?_)
    rw [hs.starts_eq]
    exact List.mem_map_of_mem hd
  | append_singleton mid m ih =>
    intro post hpost
    have hstop := ih (m :: post) (by simp [hpost])
    subst hpost
    have henters := enters_of_way ht hs hd (by simp) hleads hn hspec hne hm hexcluded
    rw [List.append_assoc, leads_append] at hleads
    obtain ⟨-, hlisted, -⟩ := hleads
    rw [descend_append] at henters ⊢
    exact stopAt_mem_of_listed hrealpath hs hmet (hitinerary.closed.2 _ hstop _ (Stop.child_mem_inner rfl hlisted henters))

theorem mem_including {more : List Text} (hrealpath : ∀ p, t.realpath p = p) (ht : t.Grounded) (hs : StraightSearch s)
    (hs' : StraightSearch (s.including more)) (hbounded : Bounded t s) (hbounded' : Bounded t (s.including more))
    (hincludes : s.includes ≠ []) (hne : ∀ spec ∈ s.includes, spec ≠ []) {F : Text} (hF : F ∈ matchFiles t s) :
    F ∈ matchFiles t (s.including more) := by
  obtain ⟨d, hd, ns, n, hleads, hn, rfl, hgroup⟩ := exists_way ht hs hs' hbounded hF
  obtain ⟨hkept, spec, hspec, hm⟩ :=
    (exists_groupOf hs.caseSensitive (absolutePath_eq hs.rooted hs.normalized) hincludes _).mp hgroup
  have hspec' : spec ∈ (s.including more).includes := List.mem_append_left more hspec
  refine mem_matchFiles_of_way hrealpath ht hs' hbounded' hd hleads hn hspec' (hne spec hspec) hm ?_
  exact (exists_groupOf hs'.caseSensitive (absolutePath_eq hs'.rooted hs'.normalized) (List.ne_nil_of_mem hspec') _).mpr
    ⟨hkept, spec, hspec', hm⟩

theorem bounded_normalize_path (h : Bounded t s) : Bounded t { s with path := normalize s.path } := by
  have hstarts : Search.starts { s with path := normalize s.path } = s.starts := by
    rw [Search.starts, Search.starts]
    simp only [normalize_normalize]
  rw [Bounded, hstarts, filter_normalize_path]
  exact h

/-- What a folder lists is named as entries are, and listed where it lies. -/
theorem Folder.grounded_resolving {root : Folder} (hroot : root.Valid) : root.resolving.Grounded where
  names d n hn := by
    simp only [Folder.resolving] at hn
    cases hat : root.at? (rootedNames d) with
    | none => simp [hat] at hn
    | some e =>
      have he := (hroot.at hat).2
      simp only [hat, Option.map_some, Option.getD_some, List.mem_append] at hn
      rcases hn with hn | hn
      · exact he.files.2 n hn
      · obtain ⟨e', he'⟩ := Folder.mem_folders.mp hn
        exact (he.inside he').1
  listed d n _ hn hentries := by
    simp only [Folder.resolving, rootedNames_entry d hn, Folder.at?_append] at hentries ⊢
    cases hat : root.at? (rootedNames d) with
    | none => simp [hat] at hentries
    | some e =>
      cases hinside : e.inside? n with
      | none => simp [hat, Folder.at?, hinside] at hentries
      | some e' => simpa using Folder.mem_folders.mpr ⟨e', hinside⟩

/-- A search from the root finds all it finds with more includes as well, if none of its own is empty and those that are
rooted are straight; and with more excludes it finds nothing else, if no directory has a name that ends in a line feed. -/
theorem matchFiles_monotone (hrealpath : ∀ p, t.realpath p = p) (hcase : s.caseSensitive = true) (hbounded : Bounded t s) :
    (t.Grounded → startsAtRoot s.path = true → s.depth = none → s.includes ≠ [] → (∀ spec ∈ s.includes, spec ≠ []) →
      ∀ more, (∀ spec ∈ s.includes ++ more, Straight spec) → Bounded t (s.including more) →
        ∀ F ∈ matchFiles t s, F ∈ matchFiles t (s.including more)) ∧
    ((∀ d, ∀ n ∈ (t.entries d).2, IsName n ∧ ¬ [lineFeed] <:+ n) →
      ∀ more, ∀ F ∈ matchFiles t (s.excluding more), F ∈ matchFiles t s) := by
  constructor
  · intro ht hpath hdepth hincludes hne more hstraight hbounded' F hF
    have hs : StraightSearch { s with path := normalize s.path } := ⟨hcase, hdepth, startsAtRoot_normalize hpath,
      normalize_normalize s.path, fun spec hspec => hstraight spec (List.mem_append_left more hspec)⟩
    have hs' : StraightSearch { s.including more with path := normalize s.path } :=
      ⟨hcase, hdepth, startsAtRoot_normalize hpath, normalize_normalize s.path, hstraight⟩
    rw [← matchFiles_normalize_path] at hF ⊢
    exact mem_including hrealpath ht hs hs' (bounded_normalize_path hbounded) (bounded_normalize_path hbounded') hincludes hne hF
  · intro hnames more F hF
    exact matchFiles_excluding hrealpath hcase hbounded hnames more hF

/-- The directory of one of the includes is no longer started from when the directory above it is. -/
theorem matchFiles_monotone_above :
    let root := Folder.folder (Text.of "lib") (.file (Text.of "b.ts") (.folder (Text.of "x") (.file (Text.of "c.ts") .empty) .empty))
      (.folder (Text.of "proj") (.file (Text.of "a.ts") (.folder (Text.of "old") (.file (Text.of "d.ts") .empty) .empty)) .empty)
    let s : Search := { path := Text.of "/proj", includes := [Text.of "/lib/x/*", Text.of "**/*"] }
    let more := [Text.of "/lib/*"]
    (root.Valid ∧ root.Plain ∧ (∀ spec ∈ s.includes, spec ≠ []) ∧ ∀ spec ∈ s.includes ++ more, Straight spec) ∧
      matchFiles root.resolving s = [Text.of "/lib/x/c.ts", Text.of "/proj/a.ts", Text.of "/proj/old/d.ts"] ∧
      (∀ F ∈ matchFiles root.resolving s, F ∈ matchFiles root.resolving (s.including more)) ∧
      ∀ F ∈ matchFiles root.resolving (s.excluding [Text.of "old"]), F ∈ matchFiles root.resolving s := by
  intro root s more
  have hroot : root.Valid := by decide
  have hplain : root.Plain := by decide
  have hne : ∀ spec ∈ s.includes, spec ≠ [] := by decide
  have hstraight : ∀ spec ∈ s.includes ++ more, Straight spec := by decide
  have hlegible : ∀ spec ∈ s.includes ++ more, spec ≠ [] ∧ (isRooted spec = true → LegibleSpec spec) := by
    refine List.forall_mem_cons.mpr ⟨⟨by decide, fun _ => ⟨by decide, by decide, by decide, by decide⟩⟩, ?_⟩
    refine List.forall_mem_cons.mpr ⟨⟨by decide, fun h => absurd h (by decide)⟩, ?_⟩
    exact List.forall_mem_singleton.mpr ⟨by decide, fun _ => ⟨by decide, by decide, by decide, by decide⟩⟩
  have hs : LegibleSearch s := ⟨rfl, rfl, rfl, by decide, List.forall_mem_nil _, by decide,
    fun spec hspec => hlegible spec (List.mem_append_left more hspec)⟩
  have hs' : LegibleSearch (s.including more) := ⟨rfl, rfl, rfl, by decide, List.forall_mem_nil _, by decide, hlegible⟩
  have hgrounded := Folder.grounded_resolving hroot
  have hnames : ∀ d, ∀ n ∈ (root.resolving.entries d).2, IsName n ∧ ¬ [lineFeed] <:+ n := by
    intro d n hn
    have hentry := hgrounded.names d n (List.mem_append_right _ hn)
    exact ⟨hentry.name, fun h => hentry.noLineFeed (h.subset List.mem_cons_self)⟩
  obtain ⟨hincluding, hexcluding⟩ := matchFiles_monotone (fun _ => rfl) rfl (bounded_resolving hplain hs)
  refine ⟨⟨hroot, hplain, hne, hstraight⟩, ?_, ?_, hexcluding hnames _⟩
  · rw [matchFiles, walk, cover_of_sorted (by decide)]
    decide +kernel
  · exact hincluding hgrounded rfl rfl (by decide) hne more hstraight (bounded_resolving hplain hs')

/-- The empty include has no part in the pattern of the directories. -/
theorem matchFiles_emptyInclude :
    let root := Folder.folder (Text.of "proj") (.folder (Text.of "y") (.file (Text.of "a.ts") .empty) .empty) .empty
    let s : Search := { path := Text.of "/proj", includes := [[]] }
    matchFiles root.resolving s = [Text.of "/proj/y/a.ts"] ∧ matchFiles root.resolving (s.including [Text.of "x/*"]) = [] := by
  constructor
  · decide +kernel
  · rw [matchFiles, walk, cover_of_sorted (by decide)]
    decide +kernel

end TsProject.Glob
