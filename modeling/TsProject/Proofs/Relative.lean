/-
  TsProject.Proofs.Relative — relative paths, read in a directory.

  A relative path adds its segments to those of the directory it is read in, and a `..`
  in it takes away a name of the directory as it takes away one of its own. So it does
  not matter whether the directory is normalized first, and as many `..` as a directory
  has names behind those it shares with a target lead back to what is shared.

  - `resolve_resolve`: a path read in a directory that was itself read in one.
  - `resolve_climb`: a path that climbs first and then goes down.
  - `commonSegments_isGreatest`: what a base and a target share is as much as can be.
  - `resolve_relativeTo`: a relative path leads from its base back to its target.
-/

import TsProject.Proofs.Climb
import Mathlib.Data.List.Forall2
import Mathlib.Order.Bounds.Basic

namespace TsProject.Path

open CodePoint

/-! ## One directory after another -/

/-- A path on a drive shows that at its second character. -/
theorem isRooted_append_slash {q : Text} (hq : isRooted q = false) (hne : q ≠ []) (hcolon : q[1]? ≠ some colon) (p : Text) :
    isRooted (q ++ slash :: p) = false := by
  have hstart := startsAtRoot_of_isRooted_false hq
  have hslashes : forwardSlashes (q ++ slash :: p) = forwardSlashes q ++ slash :: forwardSlashes p := by simp
  have hstart' : startsAtRoot (forwardSlashes (q ++ slash :: p)) = false := by
    have hne' : forwardSlashes q ≠ [] := by simpa [forwardSlashes] using hne
    rw [hslashes, startsAtRoot_of_start hne' (List.prefix_append _ _), hstart]
  rw [Bool.eq_false_iff]
  intro hrooted
  obtain ⟨c, t, -, hdrive⟩ := exists_drive hrooted hstart'
  rw [hslashes] at hdrive
  cases q with
  | nil => exact hne rfl
  | cons a q =>
    have hsecond := (List.cons.inj hdrive).2
    cases q with
    | nil =>
      obtain ⟨hslash, -⟩ := List.cons.inj hsecond
      cases hslash
    | cons b q =>
      have hb : (if b = backslash then slash else b) = colon := (List.cons.inj hsecond).1
      split at hb
      · cases hb
      · exact hcolon (by rw [← hb]; rfl)

/-- Reading a path in a directory that was itself read in a directory is reading the two, one behind the other, in the
outer one: nothing is lost when the inner one is normalized first. -/
theorem resolve_resolve {p q d : Text} (hd : startsAtRoot d = true) (hq : isRooted q = false) (hne : q ≠ [])
    (hcolon : q[1]? ≠ some colon) (hp : isRooted p = false) : resolve p (resolve q d) = resolve (q ++ slash :: p) d := by
  have hd' := startsAtRoot_forwardSlashes hd
  rw [resolve_relative hd' (isRooted_append_slash hq hne hcolon p), resolve_relative hd' hq,
    resolve_relative (startsAtRoot_forwardSlashes (startsAtRoot_absolute _)) hp, segments_absolute fun _ => isPlain_of_mem_fold,
    fold_append_fold, forwardSlashes_append, forwardSlashes_slash, segments_append_slash, List.append_assoc]

/-- The inner directory climbs out of the outer one, and the path out of the inner one. -/
theorem resolve_resolve_climbing :
    let d := Text.of "/proj/./app/"
    let q := Text.of "..\\lib//src/"
    let p := Text.of "../../y/./a.ts"
    resolve p (resolve q d) = resolve (q ++ slash :: p) d ∧ resolve p (resolve q d) = Text.of "/proj/y/a.ts" :=
  ⟨resolve_resolve (by decide) (by decide) (by decide) (by decide) (by decide), by decide⟩

/-! ## Up and down -/

/-- A `..` for each of some names takes them all away. -/
theorem foldl_push_climb (b : Bool) {names : List Text} (h : dotDotSegment ∉ names) (s : List Text) :
    (List.replicate names.length dotDotSegment).foldl (push b) (names ++ s) = s := by
  induction names with
  | nil => rfl
  | cons n ns ih =>
    obtain ⟨hn, hns⟩ := List.ne_and_not_mem_of_not_mem_cons h
    rw [List.length_cons, List.replicate_succ, List.foldl_cons, List.cons_append, push_up b _ (Ne.symm hn), ih hns]

/-- Out of some names of a directory and down to others. -/
theorem fold_climb_down {shared left down : List Text} (hleft : dotDotSegment ∉ left) (hshared : dotDotSegment ∉ shared)
    (hdown : dotDotSegment ∉ down) :
    fold true (shared ++ left ++ (List.replicate left.length dotDotSegment ++ down)) = shared ++ down := by
  have hnames : (shared ++ left).foldl (push true) [] = left.reverse ++ shared.reverse := by
    rw [foldl_push_of_not_mem true _ [] (by simp [hleft, hshared]), List.append_nil, List.reverse_append]
  have hup : (List.replicate left.length dotDotSegment).foldl (push true) (left.reverse ++ shared.reverse) = shared.reverse := by
    rw [← List.length_reverse]
    exact foldl_push_climb true (by simpa using hleft) shared.reverse
  rw [fold, List.foldl_append, hnames, List.foldl_append, hup, foldl_push_of_not_mem true _ _ hdown, List.reverse_append,
    List.reverse_reverse, List.reverse_reverse]

/-- Names joined are not rooted, unless the first is a drive. -/
theorem isRooted_join {ns : List Text} (h : ∀ n ∈ ns, IsName n ∧ n ≠ dotSegment ∧ backslash ∉ n)
    (hdrive : ∀ n ∈ ns.head?, ¬ IsDrive n) : isRooted (Text.join [slash] ns) = false := by
  obtain ⟨hslashes, -, hstart⟩ := pieces_join_names h
  rw [Bool.eq_false_iff]
  intro hrooted
  obtain ⟨c, t, -, hcut⟩ := exists_root_drive hrooted (by rw [hslashes, hstart]) hslashes
  have hne : ns ≠ [] := by
    intro hnil
    rw [hnil] at hrooted
    cases hrooted
  rw [Text.splitOn_join hne fun n hn => (h n hn).1.2] at hcut
  exact hdrive [c, colon] (by rw [hcut]; rfl) ⟨c, rfl⟩

/-- A path that climbs out of some names of a directory and goes down to others, read in the directory. -/
theorem resolve_climb {d : Text} (hd : startsAtRoot d = true) {shared left down : List Text}
    (hnames : rootedNames d = shared ++ left) (hdown : ∀ n ∈ down, IsPlain n) (hdrive : ∀ n ∈ down, ¬ IsDrive n) :
    isRooted (Text.join [slash] (List.replicate left.length dotDotSegment ++ down)) = false ∧
      resolve (Text.join [slash] (List.replicate left.length dotDotSegment ++ down)) d = absolute (shared ++ down) := by
  have hpieces : ∀ n ∈ List.replicate left.length dotDotSegment ++ down, IsName n ∧ n ≠ dotSegment ∧ backslash ∉ n := by
    intro n hn
    rcases List.mem_append.mp hn with hn | hn
    · rw [List.eq_of_mem_replicate hn]
      decide
    · exact ⟨(hdown n hn).name, (hdown n hn).noDot, (hdown n hn).noBackslash⟩
  have hrelative := isRooted_join hpieces fun n hn => by
    rcases List.mem_append.mp (List.mem_of_head? hn) with hn | hn
    · rw [List.eq_of_mem_replicate hn]
      exact fun h => h.ne_up rfl
    · exact hdrive n hn
  obtain ⟨hslashes, hsegments, -⟩ := pieces_join_names hpieces
  refine ⟨hrelative, ?_⟩
  have hplain : ∀ n ∈ shared ++ left, n ≠ dotDotSegment := fun n hn =>
    (isPlain_of_mem_rootedNames (by rw [hnames]; exact hn)).noDotDot
  have hshared : dotDotSegment ∉ shared := fun h => hplain _ (List.mem_append_left _ h) rfl
  have hleft : dotDotSegment ∉ left := fun h => hplain _ (List.mem_append_right _ h) rfl
  rw [resolve_relative (startsAtRoot_forwardSlashes hd) hrelative, hslashes, hsegments, ← fold_append_fold]
  change absolute (fold true (rootedNames d ++ _)) = _
  rw [hnames, fold_climb_down hleft hshared fun h => (hdown _ h).noDotDot rfl]

/-! ## What a base and a target share -/

/-- The numbers of leading names in which two paths agree up to case, say. -/
def agreements (canonical : Text → Text) (as bs : List Text) : Set Nat :=
  {n | n ≤ as.length ∧ n ≤ bs.length ∧ (as.take n).map canonical = (bs.take n).map canonical}

theorem commonSegments_isGreatest (canonical : Text → Text) (as bs : List Text) :
    IsGreatest (agreements canonical as bs) (commonSegments canonical as bs) := by
  induction as generalizing bs with
  | nil => exact ⟨⟨Nat.le_refl 0, Nat.zero_le _, by simp [commonSegments]⟩, fun n hn => hn.1⟩
  | cons a as ih =>
    cases bs with
    | nil => exact ⟨⟨Nat.zero_le _, Nat.le_refl 0, by simp [commonSegments]⟩, fun n hn => hn.2.1⟩
    | cons b bs =>
      obtain ⟨⟨hle, hle', hagree⟩, hgreatest⟩ := ih bs
      by_cases hab : canonical a = canonical b
      · rw [commonSegments, if_pos hab]
        refine ⟨⟨Nat.succ_le_succ hle, Nat.succ_le_succ hle', by simp [hab, hagree]⟩, fun n hn => ?_⟩
        cases n with
        | zero => exact Nat.zero_le _
        | succ n =>
          obtain ⟨hn, hn', hsame⟩ := hn
          rw [List.take_succ_cons, List.take_succ_cons, List.map_cons, List.map_cons] at hsame
          exact Nat.succ_le_succ
            (hgreatest ⟨Nat.le_of_succ_le_succ hn, Nat.le_of_succ_le_succ hn', (List.cons.inj hsame).2⟩)
      · rw [commonSegments, if_neg hab]
        refine ⟨⟨Nat.zero_le _, Nat.zero_le _, rfl⟩, fun n hn => ?_⟩
        cases n with
        | zero => exact Nat.le_refl 0
        | succ n =>
          obtain ⟨-, -, hsame⟩ := hn
          rw [List.take_succ_cons, List.take_succ_cons, List.map_cons, List.map_cons] at hsame
          exact absurd (List.cons.inj hsame).1 hab

/-! ## There and back -/

/-- Up from a base to the first `n` of its names, and from there down along a target. -/
def pathThrough (n : Nat) (base target : List Text) : Text :=
  Text.join [slash] (List.replicate (base.length - n) dotDotSegment ++ target.drop n)

/-- A rooted path as seen from a base: on another drive it is the path, and else it leads through what the two share. -/
theorem relativeTo_cases {p : Text} (hp : isRooted p = true) (base : Text) (canonical : Text → Text) :
    relativeTo p base canonical = normalize p ∨ relativeTo p base canonical =
      pathThrough (commonSegments canonical (names (normalize base)) (names (normalize p))) (names (normalize base))
        (names (normalize p)) := by
  simp only [relativeTo, isRooted_forwardSlashes, hp, normalize_forwardSlashes]
  split
  · contradiction
  · split
    · exact Or.inl rfl
    · exact Or.inr rfl

theorem names_normalize {p : Text} (hp : startsAtRoot p = true) : names (normalize p) = rootedNames p := by
  rw [normalize_rooted (startsAtRoot_forwardSlashes hp), names_absolute fun n hn => (isPlain_of_mem_rootedNames hn).name]

/-- Read in the base, the path goes on from the first `n` names of the base as the target does from its own. -/
theorem resolve_pathThrough {p base : Text} (hp : startsAtRoot p = true) (hbase : startsAtRoot base = true)
    (hdrive : ∀ m ∈ segments (forwardSlashes p), ¬ IsDrive m) (n : Nat) :
    let r := pathThrough n (names (normalize base)) (names (normalize p))
    isRooted r = false ∧ (names r).count dotDotSegment = (names (normalize base)).length - n ∧
      resolve r base = absolute ((names (normalize base)).take n ++ (names (normalize p)).drop n) := by
  intro r
  have hnames := names_normalize hp
  have hplain : ∀ m ∈ (names (normalize p)).drop n, IsPlain m := by
    intro m hm
    rw [hnames] at hm
    exact isPlain_of_mem_rootedNames (List.mem_of_mem_drop hm)
  have hdown : ∀ m ∈ (names (normalize p)).drop n, ¬ IsDrive m := by
    intro m hm
    rw [hnames] at hm
    exact hdrive m (mem_fold (List.mem_of_mem_drop hm)).1
  have hcut : rootedNames base = (names (normalize base)).take n ++ (names (normalize base)).drop n := by
    rw [List.take_append_drop, names_normalize hbase]
  obtain ⟨hrelative, hresolve⟩ := resolve_climb hbase hcut hplain hdown
  rw [List.length_drop] at hrelative hresolve
  have hpieces : ∀ m ∈ List.replicate ((names (normalize base)).length - n) dotDotSegment ++ (names (normalize p)).drop n,
      IsName m := by
    intro m hm
    rcases List.mem_append.mp hm with hm | hm
    · rw [List.eq_of_mem_replicate hm]
      decide
    · exact (hplain m hm).name
  have hnone : dotDotSegment ∉ (names (normalize p)).drop n := fun h => (hplain _ h).noDotDot rfl
  refine ⟨hrelative, ?_, hresolve⟩
  show (names (pathThrough n _ _)).count dotDotSegment = _
  rw [pathThrough, names_join hpieces, List.count_append, List.count_replicate_self, List.count_eq_zero_of_not_mem hnone,
    Nat.add_zero]

theorem forall₂_of_map_eq {canonical : Text → Text} {as bs : List Text} (h : as.map canonical = bs.map canonical) :
    List.Forall₂ (fun a b => canonical a = canonical b) as bs := by
  rwa [← List.forall₂_eq_eq_eq, List.forall₂_map_left_iff, List.forall₂_map_right_iff] at h

/-- Read in the base again, a path as seen from it leads back to the target: name by name up to `canonical`, and exactly
if no two names are one in canonical form. It climbs once for each name of the base behind those that the two share, and
then it goes on as the target is spelled; on another drive it is the target. -/
theorem resolve_relativeTo {p base : Text} (canonical : Text → Text) (hp : startsAtRoot p = true)
    (hbase : startsAtRoot base = true) (hdrive : ∀ m ∈ segments (forwardSlashes p), ¬ IsDrive m) :
    let r := relativeTo p base canonical
    startsAtRoot (resolve r base) = true ∧
      List.Forall₂ (fun a b => canonical a = canonical b) (names (resolve r base)) (names (normalize p)) ∧
      (Function.Injective canonical → resolve r base = normalize p) ∧
      (isRooted r = true → r = normalize p) ∧
      (isRooted r = false → ∃ n, IsGreatest (agreements canonical (names (normalize base)) (names (normalize p))) n ∧
        (names r).count dotDotSegment = (names (normalize base)).length - n ∧
        r = Text.join [slash] (List.replicate ((names (normalize base)).length - n) dotDotSegment ++
          (names (normalize p)).drop n)) := by
  intro r
  have hroot : startsAtRoot (normalize p) = true := startsAtRoot_normalize hp
  have hrooted : isRooted (normalize p) = true := isRooted_of_startsAtRoot hroot
  rcases relativeTo_cases (isRooted_of_startsAtRoot hp) base canonical with hr | hr
  · have hback : resolve r base = normalize p := by
      rw [show r = normalize p from hr, resolve_of_isRooted hrooted, normalize_normalize]
    rw [hback]
    refine ⟨hroot, List.forall₂_refl _, fun _ => rfl, fun _ => hr, fun hrelative => ?_⟩
    rw [show r = normalize p from hr, hrooted] at hrelative
    cases hrelative
  · have hgreatest := commonSegments_isGreatest canonical (names (normalize base)) (names (normalize p))
    generalize commonSegments canonical (names (normalize base)) (names (normalize p)) = n at hr hgreatest
    obtain ⟨hrelative, hcount, hback⟩ := resolve_pathThrough hp hbase hdrive n
    rw [← hr] at hrelative hcount hback
    -- the names of the base stand for those of the target as far as the two agree
    have hnames : names (resolve r base) = (names (normalize base)).take n ++ (names (normalize p)).drop n := by
      rw [hback]
      refine names_absolute fun m hm => ?_
      rcases List.mem_append.mp hm with hm | hm
      · exact isName_of_mem_names (List.mem_of_mem_take hm)
      · exact isName_of_mem_names (List.mem_of_mem_drop hm)
    have hsame : (names (resolve r base)).map canonical = (names (normalize p)).map canonical := by
      rw [hnames, List.map_append, hgreatest.1.2.2, ← List.map_append, List.take_append_drop]
    refine ⟨by rw [hback]; exact startsAtRoot_absolute _, forall₂_of_map_eq hsame, ?_, ?_, fun _ => ⟨n, hgreatest, hcount, hr⟩⟩
    · intro hinjective
      rw [hback, ← hnames, List.map_injective_iff.mpr hinjective hsame, names_normalize hp,
        normalize_rooted (startsAtRoot_forwardSlashes hp)]
    · intro h
      rw [hrelative] at h
      cases h

/-- The base and the target agree in their first name but for its case. -/
theorem resolve_relativeTo_folding :
    let p := Text.of "/Proj/x\\..//src/a.ts"
    let base := Text.of "/proj/app/./sub"
    let r := relativeTo p base Text.lower
    r = Text.of "../../src/a.ts" ∧ resolve r base = Text.of "/proj/src/a.ts" ∧
      List.Forall₂ (fun a b => Text.lower a = Text.lower b) (names (resolve r base)) (names (normalize p)) ∧
      ∃ n, IsGreatest (agreements Text.lower (names (normalize base)) (names (normalize p))) n ∧
        (names r).count dotDotSegment = (names (normalize base)).length - n ∧
        r = Text.join [slash] (List.replicate ((names (normalize base)).length - n) dotDotSegment ++
          (names (normalize p)).drop n) := by
  intro p base r
  obtain ⟨-, hsame, -, -, hparts⟩ := @resolve_relativeTo p base Text.lower (by decide) (by decide) (by decide)
  exact ⟨by decide +kernel, by decide +kernel, hsame, hparts (by decide +kernel)⟩

end TsProject.Path
