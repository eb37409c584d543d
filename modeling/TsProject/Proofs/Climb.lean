/-
  TsProject.Proofs.Climb — how far a path climbs.

  A `..` takes away the name before it. While no start of a path holds more `..` than
  names, the path stays below the directory it is read in, and its names are all that is
  left of it. Normalization knows the root of a path but no drive: a drive is a name like
  any other, which a `..` takes away, and alone it does not make a path rooted.

  - `staysBelow_iff`: a path stays below where it starts exactly when no `..` is left of it.
  - `exists_of_stack`: what is left of a path, and where in it that stands.
  - `resolve_fixed`: a path resolves to a rooted one, and to one that resolution leaves
    alone, exactly when it starts at the root or ends below a drive.
  - `resolve_outOfDrive`: a rooted path that climbs out of its drive does neither.
-/

import TsProject.Proofs.Normal
import Mathlib.Data.List.Infix

namespace TsProject.Path

open CodePoint

/-! ## Ups and downs -/

def ups (l : List Text) : Nat := l.count dotDotSegment

def downs (l : List Text) : Nat := l.countP (· ≠ dotDotSegment)

/-- No start of the path climbs further than it has gone down. -/
def StaysBelow (l : List Text) : Prop := ∀ start ∈ l.inits, ups start ≤ downs start

/-- Each `..` takes a name before it away, and no name is left. -/
def Cancels (l : List Text) : Prop := StaysBelow l ∧ ups l = downs l

theorem ups_concat (l : List Text) (x : Text) : ups (l ++ [x]) = ups l + if x = dotDotSegment then 1 else 0 := by
  rw [ups, ups, List.count_append, List.count_singleton]
  simp

theorem downs_concat (l : List Text) (x : Text) : downs (l ++ [x]) = downs l + if x = dotDotSegment then 0 else 1 := by
  rw [downs, downs, List.countP_append, List.countP_singleton]
  by_cases hx : x = dotDotSegment <;> simp [hx]

theorem staysBelow_nil : StaysBelow [] := by
  intro start hstart
  rw [List.mem_inits, List.prefix_nil] at hstart
  subst hstart
  exact Nat.le_refl 0

theorem staysBelow_concat {l : List Text} {x : Text} :
    StaysBelow (l ++ [x]) ↔ StaysBelow l ∧ ups (l ++ [x]) ≤ downs (l ++ [x]) := by
  simp only [StaysBelow, List.mem_inits]
  constructor
  · intro h
    exact ⟨fun start hstart => h start (hstart.trans (List.prefix_append l [x])), h _ (List.prefix_refl _)⟩
  · intro h start hstart
    rcases List.prefix_concat_iff.mp hstart with heq | hstart
    · rw [heq]
      exact h.2
    · exact h.1 start hstart

/-! ## What is left of a path -/

/-- What is left of the segments of a relative path, innermost first. -/
def stack (l : List Text) : List Text := l.foldl (push false) []

theorem fold_eq_reverse_stack (l : List Text) : fold false l = (stack l).reverse := rfl

@[simp] theorem stack_nil : stack [] = [] := rfl

@[simp] theorem stack_concat (l : List Text) (x : Text) : stack (l ++ [x]) = push false (stack l) x := by
  simp [stack]

/-- A name goes on the stack. -/
theorem push_name (b : Bool) (s : List Text) {x : Text} (hx : x ≠ dotDotSegment) : push b s x = x :: s := by
  simp [push, hx]

/-- A `..` takes the innermost name away. -/
theorem push_up (b : Bool) {top : Text} (s : List Text) (htop : top ≠ dotDotSegment) :
    push b (top :: s) dotDotSegment = s := by
  simp [push, htop]

/-- A `..` that does not stay took a name away. -/
theorem exists_of_push_up {s : List Text} (h : dotDotSegment ∉ push false s dotDotSegment) :
    ∃ top, s = top :: push false s dotDotSegment ∧ top ≠ dotDotSegment := by
  cases s with
  | nil => simp [push] at h
  | cons top s =>
    have htop : top ≠ dotDotSegment := by
      rintro rfl
      simp [push] at h
    exact ⟨top, by rw [push_up false s htop], htop⟩

/-- A `..` that is left on the stack stays there. -/
theorem not_mem_of_push {s : List Text} {x : Text} (h : dotDotSegment ∉ push false s x) : dotDotSegment ∉ s := by
  by_cases hx : x = dotDotSegment
  · subst hx
    obtain ⟨top, hs, htop⟩ := exists_of_push_up h
    rw [hs]
    exact List.not_mem_cons_of_ne_of_not_mem (Ne.symm htop) h
  · rw [push_name false s hx] at h
    exact fun hs => h (List.mem_cons_of_mem x hs)

/-- While a path stays below, its stack holds the names that no `..` took away. -/
theorem StaysBelow.left {l : List Text} (h : StaysBelow l) :
    dotDotSegment ∉ stack l ∧ (stack l).length + ups l = downs l := by
  induction l using List.reverseRecOn with
  | nil => exact ⟨List.not_mem_nil, rfl⟩
  | append_singleton l x ih =>
    obtain ⟨hl, hcount⟩ := staysBelow_concat.mp h
    obtain ⟨hdots, hlength⟩ := ih hl
    rw [ups_concat, downs_concat] at hcount ⊢
    rw [stack_concat]
    by_cases hx : x = dotDotSegment
    · rw [if_pos hx, if_pos hx] at hcount ⊢
      subst hx
      -- there is a name to take away, for the path has gone down further than up
      cases hs : stack l with
      | nil => rw [hs] at hlength; simp at hlength; omega
      | cons top s =>
        rw [hs] at hdots hlength
        obtain ⟨htop, hbelow⟩ := List.ne_and_not_mem_of_not_mem_cons hdots
        rw [push_up false s (Ne.symm htop)]
        rw [List.length_cons] at hlength
        exact ⟨hbelow, by omega⟩
    · rw [if_neg hx, if_neg hx, push_name false _ hx, List.length_cons]
      exact ⟨List.not_mem_cons_of_ne_of_not_mem (Ne.symm hx) hdots, by omega⟩

theorem staysBelow_iff {l : List Text} : StaysBelow l ↔ dotDotSegment ∉ stack l := by
  refine ⟨fun h => h.left.1, fun h => ?_⟩
  induction l using List.reverseRecOn with
  | nil => exact staysBelow_nil
  | append_singleton l x ih =>
    rw [stack_concat] at h
    have hl := ih (not_mem_of_push h)
    have hlength := hl.left.2
    refine staysBelow_concat.mpr ⟨hl, ?_⟩
    rw [ups_concat, downs_concat]
    by_cases hx : x = dotDotSegment
    · rw [if_pos hx, if_pos hx]
      rw [hx] at h
      obtain ⟨top, hs, -⟩ := exists_of_push_up h
      rw [hs, List.length_cons] at hlength
      omega
    · rw [if_neg hx, if_neg hx]
      omega

theorem cancels_iff {l : List Text} : Cancels l ↔ stack l = [] := by
  constructor
  · intro h
    have hlength := h.1.left.2
    have hcount := h.2
    exact List.length_eq_zero_iff.mp (by omega)
  · intro h
    have hl : StaysBelow l := staysBelow_iff.mpr (by simp [h])
    have hlength := hl.left.2
    rw [h, List.length_nil] at hlength
    exact ⟨hl, by omega⟩

/-- A path that stays below leaves what stands before it alone. -/
theorem StaysBelow.foldl_push {l : List Text} (h : StaysBelow l) (b : Bool) (s : List Text) :
    l.foldl (push b) s = stack l ++ s := by
  induction l using List.reverseRecOn with
  | nil => rfl
  | append_singleton l x ih =>
    have hl := (staysBelow_concat.mp h).1
    have hdots := h.left.1
    rw [stack_concat] at hdots ⊢
    rw [List.foldl_append, ih hl, List.foldl_cons, List.foldl_nil]
    by_cases hx : x = dotDotSegment
    · subst hx
      obtain ⟨top, hs, htop⟩ := exists_of_push_up hdots
      rw [hs, List.cons_append, push_up b _ htop, push_up false _ htop]
    · rw [push_name b _ hx, push_name false _ hx, List.cons_append]

theorem stack_append_cons {before after : List Text} {x : Text} (hbefore : Cancels before) (hafter : StaysBelow after)
    (hx : x ≠ dotDotSegment) : stack (before ++ x :: after) = stack after ++ [x] := by
  have hnone : before.foldl (push false) [] = [] := cancels_iff.mp hbefore
  rw [stack, List.foldl_append, hnone, List.foldl_cons, push_name false [] hx, hafter.foldl_push false [x]]

/-- Every `..` that is left stands before the names, so there is none where a name is outermost. -/
theorem not_mem_stack {l s : List Text} {x : Text} (hx : x ≠ dotDotSegment) (h : stack l = s ++ [x]) :
    dotDotSegment ∉ stack l := by
  obtain ⟨names, k, hstack, hnames, -⟩ := foldl_push_false l [] 0 List.not_mem_nil
  change stack l = names ++ List.replicate k dotDotSegment at hstack
  cases k with
  | zero =>
    rw [hstack, List.replicate_zero, List.append_nil]
    exact hnames
  | succ k =>
    rw [hstack, List.replicate_succ', ← List.append_assoc] at h
    exact absurd (List.append_inj' h rfl).2 (by simpa using Ne.symm hx)

/-- The outermost name that is left: all before it cancels, and all behind it stays below it. -/
theorem exists_of_stack {l s : List Text} {x : Text} (hx : x ≠ dotDotSegment) (h : stack l = s ++ [x]) :
    ∃ before after, l = before ++ x :: after ∧ Cancels before ∧ StaysBelow after ∧ stack after = s := by
  induction l using List.reverseRecOn generalizing s with
  | nil => simp at h
  | append_singleton l y ih =>
    have hdots := not_mem_stack hx h
    rw [stack_concat] at h hdots
    by_cases hy : y = dotDotSegment
    · subst hy
      obtain ⟨top, hstack, htop⟩ := exists_of_push_up hdots
      rw [h, ← List.cons_append] at hstack
      obtain ⟨before, after, rfl, hbefore, hafter, hleft⟩ := ih hstack
      have hpush : stack (after ++ [dotDotSegment]) = s := by rw [stack_concat, hleft, push_up false s htop]
      have hbelow : dotDotSegment ∉ s := fun hs => hafter.left.1 (by rw [hleft]; exact List.mem_cons_of_mem _ hs)
      exact ⟨before, after ++ [dotDotSegment], by simp, hbefore, staysBelow_iff.mpr (by rwa [hpush]), hpush⟩
    · rw [push_name false _ hy] at h
      cases s with
      | nil =>
        obtain ⟨rfl, hnone⟩ := List.cons.inj h
        exact ⟨l, [], rfl, cancels_iff.mpr hnone, staysBelow_nil, rfl⟩
      | cons z s =>
        obtain ⟨rfl, hrest⟩ := List.cons.inj h
        obtain ⟨before, after, rfl, hbefore, hafter, hleft⟩ := ih hrest
        have hpush : stack (after ++ [y]) = y :: s := by rw [stack_concat, hleft, push_name false s hy]
        have hbelow : dotDotSegment ∉ y :: s :=
          List.not_mem_cons_of_ne_of_not_mem (Ne.symm hy) (by rw [← hleft]; exact hafter.left.1)
        exact ⟨before, after ++ [y], by simp, hbefore, staysBelow_iff.mpr (by rwa [hpush]), hpush⟩

/-! ## Drives -/

/-- One character and a colon. -/
def IsDrive (s : Text) : Prop := ∃ c, s = [c, colon]

instance (s : Text) : Decidable (IsDrive s) :=
  decidable_of_iff (s.length = 2 ∧ s[1]? = some colon) <| by
    match s with
    | [] | [_] | _ :: _ :: _ :: _ => simp [IsDrive]
    | [c, x] => simp [IsDrive]

/-- A drive is left of the path, and something below it. -/
def EndsOnDrive (l : List Text) : Prop :=
  ∃ before drive after, l = before ++ drive :: after ∧ IsDrive drive ∧ Cancels before ∧ StaysBelow after ∧
    ups after < downs after

theorem IsDrive.ne_up {s : Text} (h : IsDrive s) : s ≠ dotDotSegment := by
  obtain ⟨c, rfl⟩ := h
  intro heq
  cases heq

theorem endsOnDrive_iff {l : List Text} :
    EndsOnDrive l ↔ ∃ drive ns, fold false l = drive :: ns ∧ IsDrive drive ∧ ns ≠ [] ∧ dotDotSegment ∉ ns := by
  constructor
  · rintro ⟨before, drive, after, rfl, hdrive, hbefore, hafter, hcount⟩
    have hstack := stack_append_cons hbefore hafter hdrive.ne_up
    obtain ⟨hdots, hlength⟩ := hafter.left
    refine ⟨drive, (stack after).reverse, ?_, hdrive, ?_, fun h => hdots (List.mem_reverse.mp h)⟩
    · rw [fold_eq_reverse_stack, hstack, List.reverse_concat]
    · intro hnil
      rw [List.reverse_eq_nil_iff.mp hnil, List.length_nil] at hlength
      omega
  · rintro ⟨drive, ns, hfold, hdrive, hne, hdots⟩
    have hstack : stack l = ns.reverse ++ [drive] := by
      rw [← List.reverse_reverse (stack l), ← fold_eq_reverse_stack, hfold, List.reverse_cons]
    obtain ⟨before, after, hl, hbefore, hafter, hleft⟩ := exists_of_stack hdrive.ne_up hstack
    refine ⟨before, drive, after, hl, hdrive, hbefore, hafter, ?_⟩
    have hlength := hafter.left.2
    have hpos := List.length_pos_iff.mpr hne
    rw [hleft, List.length_reverse] at hlength
    omega

/-- A path that does not start at the root is rooted, once normalized, if it ends below a drive. -/
theorem isRooted_normalize_iff {p : Text} (hstart : startsAtRoot (forwardSlashes p) = false) :
    isRooted (normalize p) = true ↔ EndsOnDrive (segments (forwardSlashes p)) := by
  by_cases hp : p = []
  · subst hp
    rw [endsOnDrive_iff]
    constructor
    · intro h
      cases h
    · rintro ⟨drive, ns, hfold, -⟩
      cases hfold
  · rw [endsOnDrive_iff]
    have hnames := fun n hn => mem_fold_segments (b := false) (p := p) (n := n) hn
    have hnormal := normalize_unrooted hp hstart
    constructor
    · intro hrooted
      have hnotRoot : normalize p ≠ [slash] := by
        intro hroot
        have hkeep := startsAtRoot_normalize_eq p
        rw [hroot, hstart] at hkeep
        cases hkeep
      obtain ⟨root, ns, hroot, hne, hns, hcut⟩ := isNormal_of_normalize hrooted (normalize_normalize p) hnotRoot
      by_cases hnone : fold false (segments (forwardSlashes p)) = []
      · rw [if_pos hnone] at hnormal
        rw [hnormal] at hrooted
        cases hrooted
      · rw [if_neg hnone] at hnormal
        rw [hnormal, Text.splitOn_join hnone fun n hn => (hnames n hn).1.2] at hcut
        cases hroot with
        | top => exact absurd rfl (hnames [] (by rw [hcut]; exact List.mem_cons_self)).1.1
        | @drive c _ _ => exact ⟨[c, colon], ns, hcut, ⟨c, rfl⟩, hne, fun h => (hns _ h).noDotDot rfl⟩
    · rintro ⟨drive, ns, hfold, ⟨c, rfl⟩, hne, hdots⟩
      rw [hfold, if_neg (List.cons_ne_nil _ _)] at hnormal
      rw [hfold] at hnames
      obtain ⟨⟨⟨-, hslash⟩, -, hbackslash⟩, hbelow⟩ := List.forall_mem_cons.mp hnames
      have hroot : IsRoot [c, colon] :=
        .drive (fun h => hslash (h ▸ List.mem_cons_self)) fun h => hbackslash (h ▸ List.mem_cons_self)
      have hplain : ∀ n ∈ ns, IsPlain n := fun n hn =>
        ⟨(hbelow n hn).1, (hbelow n hn).2.1, fun h => hdots (h ▸ hn), (hbelow n hn).2.2⟩
      refine (IsNormal.normalize_eq ⟨[c, colon], ns, hroot, hne, hplain, ?_⟩).1
      rw [hnormal, Text.splitOn_join (List.cons_ne_nil _ _) fun n hn => (hnames n hn).1.2]

/-! ## Resolved paths -/

/-- The path in full: as it stands if it is rooted, and behind the directory it is read in if not. -/
def fullPath (p directory : Text) : Text :=
  if isRooted p then forwardSlashes p else join (forwardSlashes directory) (forwardSlashes p)

theorem resolve_eq_normalize (p d : Text) : resolve p d = normalize (fullPath p d) := by
  simp only [resolve, fullPath, isRooted_forwardSlashes]

/-- The path starts at the root or ends below a drive. -/
def Arrives (p directory : Text) : Prop :=
  startsAtRoot (fullPath p directory) = true ∨ EndsOnDrive (segments (fullPath p directory))

theorem forwardSlashes_fullPath (p d : Text) : forwardSlashes (fullPath p d) = fullPath p d := by
  unfold fullPath
  split
  · exact forwardSlashes_forwardSlashes p
  · exact forwardSlashes_join d p

theorem isRooted_resolve_iff (p d : Text) : isRooted (resolve p d) = true ↔ Arrives p d := by
  have hslashes := forwardSlashes_fullPath p d
  rw [resolve_eq_normalize, Arrives]
  cases hstart : startsAtRoot (fullPath p d) with
  | true =>
    have hroot : startsAtRoot (normalize (fullPath p d)) = true := startsAtRoot_normalize hstart
    simp [isRooted_of_startsAtRoot hroot]
  | false =>
    rw [isRooted_normalize_iff (by rw [hslashes, hstart]), hslashes]
    simp

/-- A path resolves to one in normal form. If it starts at the root or ends below a drive, it resolves to a rooted one,
which no directory moves; if not, to one that is not rooted, which every directory moves that starts at the root. -/
theorem resolve_fixed (p d : Text) :
    normalize (resolve p d) = resolve p d ∧
      (Arrives p d → isRooted (resolve p d) = true ∧ ∀ d', resolve (resolve p d) d' = resolve p d) ∧
      (¬ Arrives p d → isRooted (resolve p d) = false ∧
        ∀ d', startsAtRoot d' = true → resolve (resolve p d) d' ≠ resolve p d) := by
  have hnormal : normalize (resolve p d) = resolve p d := by
    rw [resolve_eq_normalize, normalize_normalize]
  refine ⟨hnormal, fun h => ?_, fun h => ?_⟩
  · have hrooted := (isRooted_resolve_iff p d).mpr h
    exact ⟨hrooted, fun d' => (resolve_of_isRooted hrooted d').trans hnormal⟩
  · have hrooted : isRooted (resolve p d) = false := Bool.eq_false_iff.mpr fun hr => h ((isRooted_resolve_iff p d).mp hr)
    refine ⟨hrooted, fun d' hd' heq => ?_⟩
    obtain ⟨ns, hns, -⟩ := exists_resolve_eq_absolute hd' fun hdrive : IsDriveRooted (resolve p d) =>
      Bool.false_ne_true (hrooted.symm.trans hdrive.1)
    rw [heq] at hns
    rw [hns, isRooted_of_startsAtRoot (startsAtRoot_absolute ns)] at hrooted
    cases hrooted

/-- A path that climbs out of its drive, and a drive alone, do not resolve to rooted paths. -/
theorem resolve_outOfDrive : isRooted (Text.of "/proj") = true ∧
    resolve (Text.of "C:/../a.ts") (Text.of "/proj") = Text.of "a.ts" ∧ isRooted (Text.of "a.ts") = false ∧
    resolve (Text.of "C:/") (Text.of "/proj") = Text.of "C:" ∧ isRooted (Text.of "C:") = false := by
  decide

end TsProject.Path
