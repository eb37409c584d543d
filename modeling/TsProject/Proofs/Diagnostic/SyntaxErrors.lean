/-
  TsProject.Proofs.Diagnostic.SyntaxErrors — the syntax errors of a file are its outermost ones.

  The walk keeps a stack of nodes. The children of a node go on it from the last one to the
  first one, and only those below which there is an error, so what is left to report is at any
  time what is outermost in the nodes of the stack, from the top down.

  A node is known by its path from the root, the indices of the children on the way. Pre-order
  is the lexicographic order of paths: a node comes before those below it, and these come
  before what is below a later sibling.

  - `mem_outermost_iff` / `pairwise_outermost`: the outermost errors of a tree, in pre-order.
  - `hasError_iff`: the nodes at or below which there is an error.
  - `collectErrors_ok`: a run of the walk reports those of the nodes on the stack.
  - `parseDiagnostics_outermost`: the diagnostics of a file, one for each path.
-/

import TsProject.Proofs.Diagnostic.OfNode
import Mathlib.Data.List.Forall2

namespace TsProject

open CodePoint Text Text.Utf8

namespace Node

variable {n m c : Node} {ns : List Node} {p : List Nat} {i : Nat}

/-! ## Outermost errors -/

theorem induction {P : Node → Prop} (step : ∀ n, (∀ c ∈ n.children, P c) → P n) (n : Node) : P n :=
  step n fun c _ => induction step c
termination_by n.size
decreasing_by exact Nat.lt_of_le_of_lt (size_le_sizes ‹_›) n.sizes_children_lt

/-- An error node or a missing one. -/
def isFaulty (n : Node) : Bool := n.missing || n.isError

mutual

/-- The faulty nodes with no faulty node above them, each with its path, in pre-order. -/
def outermost : Node → List (List Nat × Node)
  | mk type startByte endByte named missing children =>
    let node := mk type startByte endByte named missing children
    if node.isFaulty then [([], node)] else outermostFrom 0 children

def outermostFrom (i : Nat) : List Node → List (List Nat × Node)
  | [] => []
  | n :: ns => (outermost n).map (fun x => (i :: x.1, x.2)) ++ outermostFrom (i + 1) ns

end

theorem outermost_eq (n : Node) : n.outermost = if n.isFaulty then [([], n)] else outermostFrom 0 n.children := by
  cases n with
  | mk type startByte endByte named missing children => simp only [outermost, Node.children]

theorem outermost_of_faulty (h : n.isFaulty = true) : n.outermost = [([], n)] := by rw [outermost_eq, if_pos h]

theorem outermost_of_not_faulty (h : n.isFaulty = false) : n.outermost = outermostFrom 0 n.children := by
  rw [outermost_eq, if_neg (Bool.eq_false_iff.mp h)]

theorem mem_outermostFrom_iff {x : List Nat × Node} :
    x ∈ outermostFrom i ns ↔ ∃ k c y, ns[k]? = some c ∧ y ∈ outermost c ∧ x = ((i + k) :: y.1, y.2) := by
  induction ns generalizing i with
  | nil => simp [outermostFrom]
  | cons n ns ih =>
    rw [outermostFrom, List.mem_append, List.mem_map, ih]
    constructor
    · rintro (⟨y, hy, rfl⟩ | ⟨k, c, y, hk, hy, rfl⟩)
      · exact ⟨0, n, y, rfl, hy, rfl⟩
      · exact ⟨k + 1, c, y, hk, hy, by rw [Nat.add_right_comm, Nat.add_assoc]⟩
    · rintro ⟨k, c, y, hk, hy, rfl⟩
      cases k with
      | zero =>
        obtain rfl := Option.some.inj hk
        exact Or.inl ⟨y, hy, rfl⟩
      | succ k => exact Or.inr ⟨k, c, y, hk, hy, by rw [Nat.add_right_comm, Nat.add_assoc]⟩

/-- Pre-order of the nodes at two paths. -/
def Precedes (p q : List Nat) : Prop := List.Lex (· < ·) p q

theorem pairwise_outermost (n : Node) : n.outermost.Pairwise fun x y => Precedes x.1 y.1 := by
  induction n using Node.induction with
  | step n ih =>
    cases hfaulty : n.isFaulty with
    | true =>
      rw [outermost_of_faulty hfaulty]
      exact List.pairwise_singleton _ _
    | false =>
      rw [outermost_of_not_faulty hfaulty]
      -- the children one after the other, counted from any index
      generalize n.children = cs at ih
      generalize 0 = i
      induction cs generalizing i with
      | nil => exact List.Pairwise.nil
      | cons c cs ihcs =>
        obtain ⟨hc, hcs⟩ := List.forall_mem_cons.mp ih
        rw [outermostFrom, List.pairwise_append, List.pairwise_map]
        refine ⟨hc.imp fun h => .cons h, ihcs hcs (i + 1), ?_⟩
        intro x hx y hy
        obtain ⟨x', -, rfl⟩ := List.mem_map.mp hx
        obtain ⟨k, c', y', -, -, rfl⟩ := mem_outermostFrom_iff.mp hy
        exact .rel (by omega)

/-- The path leads to a faulty node, and there is none above it. -/
structure IsOutermost (root : Node) (p : List Nat) (n : Node) : Prop where
  leads : root.at? p = some n
  faulty : n.isFaulty = true
  first : ∀ q m, q <+: p → q ≠ p → root.at? q = some m → m.isFaulty = false

theorem at?_cons (n : Node) (i : Nat) (p : List Nat) : n.at? (i :: p) = (n.children[i]?).bind (·.at? p) := rfl

/-- Below a node without fault an error is outermost as it is below the child. -/
theorem isOutermost_cons_iff (hn : n.isFaulty = false) :
    IsOutermost n (i :: p) m ↔ ∃ c, n.children[i]? = some c ∧ IsOutermost c p m := by
  constructor
  · rintro ⟨hleads, hfaulty, hfirst⟩
    obtain ⟨c, hc, hleads⟩ := Option.bind_eq_some_iff.mp hleads
    refine ⟨c, hc, hleads, hfaulty, fun q m hq hne hm => hfirst (i :: q) m ?_ ?_ ?_⟩
    · exact List.cons_prefix_cons.mpr ⟨rfl, hq⟩
    · simpa using hne
    · rw [at?_cons, hc]
      exact hm
  · rintro ⟨c, hc, hleads, hfaulty, hfirst⟩
    refine ⟨?_, hfaulty, fun q m hq hne hm => ?_⟩
    · rw [at?_cons, hc]
      exact hleads
    · cases q with
      | nil =>
        obtain rfl := Option.some.inj hm
        exact hn
      | cons j q =>
        obtain ⟨rfl, hbelow⟩ := List.cons_prefix_cons.mp hq
        rw [at?_cons, hc] at hm
        exact hfirst q m hbelow (by simpa using hne) hm

theorem mem_outermost_iff : (p, m) ∈ n.outermost ↔ IsOutermost n p m := by
  induction n using Node.induction generalizing p m with
  | step n ih =>
    cases hfaulty : n.isFaulty with
    | true =>
      rw [outermost_of_faulty hfaulty, List.mem_singleton, Prod.mk.injEq]
      constructor
      · rintro ⟨rfl, rfl⟩
        exact ⟨rfl, hfaulty, fun q _ hq hne _ => absurd (List.prefix_nil.mp hq) hne⟩
      · rintro ⟨hleads, -, hfirst⟩
        cases p with
        | nil => exact ⟨rfl, (Option.some.inj hleads).symm⟩
        | cons i p =>
          have hnone := hfirst [] n List.nil_prefix (List.cons_ne_nil i p).symm rfl
          rw [hfaulty] at hnone
          cases hnone
    | false =>
      rw [outermost_of_not_faulty hfaulty, mem_outermostFrom_iff]
      cases p with
      | nil =>
        constructor
        · rintro ⟨k, c, y, -, -, hy⟩
          cases hy
        · rintro ⟨hleads, hm, -⟩
          obtain rfl := Option.some.inj hleads
          rw [hfaulty] at hm
          cases hm
      | cons i p =>
        rw [isOutermost_cons_iff hfaulty]
        constructor
        · rintro ⟨k, c, ⟨q, m'⟩, hc, hy, hx⟩
          simp only [Nat.zero_add, Prod.mk.injEq, List.cons.injEq] at hx
          obtain ⟨⟨rfl, rfl⟩, rfl⟩ := hx
          exact ⟨c, hc, (ih c (List.mem_of_getElem? hc)).mp hy⟩
        · rintro ⟨c, hc, hm⟩
          exact ⟨i, c, (p, m), hc, (ih c (List.mem_of_getElem? hc)).mpr hm, by rw [Nat.zero_add]⟩

/-! ## The nodes that are reported -/

/-- The outermost faulty nodes, in pre-order. -/
def errors (n : Node) : List Node := n.outermost.map (·.2)

theorem map_outermostFrom (i : Nat) (ns : List Node) : (outermostFrom i ns).map (·.2) = ns.flatMap errors := by
  induction ns generalizing i with
  | nil => rfl
  | cons n ns ih =>
    rw [outermostFrom, List.map_append, ih, List.map_map, List.flatMap_cons]
    rfl

theorem errors_of_faulty (h : n.isFaulty = true) : n.errors = [n] := by
  rw [errors, outermost_of_faulty h]
  rfl

theorem errors_of_not_faulty (h : n.isFaulty = false) : n.errors = n.children.flatMap errors := by
  rw [errors, outermost_of_not_faulty h, map_outermostFrom]

theorem anyHasError_eq (ns : List Node) : anyHasError ns = ns.any hasError := by
  induction ns with
  | nil => rfl
  | cons n ns ih => rw [anyHasError, ih, List.any_cons]

theorem hasError_eq (n : Node) : n.hasError = (n.isFaulty || n.children.any hasError) := by
  cases n with
  | mk type startByte endByte named missing children =>
    rw [hasError, anyHasError_eq, Bool.or_comm (type == _)]
    rfl

/-- An error is marked at the faulty nodes and above them. -/
theorem hasError_iff : n.hasError = true ↔ ∃ p m, n.at? p = some m ∧ m.isFaulty = true := by
  induction n using Node.induction with
  | step n ih =>
    rw [hasError_eq, Bool.or_eq_true, List.any_eq_true]
    constructor
    · rintro (hfaulty | ⟨c, hc, herror⟩)
      · exact ⟨[], n, rfl, hfaulty⟩
      · obtain ⟨p, m, hm, hfaulty⟩ := (ih c hc).mp herror
        obtain ⟨i, hi⟩ := List.mem_iff_getElem?.mp hc
        exact ⟨i :: p, m, by rw [at?_cons, hi]; exact hm, hfaulty⟩
    · rintro ⟨p, m, hm, hfaulty⟩
      cases p with
      | nil =>
        obtain rfl := Option.some.inj hm
        exact Or.inl hfaulty
      | cons i p =>
        obtain ⟨c, hc, hm⟩ := Option.bind_eq_some_iff.mp hm
        exact Or.inr ⟨c, List.mem_of_getElem? hc, (ih c (List.mem_of_getElem? hc)).mpr ⟨p, m, hm, hfaulty⟩⟩

theorem errors_eq_nil (h : n.hasError = false) : n.errors = [] := by
  rw [errors, List.map_eq_nil_iff, List.eq_nil_iff_forall_not_mem]
  rintro ⟨p, m⟩ hm
  have houter := mem_outermost_iff.mp hm
  rw [hasError_iff.mpr ⟨p, m, houter.leads, houter.faulty⟩] at h
  cases h

/-- The children that are pushed have all the errors there are below a node. -/
theorem flatMap_errors_filter (ns : List Node) :
    (ns.filter fun c => c.hasError || c.missing).flatMap errors = ns.flatMap errors := by
  induction ns with
  | nil => rfl
  | cons n ns ih =>
    rw [List.filter_cons, List.flatMap_cons]
    split
    · rw [List.flatMap_cons, ih]
    · rename_i hnone
      have hn : n.hasError = false := (Bool.or_eq_false_iff.mp (Bool.eq_false_iff.mpr hnone)).1
      rw [ih, errors_eq_nil hn, List.nil_append]

end Node

/-! ## Where the nodes of a tree lie -/

/-- Every node starts and ends between code points, and its children lie inside it, one after the other. -/
inductive LaidOut (f : SourceFile) : Node → Prop
  | mk {n : Node} : IsBoundary f.bytes n.startByte → IsBoundary f.bytes n.endByte → n.startByte ≤ n.endByte →
      (∀ c ∈ n.children, n.startByte ≤ c.startByte ∧ c.endByte ≤ n.endByte) →
      (n.children.Pairwise fun a b => a.endByte ≤ b.startByte) → (∀ c ∈ n.children, LaidOut f c) → LaidOut f n

variable {f : SourceFile} {n : Node}

theorem LaidOut.child (h : LaidOut f n) {c : Node} (hc : c ∈ n.children) : LaidOut f c := by
  cases h with
  | mk _ _ _ _ _ hchildren => exact hchildren c hc

theorem LaidOut.offsets (hf : ∀ c ∈ f.text, c < limit) (h : LaidOut f n) :
    (∃ i : Nat, StandsAt f n.startByte i ∧ f.startOf n = .ok i) ∧ ∃ j : Nat, StandsAt f n.endByte j ∧ f.endOf n = .ok j := by
  have hoffset : ∀ b, IsBoundary f.bytes b → ∃ i : Nat, StandsAt f b i ∧ f.charOffset b = .ok i := by
    intro b hb
    obtain ⟨i, hi, heq⟩ := isBoundary_encode_iff.mp hb
    refine ⟨i, ⟨hi, ?_⟩, ?_⟩
    · rw [Nat.min_eq_left hb.le, heq]
    · rw [heq, SourceFile.charOffset_boundary hf hi]
  cases h with
  | mk hstart hend => exact ⟨hoffset _ hstart, hoffset _ hend⟩

/-- The errors of a node lie inside it, one after the other. -/
theorem LaidOut.errors (h : LaidOut f n) :
    (∀ m ∈ n.errors, n.startByte ≤ m.startByte ∧ m.startByte ≤ m.endByte ∧ m.endByte ≤ n.endByte) ∧
      n.errors.Pairwise fun a b => a.endByte ≤ b.startByte := by
  induction h with
  | @mk n hstart hend hspan hinside hapart _ ih =>
    cases hfaulty : n.isFaulty with
    | true =>
      rw [Node.errors_of_faulty hfaulty]
      exact ⟨List.forall_mem_singleton.mpr ⟨Nat.le_refl _, hspan, Nat.le_refl _⟩, List.pairwise_singleton _ _⟩
    | false =>
      rw [Node.errors_of_not_faulty hfaulty]
      constructor
      · intro m hm
        obtain ⟨c, hc, hm⟩ := List.mem_flatMap.mp hm
        obtain ⟨hleft, hright⟩ := hinside c hc
        obtain ⟨hbehind, hm', hbefore⟩ := (ih c hc).1 m hm
        omega
      · refine List.pairwise_flatMap.mpr ⟨fun c hc => (ih c hc).2, ?_⟩
        refine hapart.imp_of_mem fun {a b} ha hb hab x hx y hy => ?_
        have hx := (ih a ha).1 x hx
        have hy := (ih b hb).1 y hy
        omega

namespace Diagnostic

variable {found : List Diagnostic} {stack : List Node}

/-! ## The walk -/

/-- What is reported of a faulty node: its type is expected where it is missing, or nothing is expected over its span. -/
def Reports (f : SourceFile) (n : Node) (d : Diagnostic) : Prop :=
  ∃ i j : Nat, StandsAt f n.startByte i ∧ StandsAt f n.endByte j ∧ d.file = some f ∧ d.start = some i ∧
    if n.missing then d.code = 1005 ∧ d.length = some 0 else d.code = 1012 ∧ d.length = some ((j : Int) - i)

theorem collectErrors_missing {x : Int} (hstart : f.startOf n = .ok x) (h : n.missing = true) :
    collectErrors f found (n :: stack) = collectErrors f (found ++ [missingDiagnostic f x n.type]) stack := by
  rw [collectErrors, hstart]
  simp only [h, if_true, bind, Except.bind]

theorem collectErrors_error {x y : Int} (hstart : f.startOf n = .ok x) (hend : f.endOf n = .ok y) (hmissing : n.missing = false)
    (h : n.isError = true) :
    collectErrors f found (n :: stack) = collectErrors f (found ++ [errorDiagnostic f x (y - x)]) stack := by
  rw [collectErrors, SourceFile.widthOf, hstart, hend]
  simp only [hmissing, h, if_true, Bool.false_eq_true, if_false, bind, Except.bind, pure, Except.pure]

theorem collectErrors_below {x : Int} (hstart : f.startOf n = .ok x) (h : n.isFaulty = false) :
    collectErrors f found (n :: stack) = collectErrors f found (pushErrors n stack) := by
  obtain ⟨hmissing, herror⟩ := Bool.or_eq_false_iff.mp h
  rw [collectErrors, hstart]
  simp only [hmissing, herror, Bool.false_eq_true, if_false, bind, Except.bind]

/-- A walk reports the outermost errors of the nodes on the stack, from the top down, behind what has been found. -/
theorem collectErrors_ok (hf : ∀ c ∈ f.text, c < limit) (found : List Diagnostic) (hstack : ∀ n ∈ stack, LaidOut f n) :
    ∃ ds, collectErrors f found stack = .ok (found ++ ds) ∧ List.Forall₂ (Reports f) (stack.flatMap Node.errors) ds := by
  induction hsize : Node.sizes stack using Nat.strongRecOn generalizing stack found with
  | ind size ih =>
    cases stack with
    | nil => exact ⟨[], by rw [collectErrors, List.append_nil], .nil⟩
    | cons n stack =>
      obtain ⟨hn, hrest⟩ := List.forall_mem_cons.mp hstack
      obtain ⟨⟨i, hi, hstart⟩, j, hj, hend⟩ := hn.offsets hf
      have hpopped : Node.sizes stack < size := hsize ▸ Node.sizes_lt_cons n stack
      rw [List.flatMap_cons]
      cases hmissing : n.missing with
      | true =>
        have hfaulty : n.isFaulty = true := Bool.or_eq_true_iff.mpr (Or.inl hmissing)
        obtain ⟨ds, hds, hreports⟩ := ih _ hpopped (found ++ [missingDiagnostic f i n.type]) hrest rfl
        refine ⟨missingDiagnostic f i n.type :: ds, ?_, ?_⟩
        · rw [collectErrors_missing hstart hmissing, hds, List.append_assoc, List.singleton_append]
        · rw [Node.errors_of_faulty hfaulty, List.singleton_append]
          exact .cons ⟨i, j, hi, hj, rfl, rfl, by rw [if_pos hmissing]; exact ⟨rfl, rfl⟩⟩ hreports
      | false =>
        have hpresent : ¬ n.missing = true := Bool.eq_false_iff.mp hmissing
        cases herror : n.isError with
        | true =>
          have hfaulty : n.isFaulty = true := Bool.or_eq_true_iff.mpr (Or.inr herror)
          obtain ⟨ds, hds, hreports⟩ := ih _ hpopped (found ++ [errorDiagnostic f i (j - i)]) hrest rfl
          refine ⟨errorDiagnostic f i (j - i) :: ds, ?_, ?_⟩
          · rw [collectErrors_error hstart hend hmissing herror, hds, List.append_assoc, List.singleton_append]
          · rw [Node.errors_of_faulty hfaulty, List.singleton_append]
            exact .cons ⟨i, j, hi, hj, rfl, rfl, by rw [if_neg hpresent]; exact ⟨rfl, rfl⟩⟩ hreports
        | false =>
          have hfaulty : n.isFaulty = false := Bool.or_eq_false_iff.mpr ⟨hmissing, herror⟩
          have hpushed : ∀ m ∈ pushErrors n stack, LaidOut f m := by
            rw [pushErrors_eq]
            exact List.forall_mem_append.mpr ⟨fun m hm => hn.child (List.mem_of_mem_filter hm), hrest⟩
          obtain ⟨ds, hds, hreports⟩ := ih _ (hsize ▸ sizes_pushErrors_lt n stack) found hpushed rfl
          refine ⟨ds, (collectErrors_below hstart hfaulty).trans hds, ?_⟩
          rw [pushErrors_eq, List.flatMap_append, Node.flatMap_errors_filter] at hreports
          rw [Node.errors_of_not_faulty hfaulty]
          exact hreports

/-- What is reported of nodes in order starts in order. -/
theorem pairwise_start {ns : List Node} {ds : List Diagnostic} (horder : ns.Pairwise fun a b => a.startByte ≤ b.startByte)
    (h : List.Forall₂ (Reports f) ns ds) : ds.Pairwise fun d e => ∃ i j : Nat, d.start = some (i : Int) ∧ e.start = some (j : Int) ∧ i ≤ j := by
  obtain ⟨hlength, hreports⟩ := List.forall₂_iff_get.mp h
  rw [List.pairwise_iff_getElem] at horder ⊢
  intro k l hk hl hkl
  obtain ⟨i, -, hi, -, -, hstart, -⟩ := hreports k (by omega) hk
  obtain ⟨j, -, hj, -, -, hstart', -⟩ := hreports l (by omega) hl
  exact ⟨i, j, hstart, hstart', hi.le hj (horder k l (by omega) (by omega) hkl)⟩

/-- The diagnostics of a file are one for each outermost error of its tree, in pre-order, and their starts are in order. -/
theorem parseDiagnostics_outermost (hf : ∀ c ∈ f.text, c < limit) (hroot : LaidOut f f.root) :
    ∃ paths ds, parseDiagnostics f = .ok ds ∧ (∀ p, p ∈ paths ↔ ∃ n, f.root.IsOutermost p n) ∧
      paths.Pairwise Node.Precedes ∧
      List.Forall₂ (fun p d => ∃ n, f.root.IsOutermost p n ∧ Reports f n d) paths ds ∧
      ds.Pairwise fun d e => ∃ i j : Nat, d.start = some (i : Int) ∧ e.start = some (j : Int) ∧ i ≤ j := by
  obtain ⟨ds, hds, hreports⟩ : ∃ ds, parseDiagnostics f = .ok ds ∧ List.Forall₂ (Reports f) f.root.errors ds := by
    unfold parseDiagnostics
    cases hmarked : f.root.hasError with
    | true =>
      obtain ⟨ds, hds, hreports⟩ := collectErrors_ok hf [] (List.forall_mem_singleton.mpr hroot)
      rw [List.flatMap_cons, List.flatMap_nil, List.append_nil] at hreports
      exact ⟨ds, hds, hreports⟩
    | false =>
      rw [Node.errors_eq_nil hmarked]
      exact ⟨[], rfl, .nil⟩
  refine ⟨f.root.outermost.map (·.1), ds, hds, fun p => ?_, ?_, ?_, ?_⟩
  · simp only [List.mem_map, Prod.exists, exists_and_right, exists_eq_right, Node.mem_outermost_iff]
  · exact List.pairwise_map.mpr f.root.pairwise_outermost
  · rw [Node.errors, List.forall₂_map_left_iff] at hreports
    rw [List.forall₂_map_left_iff]
    obtain ⟨hlength, hreports⟩ := List.forall₂_iff_zip.mp hreports
    refine List.forall₂_iff_zip.mpr ⟨hlength, fun {x d} hx => ?_⟩
    exact ⟨x.2, Node.mem_outermost_iff.mp (List.of_mem_zip hx).1, hreports hx⟩
  · obtain ⟨hinside, hapart⟩ := hroot.errors
    refine pairwise_start (hapart.imp_of_mem fun {a b} ha _ hab => ?_) hreports
    exact Nat.le_trans (hinside a ha).2.1 hab

/-- Behind a letter of two bytes an error, with a missing name inside it that is not reported, and a missing name that is. -/
theorem parseDiagnostics_outermost_nested :
    let inner : Node := .mk (Text.of "identifier") 3 3 true true []
    let wrong : Node := .mk (Text.of "ERROR") 2 3 true false [inner]
    let absent : Node := .mk (Text.of "identifier") 3 3 true true []
    let f : SourceFile :=
      { name := Text.of "a.ts", text := Text.of "\u00E9=;", kind := .ts
        root := .mk (Text.of "program") 0 4 true false [.mk (Text.of "identifier") 0 2 true false [], wrong, absent] }
    (∀ c ∈ f.text, c < limit) ∧ LaidOut f f.root ∧
      (f.root.IsOutermost [1] wrong ∧ f.root.IsOutermost [2] absent ∧ ¬ ∃ n, f.root.IsOutermost [1, 0] n) ∧
      ∃ paths ds, parseDiagnostics f = .ok ds ∧ ([1] ∈ paths ∧ [2] ∈ paths ∧ [1, 0] ∉ paths) ∧
        paths.Pairwise Node.Precedes ∧
        List.Forall₂ (fun p d => ∃ n, f.root.IsOutermost p n ∧ Reports f n d) paths ds ∧
        ds.Pairwise fun d e => ∃ i j : Nat, d.start = some (i : Int) ∧ e.start = some (j : Int) ∧ i ≤ j := by
  intro inner wrong absent f
  have hf : ∀ c ∈ f.text, c < limit := by decide
  have hleaf : ∀ type s e named missing, IsBoundary f.bytes s → IsBoundary f.bytes e → s ≤ e →
      LaidOut f (.mk type s e named missing []) :=
    fun _ _ _ _ _ hs he hse => .mk hs he hse (List.forall_mem_nil _) .nil (List.forall_mem_nil _)
  have hinner : LaidOut f inner := hleaf _ _ _ _ _ (by decide) (by decide) (by decide)
  have hwrong : LaidOut f wrong :=
    .mk (by decide) (by decide) (by decide) (by decide) (by decide) (List.forall_mem_singleton.mpr hinner)
  have hroot : LaidOut f f.root := by
    refine .mk (by decide) (by decide) (by decide) (by decide) (by decide) ?_
    refine List.forall_mem_cons.mpr ⟨hleaf _ _ _ _ _ (by decide) (by decide) (by decide), ?_⟩
    exact List.forall_mem_cons.mpr ⟨hwrong, List.forall_mem_singleton.mpr hinner⟩
  have hfirst : f.root.IsOutermost [1] wrong := Node.mem_outermost_iff.mp (.head _)
  have hsecond : f.root.IsOutermost [2] absent := Node.mem_outermost_iff.mp (.tail _ (.head _))
  have hbelow : ¬ ∃ n, f.root.IsOutermost [1, 0] n := by
    rintro ⟨n, hn⟩
    cases hn.first [1] wrong ⟨[0], rfl⟩ (by decide) rfl
  obtain ⟨paths, ds, hds, hpaths, hrest⟩ := parseDiagnostics_outermost hf hroot
  exact ⟨hf, hroot, ⟨hfirst, hsecond, hbelow⟩, paths, ds, hds,
    ⟨(hpaths _).mpr ⟨_, hfirst⟩, (hpaths _).mpr ⟨_, hsecond⟩, fun h => hbelow ((hpaths _).mp h)⟩, hrest⟩

end Diagnostic

end TsProject
