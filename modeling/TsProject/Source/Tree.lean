/-
  TsProject.Source.Tree — syntax trees.

  A node has a type, a span of bytes in the encoded text, and children. Anonymous
  nodes are the tokens the grammar does not name; a missing node is one the parser
  assumed. A node has an error if it is an error node, is missing or has such a node below it.
-/

import TsProject.Text.Basic

namespace TsProject

inductive Node where
  | mk (type : Text) (startByte endByte : Nat) (named missing : Bool) (children : List Node)

namespace Node

def type : Node → Text
  | mk t _ _ _ _ _ => t

def startByte : Node → Nat
  | mk _ s _ _ _ _ => s

def endByte : Node → Nat
  | mk _ _ e _ _ _ => e

def named : Node → Bool
  | mk _ _ _ n _ _ => n

def missing : Node → Bool
  | mk _ _ _ _ m _ => m

def children : Node → List Node
  | mk _ _ _ _ _ cs => cs

def isError (n : Node) : Bool := n.type == Text.of "ERROR"

mutual

def hasError : Node → Bool
  | mk t _ _ _ missing children => t == Text.of "ERROR" || missing || anyHasError children

def anyHasError : List Node → Bool
  | [] => false
  | n :: ns => hasError n || anyHasError ns

end

mutual

/-- How many nodes a tree has. -/
def size : Node → Nat
  | mk _ _ _ _ _ children => sizes children + 1

def sizes : List Node → Nat
  | [] => 0
  | n :: ns => size n + sizes ns

end

theorem sizes_children_lt (n : Node) : sizes n.children < n.size := by
  cases n with
  | mk type startByte endByte named missing cs => exact Nat.lt_succ_self (sizes cs)

theorem sizes_lt_cons (n : Node) (ns : List Node) : sizes ns < sizes (n :: ns) := by
  have := n.sizes_children_lt
  simp only [sizes]
  omega

theorem sizes_filter_le (p : Node → Bool) (ns : List Node) : sizes (ns.filter p) ≤ sizes ns := by
  induction ns with
  | nil => exact Nat.le_refl _
  | cons n ns ih =>
    rw [List.filter_cons]
    split
    · simp only [sizes]
      omega
    · simp only [sizes]
      omega

theorem size_le_sizes {n : Node} {ns : List Node} (h : n ∈ ns) : n.size ≤ sizes ns := by
  induction ns with
  | nil => cases h
  | cons m ns ih =>
    simp only [sizes]
    rcases List.mem_cons.mp h with rfl | h
    · omega
    · have := ih h
      omega

def namedChildren (n : Node) : List Node := n.children.filter (·.named)

/-- The named children that are no comments. -/
def statements (n : Node) : List Node := n.namedChildren.filter fun c => c.type != Text.of "comment"

/-- The node reached from this one by child indices. -/
def at? (n : Node) : List Nat → Option Node
  | [] => some n
  | i :: path => (n.children[i]?).bind (·.at? path)

end Node

end TsProject
