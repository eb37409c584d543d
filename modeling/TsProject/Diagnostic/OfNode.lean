/-
  TsProject.Diagnostic.OfNode — diagnostics about nodes of a syntax tree.

  `atNode` reports an error over exactly the span of a node, and refuses a node whose
  span does not lie in the file. `parseDiagnostics` lists the syntax errors of a file
  in the order of the text: error nodes and missing nodes, without looking below them.
  It walks the tree with a stack, and only where there are errors.
-/

import TsProject.Diagnostic.Catalog

namespace TsProject.Diagnostic

/-- The code under which the localization generator reports. -/
def generatorCode : Int := 2324

def generatorName : Text := Text.of "localization-generate"

/-- An error over the span of a node. -/
def atNode (file : SourceFile) (node : Node) (message : Text) (related : Option (List Location)) :
    Except SpanError Diagnostic := do
  let start ← file.startOf node
  let length ← file.widthOf node
  if start < 0 ∨ length < 0 ∨ file.text.length < start + length then
    throw (.outside start (start + length) file.name file.text.length)
  return {
    file := some file, start := some start, length := some length, message := .plain message, category := .error
    code := generatorCode, source := some generatorName, related }

def missingDiagnostic (file : SourceFile) (start : Int) (type : Text) : Diagnostic :=
  inFile Catalog.expected file start 0 ((Catalog.expected.fill [type]).getD [])

def errorDiagnostic (file : SourceFile) (start length : Int) : Diagnostic :=
  inFile Catalog.unexpectedToken file start length ((Catalog.unexpectedToken.fill []).getD [])

/-- Nodes put on a stack one after the other: the last one is on top. -/
def push (nodes stack : List Node) : List Node := nodes.foldl (fun stack n => n :: stack) stack

theorem push_eq (nodes stack : List Node) : push nodes stack = nodes.reverse ++ stack := by
  induction nodes generalizing stack with
  | nil => rfl
  | cons n ns ih =>
    change push ns (n :: stack) = _
    rw [ih, List.reverse_cons, List.append_assoc]
    rfl

/-- The children that have or are an error, put on a stack with the first one on top. -/
def pushErrors (node : Node) (stack : List Node) : List Node :=
  push (node.children.reverse.filter fun c => c.hasError || c.missing) stack

theorem pushErrors_eq (node : Node) (stack : List Node) :
    pushErrors node stack = node.children.filter (fun c => c.hasError || c.missing) ++ stack := by
  rw [pushErrors, push_eq, List.filter_reverse, List.reverse_reverse]

theorem sizes_pushErrors_lt (node : Node) (stack : List Node) :
    Node.sizes (pushErrors node stack) < Node.sizes (node :: stack) := by
  have happend : ∀ ns, Node.sizes (ns ++ stack) = Node.sizes ns + Node.sizes stack := by
    intro ns
    induction ns with
    | nil => simp [Node.sizes]
    | cons n ns ih => simp [Node.sizes, ih, Nat.add_assoc]
  have hchildren := node.sizes_children_lt
  have hfilter := Node.sizes_filter_le (fun c => c.hasError || c.missing) node.children
  rw [pushErrors_eq, happend, Node.sizes]
  omega

/-- Behind what has been found, the errors of the nodes on a stack. Nothing is looked at below an error node or a missing one. -/
def collectErrors (file : SourceFile) (found : List Diagnostic) : List Node → Except SpanError (List Diagnostic)
  | [] => .ok found
  | node :: stack => do
    let start ← file.startOf node
    if node.missing then collectErrors file (found ++ [missingDiagnostic file start node.type]) stack
    else if node.isError then
      let width ← file.widthOf node
      collectErrors file (found ++ [errorDiagnostic file start width]) stack
    else collectErrors file found (pushErrors node stack)
termination_by stack => Node.sizes stack
decreasing_by
  · exact Node.sizes_lt_cons node stack
  · exact Node.sizes_lt_cons node stack
  · exact sizes_pushErrors_lt node stack

def parseDiagnostics (file : SourceFile) : Except SpanError (List Diagnostic) :=
  if file.root.hasError then collectErrors file [] [file.root] else .ok []

end TsProject.Diagnostic
