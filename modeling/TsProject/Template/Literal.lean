/-
  TsProject.Template.Literal — template literals made from texts.

  A text is put between backticks and parsed as a script of its own. The literal is
  taken from the tree only if the script is one statement, an expression, and a
  template literal as a whole: so the text cannot have ended the literal early.
-/

import TsProject.Source
import TsProject.Template.Escape
import TsProject.Text.Quoted

namespace TsProject

inductive ShapeError where
  | statementCount
  | notAnExpression
  | notATemplate
  | span (e : SpanError)
  deriving DecidableEq

def ShapeError.message : ShapeError → Text
  | .statementCount => Text.of "Internal error: expected 1 statement"
  | .notAnExpression => Text.of "Internal error: expected expression statement"
  | .notATemplate => Text.of "Internal error: expected template literal expression"
  | .span e => e.message

structure TemplateLiteral where
  node : Node
  /-- The text between the backticks. -/
  raw : Text

namespace TemplateLiteral

inductive ValueError where
  | hasSubstitutions
  | cook (e : Template.CookError)
  deriving DecidableEq

def ValueError.message : ValueError → Text
  | .hasSubstitutions => Text.of "Template literal with substitutions has no constant value"
  | .cook e => e.message

def isTemplate (n : Node) : Bool := n.type == Text.of "template_string"

def substitutionCount (l : TemplateLiteral) : Nat :=
  (l.node.namedChildren.filter fun c => c.type == Text.of "template_substitution").length

/-- The text the literal evaluates to. -/
def value (l : TemplateLiteral) : Except ValueError Text :=
  if l.substitutionCount ≠ 0 then .error .hasSubstitutions else (Template.cook l.raw).mapError .cook

def display (l : TemplateLiteral) : Text := Text.of "TemplateLiteral(" ++ Text.quoted l.raw ++ Text.of ")"

/-- The literal that a file consists of. -/
def ofFile (file : SourceFile) : Except ShapeError TemplateLiteral :=
  match file.root.statements with
  | [statement] =>
    if statement.type != Text.of "expression_statement" then .error .notAnExpression
    else match statement.statements with
      | [] => .error .notATemplate
      | expression :: _ =>
        if isTemplate expression then do
          let text ← (file.textOf expression).mapError .span
          return { node := expression, raw := (text.drop 1).dropLast }
        else .error .notATemplate
  | _ => .error .statementCount

def scriptName : Text := Text.of "__DUMMY__.ts"

/-- The literal with the given text between its backticks. -/
def ofBody (grammar : Grammar) (body : Text) : Except ShapeError TemplateLiteral :=
  ofFile (.parse grammar scriptName (CodePoint.backtick :: (body ++ [CodePoint.backtick])) .js)

end TemplateLiteral

end TsProject
