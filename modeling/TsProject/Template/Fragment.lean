/-
  TsProject.Template.Fragment — the shape of a script that starts with a template literal.

  A reader for as much of the script syntax as it takes to tell whether a script is one
  statement, and that one a template literal: templates with substitutions, strings,
  comments, brackets, and where a statement ends. The tree it builds has the template
  with its substitutions, or the expression the template is a part of, and everything
  behind the first statement as one node. A template that is never closed makes the
  whole script an error.

  (1) Which construct a character stands in. (2) Tokens. (3) Where the first statement
  ends. (4) The tree.
-/

import TsProject.Source
import TsProject.Text.Blank
import TsProject.Text.Letter

namespace TsProject.Template

open CodePoint Text

/-! ## (1) Which construct a character stands in -/

inductive Mode where
  /-- Between the brackets of an expression, or at the top. -/
  | code
  | template
  | string (mark : CodePoint)
  | lineComment
  | blockComment
  /-- Behind a backslash in a template or a string. -/
  | escaped
  /-- Before the brace of a substitution. -/
  | beforeBrace
  /-- Before the asterisk that opens a comment. -/
  | beforeAsterisk
  /-- Before the slash that closes a comment. -/
  | beforeSlash
  deriving DecidableEq

def isOpening (c : CodePoint) : Bool := (Text.of "([\x7b").contains c

def isClosing (c : CodePoint) : Bool := (Text.of ")]\x7d").contains c

def inCode (modes : List Mode) (c : CodePoint) (next : Option CodePoint) : List Mode :=
  if c = backtick then .template :: modes
  else if c = quote ∨ c = apostrophe then .string c :: modes
  else if c = slash ∧ next = some slash then .lineComment :: modes
  else if c = slash ∧ next = some asterisk then .beforeAsterisk :: modes
  else if isOpening c then .code :: modes
  else if isClosing c then (match modes with
    | _ :: below :: outer => below :: outer
    | modes => modes)
  else modes

/-- The constructs behind a character, given those it stands in, the innermost first. A character that
opens a construct stands outside it, one that closes it inside. -/
def step (modes : List Mode) (c : CodePoint) (next : Option CodePoint) : List Mode :=
  match modes with
  | .escaped :: outer => outer
  | .beforeSlash :: outer => outer
  | .beforeBrace :: outer => .code :: outer
  | .beforeAsterisk :: outer => .blockComment :: outer
  | .lineComment :: outer => if isLineBreak c then outer else modes
  | .blockComment :: outer => if c = asterisk ∧ next = some slash then .beforeSlash :: outer else modes
  | .string mark :: outer => if c = backslash then .escaped :: modes else if c = mark then outer else modes
  | .template :: outer =>
    if c = backslash then .escaped :: modes
    else if c = backtick then outer
    else if c = dollar ∧ next = some braceOpen then .beforeBrace :: modes
    else modes
  | _ => inCode modes c next

/-- A character with the constructs it stands in. -/
structure Placed where
  point : CodePoint
  modes : List Mode

/-- Places the characters of a text that starts within the given constructs; also those at its end. -/
def place (modes : List Mode) : Text → List Placed × List Mode
  | [] => ([], modes)
  | c :: s =>
    let (placed, final) := place (step modes c s.head?) s
    (⟨c, modes⟩ :: placed, final)

def isTop (p : Placed) : Bool := p.modes == [.code]

/-! ## (2) Tokens -/

inductive Token where
  | lineBreak
  | word (w : Text)
  /-- Something in brackets or quotes, by what opens it. -/
  | group (opening : CodePoint)
  | mark (c : CodePoint)
  deriving DecidableEq

def isCommentMode : Mode → Bool
  | .lineComment => true
  | .blockComment => true
  | .beforeAsterisk => true
  | .beforeSlash => true
  | _ => false

def inComment (p : Placed) : Bool := p.modes.head?.any isCommentMode

def isWordPoint (c : CodePoint) : Bool :=
  isAsciiLetter c || isDigit c || c == underscore || c == dollar || (!isAscii c && (Text.isLetter c || Text.isMark c))

/-- A token put before others; the characters of a word are joined. -/
def addToken (p : Placed) (following : Option Placed) (ts : List Token) : List Token :=
  let c := p.point
  if inComment p then (if isLineBreak c then .lineBreak :: ts else ts)
  else if !isTop p then ts
  else if isLineBreak c then .lineBreak :: ts
  else if Text.isBlank c || c == byteOrderMark then ts
  else if c = slash ∧ following.any inComment then ts
  else if isOpening c || c == backtick || c == quote || c == apostrophe then .group c :: ts
  else if isWordPoint c then
    match ts with
    | .word w :: rest => if following.any fun q => isTop q && isWordPoint q.point then .word (c :: w) :: rest
      else .word [c] :: ts
    | ts => .word [c] :: ts
  else .mark c :: ts

def tokens : List Placed → List Token
  | [] => []
  | p :: ps => addToken p ps.head? (tokens ps)

/-! ## (3) Where the first statement ends -/

def semicolon : CodePoint := ';'.toNat

def wordOperators : List Text := [Text.of "in", Text.of "instanceof"]

/-- Words that an operand has to follow. -/
def operandWords : List Text :=
  [Text.of "typeof", Text.of "void", Text.of "delete", Text.of "new", Text.of "await", Text.of "yield"]

/-- What is left behind the end of a statement: a semicolon, or a line break before something that
cannot continue an expression. `complete` when an operand has just been read, `broken` when a line
break has been since. -/
def afterStatement (complete broken : Bool) : List Token → List Token
  | [] => []
  | .lineBreak :: ts => afterStatement complete true ts
  | .mark c :: ts => if c = semicolon then ts else afterStatement false false ts
  | .word w :: ts =>
    if complete then
      if wordOperators.contains w then afterStatement false false ts
      else if broken then .word w :: ts
      else afterStatement true false ts
    else afterStatement (!operandWords.contains w) false ts
  | .group c :: ts =>
    if complete && broken && !(c == backtick || c == '('.toNat || c == bracketOpen) then .group c :: ts
    else afterStatement true false ts

/-- The kind of expression an operand becomes part of by the token behind it; none if the statement
ends here. -/
def continuation (broken : Bool) : List Token → Option String
  | [] => none
  | .lineBreak :: ts => continuation true ts
  | .mark c :: _ =>
    if c = semicolon then none
    else if c = dot then some "member_expression"
    else if c = comma then some "sequence_expression"
    else if c = question then some "ternary_expression"
    else some "binary_expression"
  | .word w :: _ => if broken && !wordOperators.contains w then none else some "binary_expression"
  | .group c :: _ =>
    if c = bracketOpen then some "subscript_expression"
    else if broken && !(c == backtick || c == '('.toNat) then none
    else some "call_expression"

/-! ## (4) The tree -/

/-- A piece of a script: its first byte and what stands there. -/
abbrev Located := Nat × Placed

def locateBytes (offset : Nat) : List Placed → List Located
  | [] => []
  | p :: ps => (offset, p) :: locateBytes (offset + Utf8.width p.point) ps

def named (type : String) (start stop : Nat) (children : List Node) : Node :=
  .mk (Text.of type) start stop true false children

/-- The substitutions that open directly in the first template, each up to the brace that closes it. -/
def substitutions : Option Nat → List Located → List Node
  | _, [] => []
  | opened, (offset, p) :: rest =>
    if p.modes = [.beforeBrace, .template, .code] then substitutions (some (offset - 1)) rest
    else if p.modes = [.code, .template, .code] ∧ isClosing p.point then
      match opened with
      | some start => named "template_substitution" start (offset + 1) [] :: substitutions none rest
      | none => substitutions none rest
    else substitutions opened rest

def closesFirst (p : Placed) : Bool := p.point == backtick && p.modes == [.template, .code]

/-- The tree of a script that starts with a template literal. -/
def readScript (script : Text) : Node :=
  let size := Utf8.size script
  let (placed, final) := place [.code] script
  if final.contains .template then named "program" 0 size [named "ERROR" 0 size []]
  else
    let located := locateBytes 0 placed
    let inside := located.takeWhile fun l => !closesFirst l.2
    let behind := (placed.dropWhile (!closesFirst ·)).drop 1
    let stop := Utf8.size (inside.map (·.2.point)) + 1
    let template := named "template_string" 0 stop (substitutions none inside)
    let following := tokens behind
    let expression := match continuation false following with
      | none => template
      | some type => named type 0 size [named "operand" 0 stop []]
    let more := (afterStatement true false following).any (· != .lineBreak)
    let rest := if more then [named "statement" stop size []] else []
    named "program" 0 size (named "expression_statement" 0 stop [expression] :: rest)

/-- The reader as a parser of files of any kind. -/
def scriptGrammar : Grammar := fun _ bytes => readScript ((Utf8.decode? false bytes).getD [])

end TsProject.Template
