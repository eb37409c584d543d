/-
  TsProject.Console — what reaches a terminal.

  Diagnostics are written as rendered, in colour if the console can show it. A plain
  message loses the control characters that move the cursor, its tabs are expanded to
  columns of eight cells, and a line feed is added.
-/

import TsProject.Text.Cells

namespace TsProject

structure Console where
  isTerminal : Bool := false
  /-- The console knows colours. -/
  hasColours : Bool := false
  noColour : Bool := false

namespace Console

open CodePoint

def usesColour (c : Console) : Bool := c.isTerminal && c.hasColours && !c.noColour

/-- BEL, BS, VT, FF and CR. -/
def isCursorControl (c : CodePoint) : Bool := [0x07, backspace, verticalTab, formFeed, carriageReturn].contains c

def tabWidth : Nat := 8

/-- A piece of a line with the tab that ends it: a space, then as many as the tab width asks for. -/
def withTab (piece : Text) : Text :=
  let cells := Text.cells (piece ++ [space])
  piece ++ List.replicate (1 + (tabWidth - cells % tabWidth) % tabWidth) space

/-- A line from its pieces between tabs. Every tab ends at a multiple of the tab width, so pieces are apart. -/
def ofTabbed : List Text → Text
  | [] => []
  | [piece] => piece
  | piece :: pieces => withTab piece ++ ofTabbed pieces

def expandTabs (message : Text) : Text :=
  Text.join [lineFeed] ((Text.splitOn lineFeed message).map fun line => ofTabbed (Text.splitOn tab line))

def plainMessage (message : Text) : Text := expandTabs (message.filter (!isCursorControl ·)) ++ [lineFeed]

end Console

end TsProject
