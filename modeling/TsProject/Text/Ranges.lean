/-
  TsProject.Text.Ranges — a set of code points as a list of closed ranges.

  The character properties this library asks for are data of the Unicode
  standard. Each is one such list, in a module named for the property.
-/

import TsProject.Text.Basic

namespace TsProject

/-- Pairs of a first and a last code point, in ascending order. -/
abbrev Ranges := List (CodePoint × CodePoint)

namespace Ranges

def has (r : Ranges) (c : CodePoint) : Bool := r.any fun p => CodePoint.isBetween p.1 p.2 c

end Ranges

end TsProject
