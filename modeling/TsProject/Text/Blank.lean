/-
  TsProject.Text.Blank — white space.

  Two sets. `isBlank` is the Unicode property White_Space with the four
  information separators U+001C to U+001F: it decides which text counts as
  empty and what is trimmed from the end of a shown line. `isSpaceSeparator` is
  general category Zs, which the config syntax allows between tokens.
-/

import TsProject.Text.Ranges

namespace TsProject.Text

def blankRanges : Ranges :=
  [(0x9, 0xD), (0x1C, 0x20), (0x85, 0x85), (0xA0, 0xA0), (0x1680, 0x1680), (0x2000, 0x200A), (0x2028, 0x2029),
   (0x202F, 0x202F), (0x205F, 0x205F), (0x3000, 0x3000)]

def spaceSeparatorRanges : Ranges :=
  [(0x20, 0x20), (0xA0, 0xA0), (0x1680, 0x1680), (0x2000, 0x200A), (0x202F, 0x202F), (0x205F, 0x205F),
   (0x3000, 0x3000)]

def isBlank (c : CodePoint) : Bool := blankRanges.has c

def isSpaceSeparator (c : CodePoint) : Bool := spaceSeparatorRanges.has c

end TsProject.Text
