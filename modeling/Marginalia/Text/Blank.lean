import Marginalia.Text

/-!
# White space

The code units that count as white space where a text is asked whether there is anything in it, and
around a numeral: the blanks and line ends of ASCII, the space separators, the line and paragraph
separators, and the byte order mark.
-/

namespace Marginalia

/-- White space. -/
def CodeUnit.isWhiteSpace (u : CodeUnit) : Bool :=
  (0x0009 ≤ u && u ≤ 0x000D) || u == 0x0020 || u == 0x00A0 || u == 0x1680 ||
    (0x2000 ≤ u && u ≤ 0x200A) || u == 0x2028 || u == 0x2029 || u == 0x202F || u == 0x205F || u ==
    0x3000 || u == 0xFEFF

/-- The text without the white space at both ends. -/
def Text.trim (text : Text) : Text :=
  ((text.dropWhile CodeUnit.isWhiteSpace).reverse.dropWhile CodeUnit.isWhiteSpace).reverse

/-- Nothing but white space, or nothing at all. -/
def Text.isBlank (text : Text) : Bool := text.all CodeUnit.isWhiteSpace

end Marginalia
