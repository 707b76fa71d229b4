import Swiftlet.Bytes.Utf8

/-!
# White space

The code points with the property White_Space, and text without them at its ends.
-/

namespace Swiftlet

namespace Blank

/-- Whether a code point is white space. -/
def isBlank (c : Nat) : Bool :=
  (9 ≤ c && c ≤ 13) || c == 32 || c == 0x85 || c == 0xA0 || c == 0x1680 ||
    (0x2000 ≤ c && c ≤ 0x200A) || c == 0x2028 || c == 0x2029 || c == 0x202F || c == 0x205F ||
    c == 0x3000

def isBlankRune : Utf8.Rune → Bool
  | .point c _ => isBlank c
  | .stray _ => false

/-- Whether a text is nothing but white space. -/
def allBlank (bs : Bytes) : Bool := (Utf8.runes bs).all isBlankRune

/-- A text without the white space at its ends. -/
def trim (bs : Bytes) : Bytes :=
  ((((Utf8.runes bs).dropWhile isBlankRune).reverse.dropWhile isBlankRune).reverse).flatMap
    Utf8.Rune.text

end Blank

end Swiftlet
