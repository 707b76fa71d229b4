import Swiftlet.Bytes.Printable
import Swiftlet.Bytes.Utf8

/-!
# Quoted text

A byte string between quotation marks, with printable code points as they are and escapes for the
rest: a letter where there is one, two hexadecimal digits for a control character or a stray byte,
four or eight for other code points.
-/

namespace Swiftlet

namespace Quoted

/-- The letter that stands for a control character after a backslash. -/
def letter? (c : Nat) : Option UInt8 :=
  if c = 7 then some 97
  else if c = 8 then some 98
  else if c = 12 then some 102
  else if c = 10 then some 110
  else if c = 13 then some 114
  else if c = 9 then some 116
  else if c = 11 then some 118
  else none

def escape : Utf8.Rune → Bytes
  | .stray b => utf8 "\\x" ++ Bytes.hexLowerFixed 2 b.toNat
  | .point c text =>
    if c = 34 ∨ c = 92 then 92 :: text
    else if Printable.isPrintable c then text
    else match letter? c with
      | some l => [92, l]
      | none =>
        if c < 0x20 ∨ c = 0x7F then utf8 "\\x" ++ Bytes.hexLowerFixed 2 c
        else if c < 0x10000 then utf8 "\\u" ++ Bytes.hexLowerFixed 4 c
        else utf8 "\\U" ++ Bytes.hexLowerFixed 8 c

/-- A text in quotation marks. -/
def quote (bs : Bytes) : Bytes :=
  Bytes.quote :: (Utf8.runes bs).flatMap escape ++ [Bytes.quote]

end Quoted

end Swiftlet
