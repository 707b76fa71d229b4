import Swiftlet.Decimal.Layout
import Swiftlet.IR.Module

/-!
# Constants and names as text

* A byte string escapes what is not printable ASCII with two hexadecimal digits.
* An integer is decimal, unless its hexadecimal digits repeat so much more that they read better.
* A double is decimal where the decimal is exact, and otherwise its bits; of a NaN only the sign is
  kept.
-/

namespace Swiftlet

namespace IR

/-- A byte inside quotation marks. -/
def escapeByte (b : UInt8) : Bytes :=
  if 0x20 ≤ b ∧ b ≤ 0x7E ∧ b ≠ 34 ∧ b ≠ 92 then [b]
  else [92, Bytes.hexDigitUpper (b.toNat / 16), Bytes.hexDigitUpper (b.toNat % 16)]

/-- A byte string in quotation marks. -/
def quotedText (bs : Bytes) : Bytes := Bytes.quote :: bs.flatMap escapeByte ++ [Bytes.quote]

/-- A byte that a name may hold without quotation marks. -/
def isNameByte (b : UInt8) : Bool :=
  Bytes.isDigit b || (65 ≤ b && b ≤ 90) || (97 ≤ b && b ≤ 122) || b == 36 || b == 46 || b == 95 ||
    b == 45

/-- Whether a name would read as the number of something without a name. -/
def readsAsNumber (name : Bytes) : Bool :=
  name ≠ [] && name.all Bytes.isDigit && Bytes.digitsValue name < 18446744073709551616

/-- A name after its sigil. -/
def nameText (name : Bytes) : Bytes :=
  if readsAsNumber name then [Bytes.quote] ++ name ++ [Bytes.quote]
  else if name.all isNameByte then name
  else quotedText name

/-- How many different elements a list has, as a share of its length. -/
def variety (digits : List Char) : Float :=
  digits.eraseDups.length.toFloat / digits.length.toFloat

/-- The largest variety of hexadecimal digits that reads better than decimal. -/
def varietyLimit (length : Nat) : Float :=
  if length ≤ 6 then 2.0 / length.toFloat else 3.0 / length.toFloat

/-- A 32-bit integer. -/
def intText (v : Int32) : Bytes :=
  let n := v.toInt
  if n < 4096 then Bytes.ofInt n
  else
    let hex := Nat.toDigits 16 n.toNat
    let hexVariety := variety hex
    let decimalVariety := variety (Nat.toDigits 10 n.toNat)
    if hexVariety ≤ varietyLimit hex.length + 0.01 ∧ hexVariety + 0.2 ≤ decimalVariety then
      utf8 "u0x" ++ Bytes.hexUpper n.toNat
    else Bytes.ofInt n

/-- A decimal with a point: `.0` goes before the exponent or to the end. -/
def withPoint (text : Bytes) : Bytes :=
  if text.contains 46 then text
  else text.takeWhile (· ≠ 101) ++ utf8 ".0" ++ text.dropWhile (· ≠ 101)

/-- The bits of a double. -/
def bitsText (v : Binary64) : Bytes := utf8 "0x" ++ Bytes.hexUpper v.bits.toNat

/-- A double. -/
def doubleText (v : Binary64) : Bytes :=
  match v.decode with
  | .finite _ m e =>
    if m = 0 ∨ (Decimal.shortest m e).isExactly m e then withPoint (Decimal.text .compact v)
    else bitsText v
  | .infinite _ => bitsText v
  | .nan negative => bitsText (.nan negative)

end IR

end Swiftlet
