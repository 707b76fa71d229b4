import Swiftlet.Bytes
import Swiftlet.Decimal.Binary64

/-!
# Reading numerals

* `Numeral.int32?` reads a decimal integer of 32 bits with an optional sign.
* `Numeral.double?` reads a double: a decimal or hexadecimal fraction with an optional sign and
  exponent, digits optionally separated by single underscores, or the words for infinity and NaN
  in any case. The result is the nearest double; what lies beyond the largest one is refused, and
  what lies below the smallest one is zero.
-/

namespace Swiftlet

namespace Numeral

/-- An optional sign and what follows it. -/
def splitSign : Bytes → Bool × Bytes
  | 43 :: bs => (false, bs)
  | 45 :: bs => (true, bs)
  | bs => (false, bs)

/-- The integer that an optionally signed string of decimal digits stands for. -/
def int? (bs : Bytes) : Option Int :=
  let (negative, digits) := splitSign bs
  if digits ≠ [] ∧ digits.all Bytes.isDigit then
    some (if negative then -(Bytes.digitsValue digits : Int) else Bytes.digitsValue digits)
  else none

/-- A decimal integer of 32 bits. -/
def int32? (bs : Bytes) : Option Int32 :=
  match int? bs with
  | some n => if -2147483648 ≤ n ∧ n ≤ 2147483647 then some (Int32.ofInt n) else none
  | none => none

/-- Whether `b` is a digit of the base, which is ten or sixteen. -/
def isBaseDigit (hex : Bool) (b : UInt8) : Bool :=
  if hex then (Bytes.hexValue? b).isSome else Bytes.isDigit b

/-- Whether every underscore stands between two digits. `before` says whether a digit comes
before `bs`; the mark of the base counts as one. -/
def underscoresBetween (hex before : Bool) : Bytes → Bool
  | [] => true
  | 95 :: b :: bs => before && isBaseDigit hex b && underscoresBetween hex true bs
  | [95] => false
  | b :: bs => underscoresBetween hex (isBaseDigit hex b) bs

/-- The digits of a fraction: their value, how many stand after the point, and whether there are
any. -/
structure Digits where
  value : Nat
  places : Nat
  some : Bool

/-- Reads digits, underscores and at most one point; `afterPoint` says whether it was seen. -/
def readDigits (hex : Bool) (afterPoint : Bool) (d : Digits) : Bytes → Digits × Bytes
  | [] => (d, [])
  | b :: bs =>
    if b = 95 then readDigits hex afterPoint d bs
    else if b = 46 ∧ !afterPoint then readDigits hex true d bs
    else if isBaseDigit hex b then
      readDigits hex afterPoint
        ⟨d.value * (if hex then 16 else 10) + (Bytes.hexValue? b).getD 0,
          if afterPoint then d.places + 1 else d.places, true⟩ bs
    else (d, b :: bs)

/-- An exponent after its letter: an optional sign and digits, the first of which is no
underscore, to the end of the text. -/
def readExponent? (bs : Bytes) : Option Int :=
  let (negative, rest) := splitSign bs
  match rest with
  | [] => none
  | b :: _ =>
    if Bytes.isDigit b ∧ rest.all fun c => Bytes.isDigit c || c == 95 then
      let n := Bytes.digitsValue (Bytes.without 95 rest)
      some (if negative then -(n : Int) else n)
    else none

/-- The bits of the double nearest to `value · base^exponent`. Exponents far out of range are
settled by the number of digits alone. -/
def scaled (value : Nat) (base : Nat) (exponent : Int) : Option Nat :=
  let size : Int := (Nat.toDigits base value).length
  if value = 0 then some 0
  else if 1100 < size + exponent then none
  else if size + exponent < -1200 then some 0
  else Binary64.ofRatio (value * Nat.pow base exponent.toNat) (Nat.pow base (-exponent).toNat)

/-- The bits of the magnitude of an unsigned decimal fraction. -/
def decimal? (bs : Bytes) : Option Nat :=
  let (d, rest) := readDigits false false ⟨0, 0, false⟩ bs
  if !d.some || !underscoresBetween false false bs then none
  else match rest with
    | [] => scaled d.value 10 (-(d.places : Int))
    | b :: more =>
      if b = 101 ∨ b = 69 then
        match readExponent? more with
        | some x => scaled d.value 10 (x - d.places)
        | none => none
      else none

/-- The bits of the magnitude of an unsigned hexadecimal fraction after its `0x`. The exponent, a
power of two, has to be there. -/
def hexadecimal? (bs : Bytes) : Option Nat :=
  let (d, rest) := readDigits true false ⟨0, 0, false⟩ bs
  if !d.some || !underscoresBetween true true bs then none
  else match rest with
    | [] => none
    | b :: more =>
      if b = 112 ∨ b = 80 then
        match readExponent? more with
        | some x => scaled d.value 2 (x - 4 * d.places)
        | none => none
      else none

/-- A double. -/
def double? (bs : Bytes) : Option Binary64 :=
  let (negative, rest) := splitSign bs
  let word := Bytes.toLower rest
  if word = utf8 "inf" ∨ word = utf8 "infinity" then
    some (Binary64.ofMagnitude negative Binary64.infinityBits)
  else if Bytes.toLower bs = utf8 "nan" then some (Binary64.nan false)
  else
    let bits := match rest with
      | 48 :: x :: b :: more =>
        if x = 120 ∨ x = 88 then hexadecimal? (b :: more) else decimal? rest
      | _ => decimal? rest
    bits.map (Binary64.ofMagnitude negative)

end Numeral

end Swiftlet
