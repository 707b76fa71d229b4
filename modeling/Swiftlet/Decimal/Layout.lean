import Swiftlet.Bytes
import Swiftlet.Decimal.Shortest

/-!
# Writing doubles

The digits of a double are always the fewest that read back; a `Layout` says when they are
written with an exponent. `Decimal.text` writes a finite double in a layout, and the four places
that write doubles each have one value of it.
-/

namespace Swiftlet

namespace Decimal

/-- Decimal exponents that are written positionally: from `least` on and below `limit`. -/
structure Layout where
  least : Int
  limit : Int
  deriving DecidableEq, Repr

/-- Never an exponent: a double is below `10^309` and above `10^-324`. -/
def Layout.positional : Layout := ⟨-400, 400⟩

/-- An exponent from a million on and below a ten-thousandth. -/
def Layout.compact : Layout := ⟨-4, 6⟩

/-- An exponent only from `10^21` on and below a ten-thousandth. -/
def Layout.wide : Layout := ⟨-4, 21⟩

/-- `digits` with the decimal point after the first `point` of them. -/
def positionalText (digits : Bytes) (point : Int) : Bytes :=
  match point with
  | .ofNat 0 => utf8 "0." ++ digits
  | .ofNat n =>
    if digits.length ≤ n then digits ++ List.replicate (n - digits.length) 48
    else digits.take n ++ utf8 "." ++ digits.drop n
  | .negSucc n => utf8 "0." ++ List.replicate (n + 1) 48 ++ digits

/-- `digits` with the point after the first one and the exponent `x`, of at least two digits. -/
def exponentText (digits : Bytes) (x : Int) : Bytes :=
  let mantissa := match digits with
    | [] => []
    | [d] => [d]
    | d :: ds => d :: 46 :: ds
  mantissa ++ utf8 (if x < 0 then "e-" else "e+") ++
    Bytes.padLeft 2 48 (Bytes.ofNat x.natAbs)

/-- A positive decimal in a layout. -/
def write (layout : Layout) (d : Decimal) : Bytes :=
  let digits := Bytes.ofNat d.digits
  let x := d.exponent + digits.length - 1
  if layout.least ≤ x ∧ x < layout.limit then positionalText digits (x + 1)
  else exponentText digits x

/-- The magnitude `m · 2^e` in a layout. -/
def magnitudeText (layout : Layout) (m : Nat) (e : Int) : Bytes :=
  if m = 0 then utf8 "0" else write layout (shortest m e)

/-- A double in a layout; infinities and NaN are words. -/
def text (layout : Layout) (x : Binary64) : Bytes :=
  match x.decode with
  | .nan _ => utf8 "NaN"
  | .infinite true => utf8 "-Inf"
  | .infinite false => utf8 "+Inf"
  | .finite negative m e =>
    (if negative then utf8 "-" else []) ++ magnitudeText layout m e

/-- `text`, followed by `.0` unless it holds one of the bytes `marks`. -/
def withFraction (marks : List UInt8) (text : Bytes) : Bytes :=
  if text.any marks.contains then text else text ++ utf8 ".0"

end Decimal

end Swiftlet
