/-!
# Binary fractions of 64 bits

A double is held by its bits, which tell apart what `Float` does not: `Float` has one NaN. A finite
double is `m · 2^e` with `m < 2^53`. `Binary64.decode` takes the bits of a double apart and
`Binary64.ofRatio` rounds a ratio of two naturals to the nearest double, a half going to the even
neighbour. Both work on naturals, so they can be reasoned about and run alike.
-/

namespace Swiftlet

/-- A double by its bits. -/
structure Binary64 where
  bits : UInt64
  deriving DecidableEq, Repr

namespace Binary64

/-- The double that arithmetic works on. -/
def toFloat (x : Binary64) : Float := Float.ofBits x.bits

def ofFloat (v : Float) : Binary64 := ⟨v.toBits⟩

/-- What the bits of a double stand for. The sign is kept apart, since zero has two of them; the
magnitude of a finite value is `mantissa · 2^exponent`. -/
inductive Shape where
  | nan (negative : Bool)
  | infinite (negative : Bool)
  | finite (negative : Bool) (mantissa : Nat) (exponent : Int)
  deriving DecidableEq, Repr

/-- A power of two. -/
def pow2 (n : Nat) : Nat := Nat.pow 2 n

/-- The smallest binary exponent of a double. -/
def leastExponent : Int := -1074

/-- The bits of positive infinity, above those of every finite magnitude. -/
def infinityBits : Nat := 0x7FF0000000000000

def decode (x : Binary64) : Shape :=
  let n := x.bits.toNat
  let negative := n / pow2 63 = 1
  let biased : Nat := n / pow2 52 % pow2 11
  let fraction := n % pow2 52
  if biased = 2047 then
    if fraction = 0 then .infinite negative else .nan negative
  else if biased = 0 then .finite negative fraction leastExponent
  else .finite negative (pow2 52 + fraction) ((biased : Int) - 1075)

/-- The quotient rounded to the nearest natural, a half going to the even one. -/
def divNearestEven (num den : Nat) : Nat :=
  let q := num / den
  let r := num % den
  if 2 * r < den then q
  else if den < 2 * r then q + 1
  else if q % 2 = 0 then q else q + 1

/-- `num / (den · 2^e)` rounded to the nearest natural. -/
def divScaled (num den : Nat) (e : Int) : Nat :=
  divNearestEven (num * pow2 (-e).toNat) (den * pow2 e.toNat)

/-- The binary exponent at which `num / den` has a mantissa of 53 bits, or the least one. -/
def exponentFor (num den : Nat) : Int :=
  let guess : Int := (num.log2 : Int) - den.log2 - 52
  let e := if num * pow2 (-guess).toNat < den * pow2 guess.toNat * pow2 52 then guess - 1 else guess
  if e < leastExponent then leastExponent else e

/-- The bits of the double nearest to `num / den`, or nothing if that is beyond the largest one.
Adding the rounded mantissa to the shifted exponent also carries into the exponent. -/
def ofRatio (num den : Nat) : Option Nat :=
  if num = 0 then some 0
  else
    let e := exponentFor num den
    let bits := (e - leastExponent).toNat * pow2 52 + divScaled num den e
    if bits < infinityBits then some bits else none

/-- A double from the bits of its magnitude and its sign. -/
def ofMagnitude (negative : Bool) (bits : Nat) : Binary64 :=
  ⟨if negative then (pow2 63 + bits).toUInt64 else bits.toUInt64⟩

/-- The NaN of a sign that carries nothing else. -/
def nan (negative : Bool) : Binary64 := ofMagnitude negative 0x7FF8000000000000

end Binary64

end Swiftlet
