import Swiftlet.Decimal.Binary64

/-!
# The fewest decimal digits that read back

Every decimal that lies in the rounding interval of a double reads back as that double. Among
them `Decimal.shortest` takes one with the fewest digits, of two with the same number of digits
the nearer one, and of two equally near ones the even one. For each number of digits only the two
neighbours of the value on that decimal grid have to be looked at.
-/

namespace Swiftlet

/-- A positive decimal `digits · 10^exponent`. -/
structure Decimal where
  digits : Nat
  exponent : Int
  deriving DecidableEq, Repr

namespace Decimal

/-- A binary fraction on the grid of step `10^k`: `c · 2^e` is `(c · up) / down` steps. -/
structure Grid where
  up : Nat
  down : Nat

/-- The scale factors that compare multiples of `2^e` with multiples of `10^k`. -/
def Grid.of (e k : Int) : Grid :=
  ⟨Nat.pow 2 e.toNat * Nat.pow 10 (-k).toNat, Nat.pow 2 (-e).toNat * Nat.pow 10 k.toNat⟩

/-- The decimal exponent of the first digit of `m · 2^e`. -/
def leadingExponent (m : Nat) (e : Int) : Int :=
  let guess := ((m.log2 + e) * 30103).fdiv 100000
  let reaches (k : Int) : Bool :=
    let g := Grid.of e k
    g.down ≤ m * g.up
  if reaches (guess + 1) then guess + 1 else if reaches guess then guess else guess - 1

/-- The rounding interval of `m · 2^e` in units of `2^(e - 2)`: its ends, and whether they belong to
it. Below a power of two the doubles lie twice as close. -/
structure Interval where
  low : Nat
  high : Nat
  closed : Bool

def Interval.of (m : Nat) (e : Int) : Interval :=
  ⟨if m = Binary64.pow2 52 ∧ Binary64.leastExponent < e then 4 * m - 1 else 4 * m - 2, 4 * m + 2, m % 2 = 0⟩

/-- Whether `d` steps of the grid lie in the interval. -/
def Interval.holds (i : Interval) (g : Grid) (d : Nat) : Bool :=
  let x := d * g.down
  let low := i.low * g.up
  let high := i.high * g.up
  if i.closed then low ≤ x && x ≤ high else low < x && x < high

/-- The best multiple of `10^k` that reads back as `m · 2^e`, if there is one. -/
def onGrid (m : Nat) (e k : Int) (i : Interval) : Option Nat :=
  let g := Grid.of (e - 2) k
  let below := 4 * m * g.up / g.down
  let remainder := 4 * m * g.up % g.down
  let lower := i.holds g below
  let upper := i.holds g (below + 1)
  if lower && upper then
    if 2 * remainder < g.down then some below
    else if g.down < 2 * remainder then some (below + 1)
    else if below % 2 = 0 then some below else some (below + 1)
  else if lower then some below
  else if upper then some (below + 1)
  else none

/-- Trailing zeros moved into the exponent; `fuel` bounds their number. -/
def trim : Nat → Decimal → Decimal
  | 0, d => d
  | fuel + 1, d =>
    if d.digits ≠ 0 ∧ d.digits % 10 = 0 then trim fuel ⟨d.digits / 10, d.exponent + 1⟩ else d

/-- The first of the grids `top`, `top - 1`, … that holds a decimal in the interval. -/
def search (m : Nat) (e : Int) (i : Interval) : Nat → Int → Decimal
  | 0, k => ⟨4 * m * (Grid.of (e - 2) k).up / (Grid.of (e - 2) k).down, k⟩
  | more + 1, k =>
    match onGrid m e k i with
    | some d => ⟨d, k⟩
    | none => search m e i more (k - 1)

/-- The fewest digits that read back as the positive double `m · 2^e`, without trailing zeros.
Seventeen digits always suffice. -/
def shortest (m : Nat) (e : Int) : Decimal :=
  trim 20 (search m e (Interval.of m e) 17 (leadingExponent m e))

/-- Whether the decimal is exactly `m · 2^e`. -/
def isExactly (d : Decimal) (m : Nat) (e : Int) : Bool :=
  let g := Grid.of e d.exponent
  d.digits * g.down = m * g.up

end Decimal

end Swiftlet
