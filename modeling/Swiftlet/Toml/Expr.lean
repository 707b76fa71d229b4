import Swiftlet.Bytes.Quoted
import Swiftlet.Decimal.Binary64

/-!
# What a TOML file says

A file is a list of statements in order: headers of tables and assignments to keys. Assignments
hold expressions, in which tables may be written inline. Every statement knows the line it is on.
What the statements amount to is `Toml.Document`.
-/

namespace Swiftlet

namespace Toml

/-- The parts of a dotted key. -/
abbrev Key := List Bytes

/-- A byte that a key may hold without quotes. -/
def isBareByte (b : UInt8) : Bool :=
  Bytes.isDigit b || (65 ≤ b && b ≤ 90) || (97 ≤ b && b ≤ 122) || b == 95 || b == 45

/-- One part of a key, in quotes where it needs them. -/
def keyPartText (part : Bytes) : Bytes :=
  if part ≠ [] ∧ part.all isBareByte then part else Quoted.quote part

/-- A dotted key. -/
def keyText (key : Key) : Bytes := Bytes.join (utf8 ".") (key.map keyPartText)

inductive Scalar where
  | string (v : Bytes)
  | int (v : Int)
  | float (v : Binary64)
  | bool (v : Bool)
  /-- A date, a time of day, or both. -/
  | moment (text : Bytes)
  deriving DecidableEq, Repr

mutual

inductive Expr where
  | scalar (v : Scalar)
  | array (items : List Expr)
  | table (entries : List Entry)

inductive Entry where
  | mk (key : Key) (value : Expr)

end

inductive Statement where
  /-- The entries that follow are in this table. -/
  | table (key : Key) (line : Nat)
  /-- The entries that follow are in a new table of this array. -/
  | element (key : Key) (line : Nat)
  | assign (key : Key) (value : Expr) (line : Nat)

end Toml

end Swiftlet
