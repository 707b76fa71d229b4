import Swiftlet.Token
import Swiftlet.Decimal.Layout

/-!
# Values

What an expression evaluates to. `invalid` is the value of an operator applied to something that
is not a number; nothing else makes one, and no analyzed program does.
-/

namespace Swiftlet

inductive Value where
  | invalid
  | int (v : Int32)
  | float (v : Float)
  | string (v : Bytes)
  | bool (v : Bool)
  | void
  deriving DecidableEq, Repr

namespace Value

/-- The name of the kind of value. -/
def kindName : Value → Bytes
  | invalid => utf8 "invalid"
  | int _ => utf8 "Int"
  | float _ => utf8 "Float"
  | string _ => utf8 "String"
  | bool _ => utf8 "Bool"
  | void => utf8 "Void"

def isValid : Value → Bool
  | invalid => false
  | _ => true

def isNumber : Value → Bool
  | int _ | float _ => true
  | _ => false

/-- A double as `print` writes it: never an exponent, always a fraction. -/
def floatText (v : Float) : Bytes :=
  let x := Binary64.ofFloat v
  match x.decode with
  | .nan _ => utf8 "nan"
  | .infinite true => utf8 "-inf"
  | .infinite false => utf8 "inf"
  | .finite .. => Decimal.withFraction [46] (Decimal.text .positional x)

/-- A value as `print` writes it. -/
def text : Value → Bytes
  | invalid => utf8 "<invalid>"
  | int v => Bytes.ofInt v.toInt
  | float v => floatText v
  | string v => Bytes.without Bytes.quote v
  | bool true => utf8 "true"
  | bool false => utf8 "false"
  | void => []

end Value

end Swiftlet
