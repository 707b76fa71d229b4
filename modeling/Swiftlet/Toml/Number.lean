import Swiftlet.Decimal.Numeral
import Swiftlet.Toml.Expr

/-!
# Numbers and dates in TOML

Integers of 64 bits in four bases, floats, and dates and times. Underscores stand between digits
only, and a decimal number has no leading zeros.
-/

namespace Swiftlet

namespace Toml

/-! ## Numbers -/

def isHexDigit (b : UInt8) : Bool := (Bytes.hexValue? b).isSome

/-- Whether every underscore has a digit on both sides, `digit` being whether one comes before. -/
def underscoresOk (digit : Bool) : Bytes → Bool
  | [] => digit
  | b :: rest => (b ≠ 95 || digit) && underscoresOk (isHexDigit b) rest

/-- Whether a decimal number starts with a zero that another digit follows. -/
def hasLeadingZero (bs : Bytes) : Bool :=
  match bs with
  | 48 :: _ :: _ => true
  | 43 :: 48 :: _ :: _ => true
  | 45 :: 48 :: _ :: _ => true
  | _ => false

/-- An integer of 64 bits. -/
def int64? (v : Int) : Option Scalar :=
  if -9223372036854775808 ≤ v ∧ v ≤ 9223372036854775807 then some (.int v) else none

def decimalInteger? (bs : Bytes) : Option Scalar :=
  if underscoresOk false bs ∧ ¬ hasLeadingZero bs then
    (Numeral.int? (Bytes.without 95 bs)).bind int64?
  else none

/-- Digits of a base other than ten, after its mark. -/
def basedInteger? (base : Nat) (bs : Bytes) : Option Scalar :=
  if underscoresOk false bs then
    match (Bytes.without 95 bs).mapM Bytes.hexValue? with
    | some digits =>
      let n : Nat := digits.foldl (fun n d => base * n + d) 0
      if digits.all (· < base) then int64? n else none
    | none => none
  else none

/-- The pieces between points and exponent marks. -/
def floatParts : Bytes → List Bytes
  | [] => [[]]
  | b :: bs =>
    match floatParts bs with
    | [] => [[b]]
    | p :: ps => if b = 46 ∨ b = 101 ∨ b = 69 then [] :: p :: ps else (b :: p) :: ps

/-- Whether a digit follows every point, `point` being whether one comes before. -/
def pointsOk (point : Bool) : Bytes → Bool
  | [] => !point
  | b :: rest => (!point || Bytes.isDigit b) && pointsOk (b == 46) rest

def float? (bs : Bytes) : Option Scalar :=
  let parts := (floatParts bs).filter (· ≠ [])
  if parts.all (underscoresOk false) ∧ ¬ hasLeadingZero (parts.headD []) ∧ pointsOk false bs then
    (Numeral.double? (Bytes.without 95 bs)).map .float
  else none

/-! ## Dates and times -/

def isLeapYear (y : Nat) : Bool := y % 4 == 0 && (y % 100 != 0 || y % 400 == 0)

def daysInMonth (y m : Nat) : Nat :=
  if m = 2 then (if isLeapYear y then 29 else 28)
  else if m = 4 ∨ m = 6 ∨ m = 9 ∨ m = 11 then 30
  else 31

/-- The number that exactly `n` digits at the start stand for, and what follows them. -/
def fixedDigits? (n : Nat) (bs : Bytes) : Option (Nat × Bytes) :=
  let digits := bs.take n
  if digits.length = n ∧ digits.all Bytes.isDigit then some (Bytes.digitsValue digits, bs.drop n)
  else none

/-- A date at the start of a text; what follows it. -/
def date? (bs : Bytes) : Option Bytes :=
  match fixedDigits? 4 bs with
  | some (y, 45 :: bs) =>
    match fixedDigits? 2 bs with
    | some (m, 45 :: bs) =>
      match fixedDigits? 2 bs with
      | some (d, bs) =>
        if 1 ≤ m ∧ m ≤ 12 ∧ 1 ≤ d ∧ d ≤ daysInMonth y m then some bs else none
      | none => none
    | _ => none
  | _ => none

/-- Without a fraction of a second at the start. -/
def skipFraction : Bytes → Bytes
  | 46 :: d :: rest => if Bytes.isDigit d then rest.dropWhile Bytes.isDigit else 46 :: d :: rest
  | bs => bs

/-- A time of day at the start of a text, with or without seconds; what follows it. -/
def time? (bs : Bytes) : Option Bytes :=
  match fixedDigits? 2 bs with
  | some (h, 58 :: bs) =>
    match fixedDigits? 2 bs with
    | some (m, bs) =>
      if h ≤ 23 ∧ m ≤ 59 then
        match bs with
        | 58 :: rest =>
          match fixedDigits? 2 rest with
          | some (s, rest) => if s ≤ 59 then some (skipFraction rest) else none
          | none => none
        | _ => some bs
      else none
    | none => none
  | _ => none

/-- Whether a text is nothing, `Z` or an offset from it. -/
def isZone : Bytes → Bool
  | [] => true
  | [90] => true
  | sign :: bs =>
    (sign == 43 || sign == 45) &&
      match fixedDigits? 2 bs with
      | some (h, 58 :: bs) =>
        match fixedDigits? 2 bs with
        | some (m, []) => h ≤ 24 && m ≤ 60
        | _ => false
      | _ => false

/-- A date, a time of day, or both with a `T` or a space between them and perhaps a zone. -/
def moment? (bs : Bytes) : Option Scalar :=
  let text := bs.map fun b => if b = 116 ∨ b = 32 then 84 else if b = 122 then 90 else b
  let ok := match date? text with
    | some [] => true
    | some (84 :: rest) =>
      match time? rest with
      | some rest => isZone rest
      | none => false
    | _ => time? text = some []
  if ok then some (.moment text) else none

/-! ## What a value that starts with a digit or a sign is -/

/-- What the text of a float may hold after its first point or exponent mark. -/
def isFloatByte (b : UInt8) : Bool :=
  Bytes.isDigit b || b == 95 || b == 46 || b == 45 || b == 43 || b == 101 || b == 69

def isMomentByte (b : UInt8) : Bool :=
  Bytes.isDigit b || b == 45 || b == 58 || b == 84 || b == 116 || b == 32 || b == 46 || b == 90 ||
    b == 122 || b == 43

def isDigitOrUnderscore (b : UInt8) : Bool := Bytes.isDigit b || b == 95

/-- The rest of a number after its first digits and underscores. -/
def afterDigits? (signed : Bool) (sign body rest : Bytes) : Option (Scalar × Bytes) :=
  match rest with
  | b :: _ =>
    if b = 46 ∨ b = 101 ∨ b = 69 then
      (float? (sign ++ body ++ rest.takeWhile isFloatByte)).map
        (·, rest.dropWhile isFloatByte)
    else if (b = 45 ∨ b = 58) ∧ ¬ signed ∧ ¬ body.contains 95 then
      let text := body ++ rest.takeWhile isMomentByte
      (moment? (text.reverse.dropWhile (· = 32)).reverse).map (·, rest.dropWhile isMomentByte)
    else (decimalInteger? (sign ++ body)).map (·, rest)
  | [] => (decimalInteger? (sign ++ body)).map (·, rest)

/-- A number of base `base` after its mark. -/
def based? (base : Nat) (bs : Bytes) : Option (Scalar × Bytes) :=
  let isDigitOf := fun b => b == 95 || (Bytes.hexValue? b).any (· < base)
  (basedInteger? base (bs.takeWhile isDigitOf)).map (·, bs.dropWhile isDigitOf)

/-- A number or a date at the start of a text, and what follows it. -/
def number? (bs : Bytes) : Option (Scalar × Bytes) :=
  match bs with
  | 48 :: 98 :: rest => based? 2 rest
  | 48 :: 111 :: rest => based? 8 rest
  | 48 :: 120 :: rest => based? 16 rest
  | sign :: 105 :: 110 :: 102 :: rest =>
    if sign = 43 ∨ sign = 45 then (float? [sign, 105, 110, 102]).map (·, rest) else none
  | sign :: 110 :: 97 :: 110 :: rest =>
    if sign = 43 ∨ sign = 45 then some (.float (Binary64.nan (sign = 45)), rest) else none
  | b :: rest =>
    let signed := b == 43 || b == 45
    let digits := if signed then rest else b :: rest
    if (digits.head?.any Bytes.isDigit) then
      afterDigits? signed (if signed then [b] else []) (digits.takeWhile isDigitOrUnderscore)
        (digits.dropWhile isDigitOrUnderscore)
    else none
  | [] => none

end Toml

end Swiftlet
