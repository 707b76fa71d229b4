/-!
# Byte strings

Source text, lexemes, paths and everything the compiler writes are sequences of bytes, not of
characters: a source file may hold any bytes at all, and columns count bytes.

* `utf8` gives the bytes of a text constant.
* `Bytes.ofNat` and `Bytes.ofInt` write a number in decimal.
* `Bytes.lines` splits at newlines; `Bytes.unixNewlines` turns CR LF into LF.
-/

namespace Swiftlet

/-- A byte string. -/
abbrev Bytes := List UInt8

instance : LawfulBEq Bytes := inferInstanceAs (LawfulBEq (List UInt8))

/-- The UTF-8 bytes of a text. -/
def utf8 (s : String) : Bytes := s.toUTF8.data.toList

namespace Bytes

/-- The byte of an ASCII character. -/
def char (c : Char) : UInt8 := c.toNat.toUInt8

def newline : UInt8 := 10

def quote : UInt8 := 34

/-- A natural number in decimal, without leading zeros. -/
def ofNat (n : Nat) : Bytes := (Nat.toDigits 10 n).map char

/-- An integer in decimal, with a minus sign if it is negative. -/
def ofInt : Int → Bytes
  | .ofNat n => ofNat n
  | .negSucc n => char '-' :: ofNat (n + 1)

/-- `bs` filled up on the left with `fill` to at least `width` bytes. -/
def padLeft (width : Nat) (fill : UInt8) (bs : Bytes) : Bytes :=
  List.replicate (width - bs.length) fill ++ bs

/-- A digit of a base up to sixteen, in upper case. -/
def hexDigitUpper (n : Nat) : UInt8 := if n < 10 then (48 + n).toUInt8 else (55 + n).toUInt8

/-- A digit of a base up to sixteen, in lower case. -/
def hexDigitLower (n : Nat) : UInt8 := if n < 10 then (48 + n).toUInt8 else (87 + n).toUInt8

/-- The value of a hexadecimal digit in either case. -/
def hexValue? (b : UInt8) : Option Nat :=
  let n := b.toNat
  if 48 ≤ n ∧ n ≤ 57 then some (n - 48)
  else if 65 ≤ n ∧ n ≤ 70 then some (n - 55)
  else if 97 ≤ n ∧ n ≤ 102 then some (n - 87)
  else none

/-- Hexadecimal digits of a number, most significant first, without leading zeros. -/
def hexUpper (n : Nat) : Bytes :=
  (Nat.toDigits 16 n).map fun c => hexDigitUpper ((hexValue? (char c)).getD 0)

/-- The last `width` hexadecimal digits of a number in lower case. -/
def hexLowerFixed : Nat → Nat → Bytes
  | 0, _ => []
  | width + 1, n => hexLowerFixed width (n / 16) ++ [hexDigitLower (n % 16)]

/-- A decimal digit. -/
def isDigit (b : UInt8) : Bool := 48 ≤ b && b ≤ 57

/-- The value of a string of decimal digits; other bytes count as the digit their low bits give. -/
def digitsValue (bs : Bytes) : Nat := bs.foldl (fun n b => 10 * n + (b.toNat - 48)) 0

/-- The ASCII letters in lower case. -/
def toLower (bs : Bytes) : Bytes :=
  bs.map fun b => if 65 ≤ b && b ≤ 90 then b + 32 else b

/-- The pieces between newlines; there is always at least one. -/
def lines : Bytes → List Bytes
  | [] => [[]]
  | b :: bs =>
    match lines bs with
    | [] => [[b]]
    | l :: ls => if b = newline then [] :: l :: ls else (b :: l) :: ls

/-- Every CR LF becomes LF. -/
def unixNewlines : Bytes → Bytes
  | [] => []
  | 13 :: 10 :: bs => 10 :: unixNewlines bs
  | b :: bs => b :: unixNewlines bs

/-- Without the bytes equal to `b`. -/
def without (b : UInt8) (bs : Bytes) : Bytes := bs.filter (· ≠ b)

/-- The pieces joined by `sep`. -/
def join (sep : Bytes) (pieces : List Bytes) : Bytes := sep.intercalate pieces

/-- Every piece stands in the joined text. -/
theorem infix_join (sep : Bytes) {piece : Bytes} {pieces : List Bytes} (h : piece ∈ pieces) :
    piece <:+: join sep pieces := by
  rw [join]
  induction pieces with
  | nil => cases h
  | cons p ps ih =>
      cases ps with
      | nil =>
          cases List.mem_singleton.1 h
          simp
      | cons q qs =>
          rw [List.intercalate_cons_cons]
          rcases List.mem_cons.1 h with rfl | h
          · rw [List.append_assoc]
            exact (List.prefix_append _ _).isInfix
          · exact (ih h).trans (List.suffix_append _ _).isInfix

end Bytes

end Swiftlet
