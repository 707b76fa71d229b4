import Swiftlet.Bytes.Utf8

/-!
# Strings in TOML

Four kinds of string: basic and literal ones, each on one line or on many. In a basic string a
backslash starts an escape; in one on many lines, a backslash at the end of a line joins it to the
next. A string on many lines ends with three quotes that no further quote follows, and up to two
quotes before them belong to it.
-/

namespace Swiftlet

namespace Toml

/-- The encoding of the code point with these hexadecimal digits. -/
def codePoint? (digits : Bytes) : Option Bytes :=
  match digits.mapM Bytes.hexValue? with
  | none => none
  | some values =>
    let c := values.foldl (fun n d => 16 * n + d) 0
    if (0xD800 ≤ c ∧ c < 0xE000) ∨ 0x110000 ≤ c then none else some (Utf8.encode c)

/-- What a backslash and one byte stand for. -/
def simpleEscape? (b : UInt8) : Option UInt8 :=
  if b = 98 then some 8
  else if b = 116 then some 9
  else if b = 110 then some 10
  else if b = 102 then some 12
  else if b = 114 then some 13
  else if b = 101 then some 27
  else if b = 34 then some 34
  else if b = 92 then some 92
  else none

/-- A text with its escapes replaced. -/
def unescape : Bytes → Option Bytes
  | [] => some []
  | 92 :: 120 :: a :: b :: rest =>
    match codePoint? [a, b], unescape rest with
    | some c, some more => some (c ++ more)
    | _, _ => none
  | 92 :: 117 :: a :: b :: c :: d :: rest =>
    match codePoint? [a, b, c, d], unescape rest with
    | some c, some more => some (c ++ more)
    | _, _ => none
  | 92 :: 85 :: a :: b :: c :: d :: e :: f :: g :: h :: rest =>
    match codePoint? [a, b, c, d, e, f, g, h], unescape rest with
    | some c, some more => some (c ++ more)
    | _, _ => none
  | 92 :: b :: rest =>
    match simpleEscape? b, unescape rest with
    | some c, some more => some (c :: more)
    | _, _ => none
  | b :: rest => if b = 92 then none else (unescape rest).map (b :: ·)

/-- A line feed, or the carriage return before one. -/
def isNewline (b : UInt8) : Bool := b == 10 || b == 13

def isSpace (b : UInt8) : Bool := b == 32 || b == 9

/-- The content of a basic string up to its closing quote, escapes as they are, and what follows. -/
def cutBasic : Bytes → Option (Bytes × Bytes)
  | [] => none
  | 34 :: rest => some ([], rest)
  | 92 :: b :: rest => (cutBasic rest).map fun (text, more) => (92 :: b :: text, more)
  | b :: rest =>
    if isNewline b then none else (cutBasic rest).map fun (text, more) => (b :: text, more)

/-- A basic string after its opening quote. -/
def basicString? (bs : Bytes) : Option (Bytes × Bytes) :=
  match cutBasic bs with
  | none => none
  | some (text, rest) => (unescape text).map (·, rest)

/-- A literal string after its opening quote. -/
def literalString? : Bytes → Option (Bytes × Bytes)
  | [] => none
  | 39 :: rest => some ([], rest)
  | b :: rest =>
    if isNewline b then none else (literalString? rest).map fun (text, more) => (b :: text, more)

/-- How many quotes in a row may end a string on many lines. An escaped backslash in front of them
allows one more. -/
def quoteLimit (afterBackslash : Bool) : Nat := if afterBackslash then 6 else 5

/-- The content of a string on many lines, after `run` quotes that may be its end, and what follows
it. -/
def cutLong (quote : UInt8) (escapes : Bool) (run : Nat) (afterBackslash : Bool) :
    Bytes → Option (Bytes × Bytes)
  | [] =>
    if 3 ≤ run ∧ run ≤ quoteLimit afterBackslash then some (List.replicate (run - 3) quote, [])
    else none
  | b :: rest =>
    if b = quote then cutLong quote escapes (run + 1) afterBackslash rest
    else if 3 ≤ run then
      if run ≤ quoteLimit afterBackslash then some (List.replicate (run - 3) quote, b :: rest)
      else none
    else
      let before := List.replicate run quote
      if escapes && b == 92 then
        match rest with
        | [] => none
        | c :: rest =>
          (cutLong quote escapes 0 (c == 92) rest).map fun (text, more) =>
            (before ++ 92 :: c :: text, more)
      else
        (cutLong quote escapes 0 false rest).map fun (text, more) => (before ++ b :: text, more)

/-- Without a newline at the start. -/
def withoutFirstNewline : Bytes → Bytes
  | 10 :: rest => rest
  | 13 :: 10 :: rest => rest
  | bs => bs

/-- Every backslash at the end of a line is removed, with the white space after it. -/
def joinLines : Bytes → Bytes
  | [] => []
  | 92 :: 92 :: rest => 92 :: 92 :: joinLines rest
  | b :: rest =>
    let isBlank := fun c => isSpace c || isNewline c
    if b = 92 ∧ (rest.takeWhile isBlank).contains 10 then joinLines (rest.dropWhile isBlank)
    else b :: joinLines rest
termination_by bs => bs.length
decreasing_by
  all_goals simp
  all_goals
    have := (List.dropWhile_sublist (l := rest) fun c => isSpace c || isNewline c).length_le
    omega

/-- A basic string on many lines after its opening quotes. -/
def longBasicString? (bs : Bytes) : Option (Bytes × Bytes) :=
  match cutLong 34 true 0 false bs with
  | none => none
  | some (text, rest) => (unescape (joinLines (withoutFirstNewline text))).map (·, rest)

/-- A literal string on many lines after its opening quotes. -/
def longLiteralString? (bs : Bytes) : Option (Bytes × Bytes) :=
  (cutLong 39 false 0 false bs).map fun (text, rest) => (withoutFirstNewline text, rest)

end Toml

end Swiftlet
