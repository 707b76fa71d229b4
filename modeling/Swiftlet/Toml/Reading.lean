import Swiftlet.Toml.Number
import Swiftlet.Toml.Text

/-!
# Reading TOML

`read` turns the text of a file into its statements. A statement ends with its line; arrays and
inline tables may go on over several lines, with comments, and may end with a comma. The text has
to be well-formed UTF-8 without control characters other than tabs and line ends.
-/

namespace Swiftlet

namespace Toml

/-! ## Gaps -/

def skipSpace (bs : Bytes) : Bytes := bs.dropWhile isSpace

/-- Without the white space, line ends and comments at the start. -/
def skipGap (inComment : Bool) : Bytes → Bytes
  | [] => []
  | b :: rest =>
    if inComment then skipGap (b ≠ 10) rest
    else if isSpace b || isNewline b then skipGap false rest
    else if b = 35 then skipGap true rest
    else b :: rest

/-- What follows the end of a line, if only a comment stands before it. -/
def endOfLine? (bs : Bytes) : Option Bytes :=
  match skipSpace bs with
  | [] => some []
  | b :: rest =>
    if b = 35 then some (rest.dropWhile (· ≠ 10))
    else if isNewline b then some rest
    else none

/-! ## Keys -/

/-- One part of a key: bare, or a string on one line. -/
def keyPart? (bs : Bytes) : Option (Bytes × Bytes) :=
  match bs with
  | 34 :: rest => basicString? rest
  | 39 :: rest => literalString? rest
  | _ =>
    let part := bs.takeWhile isBareByte
    if part = [] then none else some (part, bs.dropWhile isBareByte)

/-- A dotted key of at most `n` parts, and what follows it and the white space after it. -/
def key? : Nat → Bytes → Option (Key × Bytes)
  | 0, _ => none
  | n + 1, bs =>
    match keyPart? (skipSpace bs) with
    | none => none
    | some (part, rest) =>
      match skipSpace rest with
      | 46 :: rest => (key? n rest).map fun (key, rest) => (part :: key, rest)
      | rest => some ([part], rest)

/-! ## Values -/

/-- A value that holds no other, and what follows it. -/
def scalar? (bs : Bytes) : Option (Scalar × Bytes) :=
  let string := fun (s : Bytes × Bytes) => (Scalar.string s.1, s.2)
  match bs with
  | 34 :: 34 :: 34 :: rest => (longBasicString? rest).map string
  | 39 :: 39 :: 39 :: rest => (longLiteralString? rest).map string
  | 34 :: rest => (basicString? rest).map string
  | 39 :: rest => (literalString? rest).map string
  | 116 :: 114 :: 117 :: 101 :: rest => some (.bool true, rest)
  | 102 :: 97 :: 108 :: 115 :: 101 :: rest => some (.bool false, rest)
  | 105 :: 110 :: 102 :: rest => some (.float (Binary64.ofMagnitude false Binary64.infinityBits), rest)
  | 110 :: 97 :: 110 :: rest => some (.float (Binary64.nan false), rest)
  | _ => number? bs

mutual

/-- A value and what follows it. Every function here goes at most `fuel` calls deep. -/
def value? (fuel : Nat) (bs : Bytes) : Option (Expr × Bytes) :=
  match fuel with
  | 0 => none
  | fuel + 1 =>
    match skipSpace bs with
    | 91 :: rest => (items? fuel rest).map fun (items, rest) => (.array items, rest)
    | 123 :: rest => (entries? fuel rest).map fun (entries, rest) => (.table entries, rest)
    | rest => (scalar? rest).map fun (v, rest) => (.scalar v, rest)

/-- The items of an array up to its closing bracket. -/
def items? (fuel : Nat) (bs : Bytes) : Option (List Expr × Bytes) :=
  match fuel with
  | 0 => none
  | fuel + 1 =>
    match skipGap false bs with
    | 93 :: rest => some ([], rest)
    | rest =>
      match value? fuel rest with
      | none => none
      | some (v, rest) =>
        match skipGap false rest with
        | 44 :: rest => (items? fuel rest).map fun (vs, rest) => (v :: vs, rest)
        | 93 :: rest => some ([v], rest)
        | _ => none

/-- The entries of an inline table up to its closing brace. -/
def entries? (fuel : Nat) (bs : Bytes) : Option (List Entry × Bytes) :=
  match fuel with
  | 0 => none
  | fuel + 1 =>
    match skipGap false bs with
    | 125 :: rest => some ([], rest)
    | rest =>
      match key? fuel rest with
      | some (key, 61 :: rest) =>
        match value? fuel rest with
        | none => none
        | some (v, rest) =>
          match skipGap false rest with
          | 44 :: rest => (entries? fuel rest).map fun (es, rest) => (.mk key v :: es, rest)
          | 125 :: rest => some ([.mk key v], rest)
          | _ => none
      | _ => none

end

/-! ## Statements -/

def newlines (bs : Bytes) : Nat := bs.count 10

/-- One statement and what follows its line. `line` gives the line of a rest of the file. -/
def statement? (fuel : Nat) (line : Bytes → Nat) (bs : Bytes) : Option (Statement × Bytes) :=
  match bs with
  | 91 :: 91 :: rest =>
    match key? fuel rest with
    | some (key, 93 :: 93 :: rest) => (endOfLine? rest).map (.element key (line bs), ·)
    | _ => none
  | 91 :: rest =>
    match key? fuel rest with
    | some (key, 93 :: rest) => (endOfLine? rest).map (.table key (line bs), ·)
    | _ => none
  | _ =>
    match key? fuel bs with
    | some (key, 61 :: start) =>
      match value? fuel start with
      | none => none
      | some (v, rest) =>
        let place := match v with
          | .scalar _ => line rest
          | _ => line start
        (endOfLine? rest).map (.assign key v place, ·)
    | _ => none

/-- The statements of a rest of the file, at most `n` of them; or the line of the first one that is
not well-formed. -/
def statements (fuel : Nat) (line : Bytes → Nat) : Nat → Bytes → Except Nat (List Statement)
  | 0, _ => .ok []
  | n + 1, bs =>
    match skipGap false bs with
    | [] => .ok []
    | rest =>
      match statement? fuel line rest with
      | none => .error (line rest)
      | some (s, more) =>
        match statements fuel line n more with
        | .error e => .error e
        | .ok ss => .ok (s :: ss)

/-- Whether every carriage return stands before a line feed and there is no other control
character than tabs and line ends. -/
def controlsOk : Bytes → Bool
  | [] => true
  | 13 :: 10 :: rest => controlsOk rest
  | b :: rest => (b == 9 || b == 10 || (32 ≤ b && b ≠ 127)) && controlsOk rest

/-- Without a byte order mark at the start. -/
def withoutMark : Bytes → Bytes
  | 0xEF :: 0xBB :: 0xBF :: rest => rest
  | 0xFF :: 0xFE :: rest => rest
  | 0xFE :: 0xFF :: rest => rest
  | bs => bs

/-- The statements of a file, or the line of the first one that is not well-formed. -/
def read (text : Bytes) : Except Nat (List Statement) :=
  let text := withoutMark text
  if Utf8.isValid text && controlsOk text then
    let line := fun rest => 1 + newlines text - newlines rest
    statements (2 * text.length + 2) line (text.length + 1) text
  else .error 1

end Toml

end Swiftlet
