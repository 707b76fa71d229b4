import Swiftlet.Token

/-!
# From bytes to tokens

`scan` reads the piece of source at the head of a non-empty input: a token, blank space up to a
single byte, a comment, or a newline. `lex` repeats it from position 1:1 to the end of the input.

* Digits are `0` to `9`. Letters are those of Latin-1, one byte each.
* A number is digits, with a fraction only if a digit follows the point.
* A string runs to the next quote on its line and has no escapes.
* A comment starts with two slashes and ends before the newline.

`scan_append` says that the text of a piece and what is left make up the input again, and
`scan_text_ne_nil` that a piece is never empty, so `lex` ends.
-/

namespace Swiftlet

namespace Lexing

/-- Why a lexeme is refused. -/
inductive Cause where
  | brokenString
  | openString
  | unexpected (b : UInt8)
  deriving DecidableEq, Repr

/-- The first refused lexeme: where it starts and why. -/
structure Error where
  pos : Pos
  cause : Cause
  deriving DecidableEq, Repr

/-- A letter of the first 256 code points. -/
def isLetter (b : UInt8) : Bool :=
  (65 ≤ b && b ≤ 90) || (97 ≤ b && b ≤ 122) || b == 0xAA || b == 0xB5 || b == 0xBA ||
    (0xC0 ≤ b && b != 0xD7 && b != 0xF7)

/-- A byte that can start a name. -/
def startsName (b : UInt8) : Bool := isLetter b || b == 95

/-- A byte that can stand inside a name. -/
def inName (b : UInt8) : Bool := Bytes.isDigit b || startsName b

/-- A blank byte other than a newline: space, carriage return or tab. -/
def isBlank (b : UInt8) : Bool := b == 32 || b == 13 || b == 9

/-- The kind of a token spelled like a name. -/
def wordKind (word : Bytes) : Token.Kind :=
  if word = utf8 "true" then .bool true
  else if word = utf8 "false" then .bool false
  else match Keyword.ofSpelling? word with
    | some k => .keyword k
    | none => .identifier

/-- The punctuation or operator that is a single byte on its own. -/
def single? (b : UInt8) : Option Token.Kind :=
  if b = 40 then some (.punct .leftParen)
  else if b = 41 then some (.punct .rightParen)
  else if b = 123 then some (.punct .leftBrace)
  else if b = 125 then some (.punct .rightBrace)
  else if b = 44 then some (.punct .comma)
  else if b = 46 then some (.punct .period)
  else if b = 58 then some (.punct .colon)
  else if b = 59 then some (.punct .semicolon)
  else if b = 61 then some (.punct .equal)
  else if b = 43 then some (.operator .plus)
  else if b = 42 then some (.operator .star)
  else none

/-- What stands at the head of the input. -/
inductive Piece where
  | token (kind : Token.Kind) (lexeme : Bytes)
  | blank
  | newline
  deriving DecidableEq, Repr

/-- A piece with the bytes it takes up and the bytes after it. -/
structure Scanned where
  piece : Piece
  text : Bytes
  rest : Bytes
  deriving DecidableEq, Repr

/-- A token whose lexeme is its text. -/
def Scanned.plain (kind : Token.Kind) (text rest : Bytes) : Scanned :=
  ⟨.token kind text, text, rest⟩

/-- The string literal after its opening quote. -/
def scanString (bs : Bytes) : Except Cause Scanned :=
  let body := bs.takeWhile fun b => b != Bytes.quote && b != Bytes.newline
  match bs.dropWhile fun b => b != Bytes.quote && b != Bytes.newline with
  | [] => .error .openString
  | b :: rest =>
    if b = Bytes.quote then
      .ok ⟨.token .string (if body = [] then [Bytes.quote, Bytes.quote] else body),
        Bytes.quote :: (body ++ [Bytes.quote]), rest⟩
    else .error .brokenString

/-- The number that starts with the digit `b`. -/
def scanNumber (b : UInt8) (bs : Bytes) : Scanned :=
  let whole := b :: bs.takeWhile Bytes.isDigit
  match bs.dropWhile Bytes.isDigit with
  | 46 :: d :: rest =>
    if Bytes.isDigit d then
      .plain .float (whole ++ 46 :: d :: rest.takeWhile Bytes.isDigit) (rest.dropWhile Bytes.isDigit)
    else .plain .int whole (46 :: d :: rest)
  | rest => .plain .int whole rest

/-- The word that starts with `b`. -/
def scanWord (b : UInt8) (bs : Bytes) : Scanned :=
  let word := b :: bs.takeWhile inName
  .plain (wordKind word) word (bs.dropWhile inName)

/-- A minus sign or an arrow. -/
def scanMinus : Bytes → Scanned
  | 62 :: rest => .plain (.punct .arrow) [45, 62] rest
  | rest => .plain (.operator .minus) [45] rest

/-- A slash or a comment. -/
def scanSlash : Bytes → Scanned
  | 47 :: rest =>
    ⟨.blank, 47 :: 47 :: rest.takeWhile (· != Bytes.newline), rest.dropWhile (· != Bytes.newline)⟩
  | rest => .plain (.operator .slash) [47] rest

/-- The piece at the head of `b :: bs`. -/
def scan (b : UInt8) (bs : Bytes) : Except Cause Scanned :=
  match single? b with
  | some kind => .ok (.plain kind [b] bs)
  | none =>
    if b = 45 then .ok (scanMinus bs)
    else if b = 47 then .ok (scanSlash bs)
    else if isBlank b then .ok ⟨.blank, [b], bs⟩
    else if b = Bytes.newline then .ok ⟨.newline, [b], bs⟩
    else if b = Bytes.quote then scanString bs
    else if Bytes.isDigit b then .ok (scanNumber b bs)
    else if startsName b then .ok (scanWord b bs)
    else .error (.unexpected b)

/-! ## A piece and what is left make up the input -/

theorem scanString_append {bs : Bytes} {s : Scanned} (h : scanString bs = .ok s) :
    s.text ++ s.rest = Bytes.quote :: bs ∧ s.text ≠ [] := by
  unfold scanString at h
  have split_eq := List.takeWhile_append_dropWhile
    (p := fun b => b != Bytes.quote && b != Bytes.newline) (l := bs)
  cases hd : bs.dropWhile fun b => b != Bytes.quote && b != Bytes.newline with
  | nil => simp [hd] at h
  | cons b rest =>
      simp only [hd] at h
      split at h
      · rename_i hb
        cases h
        subst hb
        rw [hd] at split_eq
        refine ⟨?_, by simp⟩
        simp only [List.cons_append, List.append_assoc, List.nil_append]
        rw [split_eq]
      · cases h

theorem scanNumber_append (b : UInt8) (bs : Bytes) :
    (scanNumber b bs).text ++ (scanNumber b bs).rest = b :: bs ∧ (scanNumber b bs).text ≠ [] := by
  have split_eq := List.takeWhile_append_dropWhile (p := Bytes.isDigit) (l := bs)
  unfold scanNumber
  split
  · rename_i d rest hd
    rw [hd] at split_eq
    split
    · simp only [Scanned.plain, List.cons_append, List.append_assoc,
        List.takeWhile_append_dropWhile]
      exact ⟨by rw [split_eq], by simp⟩
    · simp only [Scanned.plain, List.cons_append]
      exact ⟨by rw [split_eq], by simp⟩
  · simp only [Scanned.plain, List.cons_append]
    exact ⟨by rw [split_eq], by simp⟩

theorem scanWord_append (b : UInt8) (bs : Bytes) :
    (scanWord b bs).text ++ (scanWord b bs).rest = b :: bs ∧ (scanWord b bs).text ≠ [] := by
  simp [scanWord, Scanned.plain, List.takeWhile_append_dropWhile]

theorem scanMinus_append (bs : Bytes) :
    (scanMinus bs).text ++ (scanMinus bs).rest = 45 :: bs ∧ (scanMinus bs).text ≠ [] := by
  unfold scanMinus
  split <;> simp [Scanned.plain]

theorem scanSlash_append (bs : Bytes) :
    (scanSlash bs).text ++ (scanSlash bs).rest = 47 :: bs ∧ (scanSlash bs).text ≠ [] := by
  unfold scanSlash
  split <;> simp [Scanned.plain, List.takeWhile_append_dropWhile]

/-- The text of a piece and what is left make up the input, and the text is not empty. -/
theorem scan_append {b : UInt8} {bs : Bytes} {s : Scanned} (h : scan b bs = .ok s) :
    s.text ++ s.rest = b :: bs ∧ s.text ≠ [] := by
  unfold scan at h
  split at h
  · cases h; simp [Scanned.plain]
  · split at h
    · rename_i hb; cases h; subst hb; exact scanMinus_append bs
    split at h
    · rename_i hb; cases h; subst hb; exact scanSlash_append bs
    split at h
    · cases h; simp
    split at h
    · cases h; simp
    split at h
    · rename_i hb; subst hb; exact scanString_append h
    split at h
    · cases h; exact scanNumber_append b bs
    split at h
    · cases h; exact scanWord_append b bs
    · cases h

theorem scan_rest_lt {b : UInt8} {bs : Bytes} {s : Scanned} (h : scan b bs = .ok s) :
    s.rest.length < (b :: bs).length := by
  obtain ⟨eq, ne⟩ := scan_append h
  rw [← eq, List.length_append]
  have := List.length_pos_iff.2 ne
  omega

/-! ## The whole input -/

/-- The tokens of an input whose first byte stands at `pos`. -/
def lexFrom (pos : Pos) : Bytes → Except Error (List Token)
  | [] => .ok [Token.endAt pos]
  | b :: bs =>
    match h : scan b bs with
    | .error cause => .error ⟨pos, cause⟩
    | .ok s =>
      have : s.rest.length < (b :: bs).length := scan_rest_lt h
      match s.piece with
      | .newline => lexFrom pos.nextLine s.rest
      | .blank => lexFrom (pos.right s.text.length) s.rest
      | .token kind lexeme =>
        match lexFrom (pos.right s.text.length) s.rest with
        | .error e => .error e
        | .ok ts => .ok (⟨kind, lexeme, pos⟩ :: ts)
termination_by bs => bs.length
decreasing_by all_goals assumption

/-- The tokens of a source text, ended by one end-of-file token, or the first lexeme that is
refused. -/
def lex (source : Bytes) : Except Error (List Token) := lexFrom Pos.start source

/-! ## Messages -/

/-- A code point below 256 in UTF-8. -/
def latin1 (b : UInt8) : Bytes :=
  if b < 0x80 then [b] else [(0xC0 : UInt8) ||| (b >>> 6), (0x80 : UInt8) ||| (b &&& 0x3F)]

def Cause.text : Cause → Bytes
  | .brokenString => utf8 "Strings must be on a single line."
  | .openString => utf8 "Unterminated string literal."
  | .unexpected b => utf8 "Unexpected character: " ++ latin1 b

/-- A lexical error's message for any wording. -/
def messageAt (pos : Pos) (text : Bytes) : Bytes :=
  utf8 "lex-error: " ++ pos.text ++ utf8 ": " ++ text

def Error.message (e : Error) : Bytes := messageAt e.pos e.cause.text

end Lexing

end Swiftlet
