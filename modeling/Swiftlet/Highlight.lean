import Swiftlet.Bytes.Utf8
import Swiftlet.Color
import Swiftlet.Token.Lexing

/-!
# Highlighted source

A line of source with its literals and keywords in color. Only color is added: without the escape
sequences the line is what it was. A line that does not lex is left as it is.
-/

namespace Swiftlet

namespace Highlight

/-- The color of a kind of token; some have none. -/
def color? : Token.Kind → Option Color
  | .string => some .green
  | .int | .float => some .magenta
  | .bool _ => some .blue
  | .keyword (.type _) => some .cyan
  | .keyword _ => some .blue
  | _ => none

/-- How many bytes of source a token takes. The lexeme of a string has lost its quotes, unless the
string is empty. -/
def width (t : Token) : Nat :=
  match t.kind with
  | .string => if t.lexeme = [Bytes.quote, Bytes.quote] then 2 else t.lexeme.length + 2
  | _ => t.lexeme.length

/-- `text` in the color of a token. -/
def shade (on : Bool) (t : Token) (text : Bytes) : Bytes :=
  match color? t.kind with
  | some c => c.paint on text
  | none => text

/-- The rest of the first line, which starts `done` bytes into it, with its tokens shaded. -/
def shadeFrom (on : Bool) (done : Nat) (rest : Bytes) : List Token → Bytes
  | [] => rest
  | t :: tokens =>
    if t.kind = .endOfFile ∨ t.pos.line ≠ 1 then rest
    else
      let gap := t.pos.column.toNat - 1 - done
      let n := width t
      if t.pos.column.toNat - 1 < done ∨ rest.length < gap + n then rest
      else
        rest.take gap ++ shade on t ((rest.drop gap).take n) ++
          shadeFrom on (done + gap + n) ((rest.drop gap).drop n) tokens

/-- A text in which every stray byte is the replacement character. -/
def scrub (bs : Bytes) : Bytes :=
  (Utf8.runes bs).flatMap fun
    | .point _ text => text
    | .stray _ => Utf8.encode 0xFFFD

end Highlight

/-- A line of source in color, if colors are on. Stray bytes become replacement characters. -/
def highlight (on : Bool) (line : Bytes) : Bytes :=
  let line := Highlight.scrub line
  match Lexing.lex line with
  | .error _ => line
  | .ok tokens => Highlight.shadeFrom on 0 line tokens

end Swiftlet
