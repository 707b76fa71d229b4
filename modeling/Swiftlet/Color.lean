import Swiftlet.Bytes

/-!
# Colors

Text in a color for a terminal: an escape sequence before it and one after it that resets the
terminal. Whether colors are used at all is a parameter, so that what is written can also be
plain.
-/

namespace Swiftlet

inductive Color where
  | green
  | yellow
  | blue
  | magenta
  | cyan
  | faint
  | boldRed
  deriving DecidableEq, Repr

namespace Color

/-- The parameters of the escape sequence. -/
def code : Color → Bytes
  | green => utf8 "32"
  | yellow => utf8 "33"
  | blue => utf8 "34"
  | magenta => utf8 "35"
  | cyan => utf8 "36"
  | faint => utf8 "2"
  | boldRed => utf8 "31;1"

/-- The escape sequence that turns a color on. -/
def start (c : Color) : Bytes := utf8 "\x1b[" ++ c.code ++ utf8 "m"

/-- The escape sequence that turns all colors off. -/
def reset : Bytes := utf8 "\x1b[0m"

/-- `text` in a color, if colors are on. -/
def paint (on : Bool) (c : Color) (text : Bytes) : Bytes :=
  if on then c.start ++ text ++ reset else text

end Color

end Swiftlet
