import Swiftlet.Bytes

/-!
# Tokens

A token is a kind, the text it carries and the position of its first byte. Kinds are grouped by
what the grammar does with them: literals, names, keywords (among them the type names), binary
operators and punctuation.

* `Token.Kind.name` is how a kind is called in messages; `Token.Kind.ofName?` reads it back.
* `Token.Kind.ofCode` numbers the kinds; numbers that stand for no kind give `unknown`.
* `Operator.precedence` orders the binary operators.
-/

namespace Swiftlet

/-- The types a program can name. -/
inductive Ty where
  | void
  | int
  | float
  | string
  | bool
  deriving DecidableEq, Repr

namespace Ty

def name : Ty → Bytes
  | void => utf8 "Void"
  | int => utf8 "Int"
  | float => utf8 "Float"
  | string => utf8 "String"
  | bool => utf8 "Bool"

def isNumeric : Ty → Bool
  | int | float => true
  | _ => false

end Ty

/-- The name of a type that may not be known yet. -/
def tyName : Option Ty → Bytes
  | some t => t.name
  | none => utf8 "_"

/-- A line and a column, both counted from one; the column counts bytes. -/
structure Pos where
  line : Int
  column : Int
  deriving DecidableEq, Repr

namespace Pos

def start : Pos := ⟨1, 1⟩

/-- The position of nothing, below every real one. -/
def zero : Pos := ⟨0, 0⟩

/-- `n` bytes further on the same line. -/
def right (p : Pos) (n : Nat) : Pos := ⟨p.line, p.column + n⟩

/-- The first byte of the next line. -/
def nextLine (p : Pos) : Pos := ⟨p.line + 1, 1⟩

/-- `line:column`. -/
def text (p : Pos) : Bytes := Bytes.ofInt p.line ++ utf8 ":" ++ Bytes.ofInt p.column

end Pos

inductive Keyword where
  | func
  | letBinding
  | varBinding
  | ifBranch
  | elseBranch
  | returning
  | printing
  | enumeration
  | caseLabel
  | type (t : Ty)
  deriving DecidableEq, Repr

namespace Keyword

def spelling : Keyword → Bytes
  | func => utf8 "func"
  | letBinding => utf8 "let"
  | varBinding => utf8 "var"
  | ifBranch => utf8 "if"
  | elseBranch => utf8 "else"
  | returning => utf8 "return"
  | printing => utf8 "print"
  | enumeration => utf8 "enum"
  | caseLabel => utf8 "case"
  | type t => t.name

def all : List Keyword :=
  [func, letBinding, varBinding, ifBranch, elseBranch, returning, printing, enumeration, caseLabel,
    type .int, type .float, type .bool, type .string, type .void]

/-- The keyword spelled `bs`. -/
def ofSpelling? (bs : Bytes) : Option Keyword := all.find? (·.spelling = bs)

end Keyword

inductive Operator where
  | plus
  | minus
  | star
  | slash
  deriving DecidableEq, Repr

namespace Operator

def spelling : Operator → Bytes
  | plus => utf8 "+"
  | minus => utf8 "-"
  | star => utf8 "*"
  | slash => utf8 "/"

/-- Multiplication and division bind tighter than addition and subtraction. -/
def precedence : Operator → Nat
  | plus | minus => 140
  | star | slash => 150

end Operator

inductive Punct where
  | colon
  | semicolon
  | leftParen
  | rightParen
  | leftBrace
  | rightBrace
  | comma
  | period
  | arrow
  | equal
  deriving DecidableEq, Repr

namespace Punct

def spelling : Punct → Bytes
  | colon => utf8 ":"
  | semicolon => utf8 ";"
  | leftParen => utf8 "("
  | rightParen => utf8 ")"
  | leftBrace => utf8 "\x7b"
  | rightBrace => utf8 "\x7d"
  | comma => utf8 ","
  | period => utf8 "."
  | arrow => utf8 "->"
  | equal => utf8 "="

end Punct

/-- What a token is. `unknown` is the kind of a token that no rule of the grammar accepts. -/
inductive Token.Kind where
  | string
  | int
  | float
  | bool (value : Bool)
  | identifier
  | endOfFile
  | keyword (k : Keyword)
  | punct (p : Punct)
  | operator (o : Operator)
  | unknown
  deriving DecidableEq, Repr

/-- A kind, the text it carries and the position of its first byte. A string literal carries its
text without the quotes, except that an empty one carries the two quotes. -/
structure Token where
  kind : Token.Kind
  lexeme : Bytes
  pos : Pos
  deriving DecidableEq, Repr

namespace Token

namespace Kind

def name : Kind → Bytes
  | string => utf8 "string"
  | int => utf8 "int"
  | float => utf8 "float"
  | bool true => utf8 "true"
  | bool false => utf8 "false"
  | identifier => utf8 "identifier"
  | endOfFile => utf8 "end of file"
  | keyword k => k.spelling
  | punct p => p.spelling
  | operator o => o.spelling
  | unknown => utf8 "unknown"

/-- The kinds in the order of their numbers; a number that only separates two groups is
`unknown`. -/
def byCode : List Kind :=
  [string, int, float, bool true, bool false, identifier, endOfFile, unknown] ++
    Keyword.all.map keyword ++ [unknown] ++
    [punct .colon, punct .semicolon, punct .leftParen, punct .rightParen, punct .leftBrace,
      punct .rightBrace, punct .comma, punct .period, punct .arrow, punct .equal, unknown,
      operator .plus, operator .minus, operator .star, operator .slash]

/-- The kind with number `code`. -/
def ofCode (code : Int) : Kind :=
  match code with
  | .ofNat n => byCode.getD n unknown
  | .negSucc _ => unknown

/-- The kind called `bs`. -/
def ofName? (bs : Bytes) : Option Kind := byCode.find? (·.name = bs)

def isOperator : Kind → Bool
  | operator _ => true
  | _ => false

def isKeyword : Kind → Bool
  | keyword _ => true
  | _ => false

/-- Whether the kind is that of a literal value. -/
def isConstant : Kind → Bool
  | string | int | float | bool _ => true
  | _ => false

/-- The type that a type name stands for. -/
def typeName? : Kind → Option Ty
  | keyword (.type t) => some t
  | _ => none

/-- The group of operators a kind belongs to: additive, multiplicative or none. -/
inductive Group where
  | none
  | additive
  | multiplicative
  deriving DecidableEq, Repr

def group : Kind → Group
  | operator .plus | operator .minus => .additive
  | operator .star | operator .slash => .multiplicative
  | _ => .none

/-- The binding power of a kind used as a binary operator. Whatever is not an operator lies below
every operator. -/
def precedence : Kind → Int
  | operator o => o.precedence
  | _ => -2147483648

end Kind

/-- The token that ends a token list, at `p`. -/
def endAt (p : Pos) : Token := ⟨.endOfFile, [0], p⟩

/-- The token of an error that has a position and nothing else. -/
def bare (p : Pos) : Token := ⟨.string, [], p⟩

end Token

end Swiftlet
