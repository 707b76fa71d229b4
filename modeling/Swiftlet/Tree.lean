import Swiftlet.Decimal.Binary64
import Swiftlet.Token

/-!
# Syntax trees

One type `Node` covers everything a program is made of: literals, references, calls, operators,
bindings, control flow and functions. A program is a list of nodes. Trees that no source text
gives, such as a `print` used as an argument, are trees too; the stages after parsing say what
they make of them.

* `Decl.resolve` fills in the type of a declaration, once.
* `Signature.paramIndex?` finds a parameter by name.
* `findFunction?` finds the first function of a name that has a body.
-/

namespace Swiftlet

/-- The name every program starts from unless told otherwise. -/
def defaultEntry : Bytes := utf8 "main"

/-- A name bound to a type. The type is missing until it has been inferred. -/
structure Decl where
  mutable : Bool
  name : Token
  type : Option Ty
  deriving DecidableEq, Repr

namespace Decl

/-- Why a type cannot be filled in. -/
inductive ResolveError where
  | already (name : Bytes) (type : Ty)
  | unknown (name : Bytes)
  deriving DecidableEq, Repr

def ResolveError.message : ResolveError → Bytes
  | already name type =>
    utf8 "type of `" ++ name ++ utf8 "` is already resolved to " ++ type.name
  | unknown name => utf8 "cannot resolve type of `" ++ name ++ utf8 "` to a placeholder"

/-- Fills in a missing type. A type that is there is never replaced. -/
def resolve (d : Decl) (type : Option Ty) : Except ResolveError Decl :=
  match d.type, type with
  | some t, _ => .error (.already d.name.lexeme t)
  | none, none => .error (.unknown d.name.lexeme)
  | none, some t => .ok { d with type := some t }

end Decl

/-- A function's name, parameters and return type. -/
structure Signature where
  name : Token
  params : List Decl
  ret : Option Ty
  deriving DecidableEq, Repr

namespace Signature

/-- The position of the first parameter called `name`. -/
def paramIndex? (s : Signature) (name : Bytes) : Option Nat :=
  s.params.findIdx? (·.name.lexeme = name)

/-- The first parameter called `name`. -/
def param? (s : Signature) (name : Bytes) : Option Decl :=
  s.params.find? (·.name.lexeme = name)

end Signature

inductive Node where
  | int (token : Token) (value : Int32)
  | float (token : Token) (value : Binary64)
  | bool (token : Token) (value : Bool)
  | string (token : Token) (value : Bytes)
  /-- A declaration without a value. -/
  | decl (d : Decl)
  /-- A declaration with a value. -/
  | assign (d : Decl) (value : Node)
  | binary (left : Node) (op : Token) (right : Node)
  /-- A name used as a value. -/
  | ref (name : Token)
  | call (name : Token) (args : List Node)
  /-- A function without a body. -/
  | signature (s : Signature)
  /-- A function with a body. -/
  | func (s : Signature) (body : List Node)
  /-- An `if` statement; there is no other branch. -/
  | cond (token : Token) (condition : Node) (body : List Node)
  | ret (token : Token) (value : Node)
  | print (token : Token) (args : List Node)

namespace Node

/-- The token that stands for a node in error messages. -/
def token : Node → Token
  | int t _ | float t _ | bool t _ | string t _ => t
  | decl d => d.name
  | assign d _ => d.name
  | binary _ op _ => op
  | ref name => name
  | call name _ => name
  | signature s => s.name
  | func s _ => s.name
  | cond t _ _ => t
  | ret t _ => t
  | print t _ => t

/-- The name of the kind of node, as internal error messages give it. -/
def kindName : Node → Bytes
  | int .. => utf8 "*ast.IntegerLiteral"
  | float .. => utf8 "*ast.FloatLiteral"
  | bool .. => utf8 "*ast.BoolLiteral"
  | string .. => utf8 "*ast.StringLiteral"
  | decl .. => utf8 "*ast.VariableDeclaration"
  | assign .. => utf8 "*ast.Assignment"
  | binary .. => utf8 "*ast.BinaryOperation"
  | ref .. => utf8 "*ast.PropertyAccess"
  | call .. => utf8 "*ast.FunctionCall"
  | signature .. => utf8 "*ast.FunctionSignature"
  | func .. => utf8 "*ast.FunctionDeclaration"
  | cond .. => utf8 "*ast.IfStatement"
  | ret .. => utf8 "*ast.ReturnStatement"
  | print .. => utf8 "*ast.PrintStatement"

/-- The type of a literal. -/
def literalType? : Node → Option Ty
  | int .. => some .int
  | float .. => some .float
  | bool .. => some .bool
  | string .. => some .string
  | _ => none

def isReturn : Node → Bool
  | ret .. => true
  | _ => false

/-- The signature of a top-level function, with or without a body. -/
def signature? : Node → Option Signature
  | signature s => some s
  | func s _ => some s
  | _ => none

end Node

/-- The first function called `name` that has a body. -/
def findFunction? (program : List Node) (name : Bytes) : Option (Signature × List Node) :=
  program.findSome? fun
    | .func s body => if s.name.lexeme = name then some (s, body) else none
    | _ => none

/-- The last signature called `name`, of a function with or without a body. -/
def lastSignature? (program : List Node) (name : Bytes) : Option Signature :=
  (program.filterMap Node.signature?).reverse.find? (·.name.lexeme = name)

end Swiftlet
