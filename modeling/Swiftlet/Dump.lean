import Swiftlet.Bytes.Quoted
import Swiftlet.Decimal.Layout
import Swiftlet.Run
import Swiftlet.Tree

/-!
# Dumps

Tokens, trees and results as text for inspection. A record is written with the name of its type
and one field a line; fields that hold nothing (zero, false, empty text) are left out. Elements of
a list whose type says what they are leave their own type out.
-/

namespace Swiftlet

namespace Dump

/-- Two spaces for every level. -/
def indent (depth : Nat) : Bytes := List.replicate (2 * depth) 32

/-- A field with its value as text, or nothing if it is left out. -/
abbrev Field := Bytes × Option Bytes

def fieldText (depth : Nat) : Field → Bytes
  | (_, none) => []
  | (name, some v) => indent (depth + 1) ++ name ++ utf8 ": " ++ v ++ utf8 ",\n"

/-- A record at a level; `type` is what stands before its brace. -/
def record (depth : Nat) (type : Bytes) (fields : List Field) : Bytes :=
  type ++ utf8 "\x7b\n" ++ fields.flatMap (fieldText depth) ++ indent depth ++ utf8 "\x7d"

/-- A list at a level, its elements as text. -/
def list (depth : Nat) (type : Bytes) (items : List Bytes) : Bytes :=
  if items = [] then type ++ utf8 "\x7b\x7d"
  else
    type ++ utf8 "\x7b\n" ++ items.flatMap (fun v => indent (depth + 1) ++ v ++ utf8 ",\n") ++
      indent depth ++ utf8 "\x7d"

/-! ## Fields -/

def field (name : String) (v : Bytes) : Field := (utf8 name, some v)

def intField (name : String) (v : Int) : Field :=
  (utf8 name, if v = 0 then none else some (Bytes.ofInt v))

def textField (name : String) (v : Bytes) : Field :=
  (utf8 name, if v = [] then none else some (Quoted.quote v))

def typeField (name : String) (t : Option Ty) : Field :=
  (utf8 name, t.map fun t => utf8 "ast.BuiltinType(" ++ t.name ++ utf8 ")")

/-! ## Tokens -/

def pos (depth : Nat) (p : Pos) : Bytes :=
  record depth (utf8 "token.Pos") [intField "Line" p.line, intField "Column" p.column]

/-- A token; `type` is what stands before its brace. -/
def tokenWith (depth : Nat) (type : Bytes) (t : Token) : Bytes :=
  record depth type
    [textField "Lexeme" t.lexeme,
      (utf8 "Type",
        if t.kind = .string then none
        else some (utf8 "token.TokenType(" ++ t.kind.name ++ utf8 ")")),
      field "Pos" (pos (depth + 1) t.pos)]

def token (depth : Nat) (t : Token) : Bytes := tokenWith depth (utf8 "token.Token") t

/-- All tokens of a file, or `nil` if there are none to speak of. -/
def tokens (ts : Option (List Token)) : Bytes :=
  (match ts with
    | none => utf8 "nil"
    | some ts => list 0 (utf8 "[]token.Token") (ts.map (tokenWith 1 []))) ++ [Bytes.newline]

/-! ## Trees -/

/-- A declaration; `type` is what stands before its brace. -/
def declWith (depth : Nat) (type : Bytes) (d : Decl) : Bytes :=
  record depth type
    [(utf8 "Mutability", if d.mutable then some (utf8 "ast.Mutability(1)") else none),
      field "Identifier" (token (depth + 1) d.name), typeField "typ" d.type]

def decl (depth : Nat) (d : Decl) : Bytes := declWith depth (utf8 "&ast.VariableDeclaration") d

def signature (depth : Nat) (s : Signature) : Bytes :=
  record depth (utf8 "&ast.FunctionSignature")
    [field "Identifier" (token (depth + 1) s.name),
      field "Parameters" (list (depth + 1) (utf8 "[]*ast.VariableDeclaration")
        (s.params.map (declWith (depth + 2) []))),
      typeField "ReturnType" s.ret]

def nodesType : Bytes := utf8 "[]ast.Expression"

mutual

def node (depth : Nat) : Node → Bytes
  | .int t v =>
    record depth (utf8 "&ast.IntegerLiteral")
      [field "Token" (token (depth + 1) t), intField "Value" v.toInt]
  | .float t v =>
    record depth (utf8 "&ast.FloatLiteral")
      [field "Token" (token (depth + 1) t),
        (utf8 "Value", if v.toFloat == 0.0 then none else some (Decimal.text .wide v))]
  | .bool t v =>
    record depth (utf8 "&ast.BoolLiteral")
      [field "Token" (token (depth + 1) t),
        (utf8 "Value", if v then some (utf8 "true") else none)]
  | .string t v =>
    record depth (utf8 "&ast.StringLiteral")
      [field "Token" (token (depth + 1) t), textField "Value" v]
  | .decl d => decl depth d
  | .assign d value =>
    record depth (utf8 "&ast.Assignment")
      [field "Variable" (decl (depth + 1) d), field "Value" (node (depth + 1) value)]
  | .binary left op right =>
    record depth (utf8 "&ast.BinaryOperation")
      [field "Left" (node (depth + 1) left), field "Operator" (token (depth + 1) op),
        field "Right" (node (depth + 1) right)]
  | .ref name =>
    record depth (utf8 "&ast.PropertyAccess") [field "Identifier" (token (depth + 1) name)]
  | .call name args =>
    record depth (utf8 "&ast.FunctionCall")
      [field "Identifier" (token (depth + 1) name),
        field "Arguments" (list (depth + 1) nodesType (nodes (depth + 2) args))]
  | .signature s => signature depth s
  | .func s body =>
    record depth (utf8 "&ast.FunctionDeclaration")
      [field "Signature" (signature (depth + 1) s),
        field "Body" (list (depth + 1) nodesType (nodes (depth + 2) body))]
  | .cond t condition body =>
    record depth (utf8 "&ast.IfStatement")
      [field "Condition" (node (depth + 1) condition),
        field "Body" (list (depth + 1) nodesType (nodes (depth + 2) body)),
        field "IfToken" (token (depth + 1) t)]
  | .ret t value =>
    record depth (utf8 "&ast.ReturnStatement")
      [field "Value" (node (depth + 1) value), field "ReturnToken" (token (depth + 1) t)]
  | .print t args =>
    record depth (utf8 "&ast.PrintStatement")
      [field "Arguments" (list (depth + 1) nodesType (nodes (depth + 2) args)),
        field "PrintToken" (token (depth + 1) t)]

def nodes (depth : Nat) : List Node → List Bytes
  | [] => []
  | n :: rest => node depth n :: nodes depth rest

end

/-- The tree of a file, or `nil` if there is none. -/
def tree (ns : Option (List Node)) : Bytes :=
  (match ns with
    | none => utf8 "nil"
    | some ns => list 0 nodesType (nodes 1 ns)) ++ [Bytes.newline]

/-! ## Results -/

/-- The value of every completed statement, one a line. -/
def results (log : Run.Log) : Bytes :=
  log.flatMap fun (_, v) => v.kindName ++ utf8 ": " ++ v.text ++ [Bytes.newline]

end Dump

end Swiftlet
