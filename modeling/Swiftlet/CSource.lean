import Swiftlet.Bytes.Quoted
import Swiftlet.Decimal.Layout
import Swiftlet.Tree

/-!
# C source

`CSource.program` writes an analyzed program as C99: a prototype for every function but the entry
one, then the definitions in source order. The entry function returns `int`, as C wants it.

Nothing is checked here. A tree that was not analyzed may hold something that has no C form; the
generator then stops at the first such place, in the order in which it writes the text, and
`Fault` says what it was.
-/

namespace Swiftlet

namespace CSource

/-- A tree that has no C form. -/
inductive Fault where
  | noType
  | noFormat
  | notAnExpression
  | emptyPrint
  deriving DecidableEq, Repr

def Fault.message : Fault → Bytes
  | .noType => utf8 "Type has no C equivalent."
  | .noFormat => utf8 "Invalid type passed to `getFormatStringForType`."
  | .notAnExpression => utf8 "Expression node has invalid static type."
  | .emptyPrint => utf8 "runtime error: index out of range [0] with length 0"

/-- The types of the names of a function, latest first. -/
abbrev Variables := List (Bytes × Option Ty)

/-- What a body is written against. -/
structure Context where
  entry : Bytes
  program : List Node
  signature : Signature

/-! ## Types -/

def typeText : Option Ty → Except Fault Bytes
  | some .int => .ok (utf8 "int")
  | some .float => .ok (utf8 "double")
  | some .bool => .ok (utf8 "bool")
  | some .string => .ok (utf8 "const char*")
  | some .void => .ok (utf8 "void")
  | none => .error .noType

/-- The conversion that prints a value of a type. -/
def formatText : Option Ty → Except Fault Bytes
  | some .int => .ok (utf8 "%d")
  | some .float => .ok (utf8 "%f")
  | some .string | some .bool => .ok (utf8 "%s")
  | some .void | none => .error .noFormat

/-- The type of an expression, read off its leftmost operand. -/
def typeOf (program : List Node) (vars : Variables) : Node → Option Ty
  | .ref name => (vars.lookup name.lexeme).getD none
  | .binary left _ _ => typeOf program vars left
  | .call name _ =>
    match lastSignature? program name.lexeme with
    | some s => s.ret
    | none => some .void
  | n => n.literalType?

/-! ## Expressions -/

/-- A double as a C constant. -/
def floatText (v : Binary64) : Bytes := Decimal.withFraction [46, 101] (Decimal.text .compact v)

mutual

def expression : Node → Except Fault Bytes
  | .int _ v => .ok (Bytes.ofInt v.toInt)
  | .float _ v => .ok (floatText v)
  | .bool _ v => .ok (utf8 (if v then "true" else "false"))
  | .string _ v => .ok (Quoted.quote v)
  | .ref name => .ok name.lexeme
  | .binary left op right =>
    match expression left with
    | .error e => .error e
    | .ok l =>
      match expression right with
      | .error e => .error e
      | .ok r => .ok (utf8 "(" ++ l ++ utf8 " " ++ op.lexeme ++ utf8 " " ++ r ++ utf8 ")")
  | .call name args =>
    match expressions args with
    | .error e => .error e
    | .ok texts => .ok (name.lexeme ++ utf8 "(" ++ Bytes.join (utf8 ", ") texts ++ utf8 ")")
  | _ => .error .notAnExpression

def expressions : List Node → Except Fault (List Bytes)
  | [] => .ok []
  | n :: rest =>
    match expression n with
    | .error e => .error e
    | .ok t =>
      match expressions rest with
      | .error e => .error e
      | .ok ts => .ok (t :: ts)

end

/-! ## Statements -/

/-- A line at a depth of indentation. -/
def line (depth : Nat) (text : Bytes) : Bytes := List.replicate depth 9 ++ text ++ [Bytes.newline]

/-- A binding, and the variables after it. -/
def binding (vars : Variables) (depth : Nat) (d : Decl) (value : Node) :
    Except Fault (Bytes × Variables) :=
  match typeText d.type with
  | .error e => .error e
  | .ok type =>
    match expression value with
    | .error e => .error e
    | .ok v =>
      let qualifier := if d.mutable then [] else utf8 "const "
      .ok (line depth (qualifier ++ type ++ utf8 " " ++ d.name.lexeme ++ utf8 " = " ++ v ++ utf8 ";"),
        (d.name.lexeme, d.type) :: vars)

def printing (c : Context) (vars : Variables) (depth : Nat) : List Node → Except Fault Bytes
  | [] => .error .emptyPrint
  | arg :: _ =>
    let type := typeOf c.program vars arg
    match expression arg with
    | .error e => .error e
    | .ok v =>
      let v := if type = some .bool then utf8 "(" ++ v ++ utf8 ") ? \"true\" : \"false\"" else v
      match formatText type with
      | .error e => .error e
      | .ok f => .ok (line depth (utf8 "printf(\"" ++ f ++ utf8 "\\n\", " ++ v ++ utf8 ");"))

/-- A `return`. The value of a Void call is evaluated first and returned by nothing. -/
def returning (c : Context) (vars : Variables) (depth : Nat) (value : Node) : Except Fault Bytes :=
  match expression value with
  | .error e => .error e
  | .ok v =>
    if typeOf c.program vars value ≠ some .void then
      .ok (line depth (utf8 "return " ++ v ++ utf8 ";"))
    else
      let ret := if c.signature.name.lexeme = c.entry then "return 0;" else "return;"
      .ok (line depth (v ++ utf8 ";") ++ line depth (utf8 ret))

mutual

/-- A statement, and the variables after it. -/
def statement (c : Context) (vars : Variables) (depth : Nat) :
    Node → Except Fault (Bytes × Variables)
  | .assign d value => binding vars depth d value
  | .print _ args =>
    match printing c vars depth args with
    | .error e => .error e
    | .ok t => .ok (t, vars)
  | .ret _ value =>
    match returning c vars depth value with
    | .error e => .error e
    | .ok t => .ok (t, vars)
  | .cond _ condition body =>
    match expression condition with
    | .error e => .error e
    | .ok v =>
      match block c vars (depth + 1) body with
      | .error e => .error e
      | .ok (t, vars) =>
        .ok (line depth (utf8 "if (" ++ v ++ utf8 ") \x7b") ++ t ++ line depth (utf8 "\x7d"), vars)
  | n =>
    match expression n with
    | .error e => .error e
    | .ok v => .ok (line depth (v ++ utf8 ";"), vars)

/-- The statements of a body, and the variables after them. -/
def block (c : Context) (vars : Variables) (depth : Nat) :
    List Node → Except Fault (Bytes × Variables)
  | [] => .ok ([], vars)
  | n :: rest =>
    match statement c vars depth n with
    | .error e => .error e
    | .ok (t, vars) =>
      match block c vars depth rest with
      | .error e => .error e
      | .ok (ts, vars) => .ok (t ++ ts, vars)

end

/-! ## Functions -/

def parameters : List Decl → Except Fault (List Bytes)
  | [] => .ok []
  | p :: rest =>
    match typeText p.type with
    | .error e => .error e
    | .ok t =>
      match parameters rest with
      | .error e => .error e
      | .ok ts => .ok ((t ++ utf8 " " ++ p.name.lexeme) :: ts)

/-- A function's header. -/
def header (entry : Bytes) (s : Signature) : Except Fault Bytes :=
  match parameters s.params with
  | .error e => .error e
  | .ok params =>
    match typeText s.ret with
    | .error e => .error e
    | .ok ret =>
      let ret := if s.name.lexeme = entry then utf8 "int" else ret
      let params := if params = [] then utf8 "void" else Bytes.join (utf8 ", ") params
      .ok (ret ++ utf8 " " ++ s.name.lexeme ++ utf8 "(" ++ params ++ utf8 ")")

def definition (entry : Bytes) (program : List Node) (s : Signature) (body : List Node) :
    Except Fault Bytes :=
  let vars := (s.params.map fun p => (p.name.lexeme, p.type)).reverse
  match block ⟨entry, program, s⟩ vars 1 body with
  | .error e => .error e
  | .ok (text, _) =>
    match header entry s with
    | .error e => .error e
    | .ok h =>
      let last := if s.name.lexeme = entry then line 1 (utf8 "return 0;") else []
      .ok (h ++ utf8 " \x7b\n" ++ text ++ last ++ utf8 "\x7d\n")

/-! ## Whole programs -/

/-- Names in the order of their first appearance. -/
def firstAppearances (names : List Bytes) : List Bytes :=
  (names.foldl (fun seen n => if seen.contains n then seen else n :: seen) []).reverse

/-- The names of the functions, with or without a body. -/
def functionNames (program : List Node) : List Bytes :=
  firstAppearances ((program.filterMap Node.signature?).map (·.name.lexeme))

/-- One prototype a name, with the last signature of that name. -/
def prototypes (entry : Bytes) (program : List Node) : List Bytes → Except Fault Bytes
  | [] => .ok []
  | name :: rest =>
    if name = entry then prototypes entry program rest
    else match lastSignature? program name with
      | none => prototypes entry program rest
      | some s =>
        match header entry s with
        | .error e => .error e
        | .ok h =>
          match prototypes entry program rest with
          | .error e => .error e
          | .ok t => .ok (h ++ utf8 ";\n" ++ t)

/-- The definitions in order, an empty line before each but a first item. -/
def definitions (entry : Bytes) (program : List Node) (isFirst : Bool) :
    List Node → Except Fault Bytes
  | [] => .ok []
  | .func s body :: rest =>
    match definition entry program s body with
    | .error e => .error e
    | .ok d =>
      match definitions entry program false rest with
      | .error e => .error e
      | .ok t => .ok ((if isFirst then [] else [Bytes.newline]) ++ d ++ t)
  | _ :: rest => definitions entry program false rest

/-- The headers that the generated code needs. -/
def includes : Bytes := utf8 "#include <stdbool.h>\n#include <stdio.h>\n\n"

/-- A program as C source. -/
def program (entry : Bytes) (nodes : List Node) : Except Fault Bytes :=
  let names := functionNames nodes
  match prototypes entry nodes names with
  | .error e => .error e
  | .ok protos =>
    match definitions entry nodes true nodes with
    | .error e => .error e
    | .ok defs => .ok (includes ++ protos ++ (if 1 < names.length then [Bytes.newline] else []) ++ defs)

end CSource

end Swiftlet
