import Swiftlet.Tree

/-!
# What can be wrong with a program that parses

An error is a cause and the token it is shown at. `Error.message` is the one place that words the
causes.
-/

namespace Swiftlet

namespace Typing

inductive Cause where
  /-- The program does not start with the entry function. -/
  | entryPoint (name : Bytes)
  | functionRedeclared (name : Bytes) (count : Nat)
  | arity (name : Bytes) (expected got : Nat)
  | mismatch (expected got : Option Ty)
  /-- The argument at `position`, counted from zero, does not have its parameter's type. -/
  | argument (name : Bytes) (position : Nat) (expected got : Option Ty)
  | redeclared (name : Bytes)
  /-- A binding with the name of a parameter. -/
  | immutable (name : Bytes)
  | unassigned (name : Bytes)
  | undeclared (name : Bytes)
  /-- A variable of the function that is not visible here. -/
  | useBeforeDeclaration (name : Bytes)
  | unknownFunction (name : Bytes)
  | operand (operator : Bytes) (type : Ty)
  | voidParameter
  /-- An expression without a usable type where a value is needed. -/
  | noValue
  | emptyPrint
  | notAFunction
  | nestedFunction
  /-- A declaration that is left without a type. -/
  | unresolved (name : Bytes)
  deriving DecidableEq, Repr

structure Error where
  cause : Cause
  token : Token
  deriving DecidableEq, Repr

/-- A name in backquotes. -/
def quoted (name : Bytes) : Bytes := utf8 "`" ++ name ++ utf8 "`"

/-- A type in apostrophes. -/
def quotedTy (t : Option Ty) : Bytes := utf8 "'" ++ tyName t ++ utf8 "'"

def Cause.text : Cause → Bytes
  | .entryPoint name =>
    utf8 "The first top-level declaration must be the " ++ quoted name ++ utf8 " function."
  | .functionRedeclared name count =>
    utf8 "Function " ++ quoted name ++ utf8 " is declared " ++ Bytes.ofNat count ++ utf8 " times."
  | .arity name expected got =>
    utf8 "Function " ++ quoted name ++ utf8 " requires " ++ Bytes.ofNat expected ++
      utf8 " parameters. Received " ++ Bytes.ofNat got ++ utf8 " arguments instead."
  | .mismatch expected got =>
    utf8 "Expected type: " ++ quotedTy expected ++ utf8 ", got: " ++ quotedTy got ++ utf8 "."
  | .argument name position expected got =>
    utf8 "Mismatched type for positional argument " ++ Bytes.ofNat (position + 1) ++ utf8 " of " ++
      quoted name ++ utf8 ". Expected: " ++ quotedTy expected ++ utf8 ", got: " ++ quotedTy got ++
      utf8 "."
  | .redeclared name => utf8 "Redeclaration of variable " ++ quoted name ++ utf8 "."
  | .immutable name => utf8 "Parameter " ++ quoted name ++ utf8 " cannot be modified."
  | .unassigned name =>
    utf8 "Variable " ++ quoted name ++ utf8 " must be initialized where it is declared."
  | .undeclared name => utf8 "Variable " ++ quoted name ++ utf8 " is not declared."
  | .useBeforeDeclaration name =>
    utf8 "Variable " ++ quoted name ++ utf8 " is used before it is declared."
  | .unknownFunction name => utf8 "Call to undeclared function " ++ quoted name ++ utf8 "."
  | .operand operator type =>
    utf8 "Operator: '" ++ operator ++
      utf8 "' can only be used on numeric types (e.g. `Int`, `Float`), got: " ++
      quotedTy (some type) ++ utf8 "."
  | .voidParameter => utf8 "Parameters cannot have type `Void`."
  | .noValue => utf8 "Expression of type `Void` cannot be used as a value."
  | .emptyPrint => utf8 "`print` requires an argument."
  | .notAFunction => utf8 "Only function declarations are allowed at the top level."
  | .nestedFunction => utf8 "Functions can only be declared at the top level."
  | .unresolved name => utf8 "Type of " ++ quoted name ++ utf8 " could not be inferred."

def Error.message (e : Error) : Bytes :=
  utf8 "analysis-error: " ++ e.token.pos.text ++ utf8 ": " ++ e.cause.text

end Typing

end Swiftlet
