import Swiftlet.Decimal.Numeral
import Swiftlet.Token

/-!
# Modules of LLVM instructions

A module is a list of string constants and a list of functions; a function without blocks is
declared elsewhere. Only what the compiler emits is here: five types, slots on the stack,
arithmetic, calls and branches.

An operand that is the result of an instruction says where that instruction stands (`Site`), so
results need no names until the module is printed. Blocks are named by their number in the
function, functions by their number in the module.
-/

namespace Swiftlet

namespace IR

inductive Ty where
  | void
  | i1
  | i32
  | double
  /-- A pointer to bytes. -/
  | pointer
  deriving DecidableEq, Repr

def Ty.text : Ty → Bytes
  | .void => utf8 "void"
  | .i1 => utf8 "i1"
  | .i32 => utf8 "i32"
  | .double => utf8 "double"
  | .pointer => utf8 "i8*"

/-- Where an instruction stands: its block and its place in it. -/
structure Site where
  block : Nat
  index : Nat
  deriving DecidableEq, Repr

inductive Operand where
  | int (v : Int32)
  | double (v : Binary64)
  | bool (v : Bool)
  /-- The first byte of a constant of `size` bytes. -/
  | string (global : Nat) (size : Nat)
  | param (index : Nat) (type : Ty)
  | result (site : Site) (type : Ty)
  deriving DecidableEq, Repr

def Operand.type : Operand → Ty
  | .int _ => .i32
  | .double _ => .double
  | .bool _ => .i1
  | .string .. => .pointer
  | .param _ t => t
  | .result _ t => t

/-- Arithmetic on two operands of the same type. -/
inductive Arithmetic where
  | add
  | sub
  | mul
  | sdiv
  | fadd
  | fsub
  | fmul
  | fdiv
  deriving DecidableEq, Repr

def Arithmetic.text : Arithmetic → Bytes
  | .add => utf8 "add"
  | .sub => utf8 "sub"
  | .mul => utf8 "mul"
  | .sdiv => utf8 "sdiv"
  | .fadd => utf8 "fadd"
  | .fsub => utf8 "fsub"
  | .fmul => utf8 "fmul"
  | .fdiv => utf8 "fdiv"

inductive Instruction where
  /-- A new slot for a value of a type. -/
  | alloca (type : Ty)
  | store (value : Operand) (slot : Site)
  | load (type : Ty) (slot : Site)
  | arithmetic (op : Arithmetic) (left right : Operand)
  /-- A Bool widened to 32 bits. -/
  | zext (value : Operand)
  /-- A call of the function with number `callee`, which returns `ret`. -/
  | call (callee : Nat) (ret : Ty) (args : List Operand)
  deriving DecidableEq, Repr

/-- Whether an instruction is written with its result. A call that returns nothing is not. -/
def Instruction.showsResult : Instruction → Bool
  | .store .. => false
  | .call _ ret _ => ret ≠ .void
  | _ => true

/-- Whether the result of an instruction takes a number. What is loaded from a slot of nothing is
written as a result, but takes none. -/
def Instruction.isNumbered : Instruction → Bool
  | .load t _ => t ≠ .void
  | i => i.showsResult

inductive Terminator where
  | ret (value : Option Operand)
  | br (target : Nat)
  | condBr (condition : Operand) (ifTrue ifFalse : Nat)
  deriving DecidableEq, Repr

structure Block where
  instructions : List Instruction
  terminator : Option Terminator
  deriving DecidableEq, Repr

def Block.empty : Block := ⟨[], none⟩

structure Param where
  name : Bytes
  type : Ty
  deriving DecidableEq, Repr

structure Function where
  name : Bytes
  params : List Param
  ret : Ty
  variadic : Bool
  /-- Whether the function is visible in this module only. -/
  hidden : Bool
  blocks : List Block
  deriving DecidableEq, Repr

/-- A constant byte string. A constant without a name is numbered. -/
structure Global where
  name : Bytes
  content : Bytes
  deriving DecidableEq, Repr

structure Module where
  sourceName : Bytes
  globals : List Global
  functions : List Function
  deriving DecidableEq, Repr

/-- The external function that `print` calls. -/
def printf : Function := ⟨utf8 "printf", [⟨[], .pointer⟩], .i32, true, false, []⟩

/-! ## Names in messages -/

/-- A decimal number of 64 bits with an optional sign. -/
def wholeNumber? (name : Bytes) : Option Int :=
  (Numeral.int? name).filter fun v => -9223372036854775808 ≤ v ∧ v ≤ 9223372036854775807

/-- A name as messages show it and as it is looked up: a number is put in quotes, which tells it
from the number of something without a name, and no name at all is number zero. -/
def shownName (name : Bytes) : Bytes :=
  if name = [] then utf8 "0"
  else match wholeNumber? name with
    | some v => [Bytes.quote] ++ Bytes.ofInt v ++ [Bytes.quote]
    | none => name

/-- The first function that is shown as `name`. -/
def Module.find? (m : Module) (name : Bytes) : Option Nat :=
  m.functions.findIdx? (fun f => shownName f.name = name)

end IR

end Swiftlet
