import Mathlib.Logic.Relation
import Swiftlet.IR.Module

/-!
# Executing modules

The usual meaning of the instructions, as a machine that takes one step at a time.

* `Val` — what an operand comes to. A pointer is the first byte of a constant of the module.
* `Activation` — one active call: where it stands, its arguments, the results of the instructions
  it has executed and its slots. A slot belongs to the instruction that made it.
* `Execution` — the active calls, innermost first, and the arguments of every call of `printf`.
* `step` — one instruction or terminator. There is no step where the meaning is undefined: division
  by zero, a quotient out of range, a result or a slot that is not there, a value of the wrong type,
  the end of a block without a terminator.

Integers have 32 bits and wrap around. What `printf` returns is left open, so it has no result. An
execution has ended when no call is active.

Principal result: `Prints.unique`, that a function prints one thing.
-/

namespace Swiftlet

namespace IR

inductive Val where
  | i1 (v : Bool)
  | i32 (v : Int32)
  | double (v : Float)
  | pointer (global : Nat)
  deriving DecidableEq, Repr

def Val.type : Val → Ty
  | .i1 _ => .i1
  | .i32 _ => .i32
  | .double _ => .double
  | .pointer _ => .pointer

/-- One active call. A slot that has not been stored to holds nothing. -/
structure Activation where
  function : Nat
  block : Nat
  index : Nat
  args : List Val
  results : Site → Option Val
  slots : Site → Option (Option Val)

namespace Activation

/-- A call about to begin. -/
def enter (function : Nat) (args : List Val) : Activation :=
  ⟨function, 0, 0, args, fun _ => none, fun _ => none⟩

/-- Where the next instruction stands. -/
def site (a : Activation) : Site := ⟨a.block, a.index⟩

def next (a : Activation) : Activation := { a with index := a.index + 1 }

def jump (a : Activation) (target : Nat) : Activation := { a with block := target, index := 0 }

/-- The result of the instruction that is executed. -/
def define (a : Activation) (v : Val) : Activation :=
  { a with results := fun s => if s = a.site then some v else a.results s }

/-- A slot with new content. -/
def fill (a : Activation) (slot : Site) (content : Option Val) : Activation :=
  { a with slots := fun s => if s = slot then some content else a.slots s }

/-- After the call that is executed has returned. -/
def resume (a : Activation) : Option Val → Activation
  | none => a.next
  | some v => (a.define v).next

end Activation

def Operand.eval (a : Activation) : Operand → Option Val
  | .int v => some (.i32 v)
  | .double v => some (.double v.toFloat)
  | .bool v => some (.i1 v)
  | .string global _ => some (.pointer global)
  | .param i _ => a.args[i]?
  | .result site _ => a.results site

/-- The result of an operation, where it is defined. -/
def Arithmetic.eval : Arithmetic → Val → Val → Option Val
  | .add, .i32 a, .i32 b => some (.i32 (a + b))
  | .sub, .i32 a, .i32 b => some (.i32 (a - b))
  | .mul, .i32 a, .i32 b => some (.i32 (a * b))
  | .sdiv, .i32 a, .i32 b =>
    if b = 0 ∨ (a = Int32.minValue ∧ b = -1) then none else some (.i32 (a / b))
  | .fadd, .double a, .double b => some (.double (a + b))
  | .fsub, .double a, .double b => some (.double (a - b))
  | .fmul, .double a, .double b => some (.double (a * b))
  | .fdiv, .double a, .double b => some (.double (a / b))
  | _, _, _ => none

/-- The active calls, innermost first, and the arguments of every `printf` so far, latest first. -/
structure Execution where
  stack : List Activation
  printed : List (List Val)

/-- The active calls after the innermost one has returned. -/
def returnTo (value : Option Val) : List Activation → List Activation
  | [] => []
  | a :: rest => a.resume value :: rest

/-- Executes the instruction at which `a` stands. -/
def execute (m : Module) (a : Activation) (callers : List Activation) (printed : List (List Val)) :
    Instruction → Option Execution
  | .alloca _ => some ⟨(a.fill a.site none).next :: callers, printed⟩
  | .store value slot =>
    match value.eval a, a.slots slot with
    | some v, some _ => some ⟨(a.fill slot (some v)).next :: callers, printed⟩
    | _, _ => none
  | .load type slot =>
    match a.slots slot with
    | some (some v) => if v.type = type then some ⟨(a.define v).next :: callers, printed⟩ else none
    | _ => none
  | .arithmetic op left right =>
    match left.eval a, right.eval a with
    | some l, some r => (op.eval l r).map fun v => ⟨(a.define v).next :: callers, printed⟩
    | _, _ => none
  | .zext value =>
    match value.eval a with
    | some (.i1 b) => some ⟨(a.define (.i32 (if b then 1 else 0))).next :: callers, printed⟩
    | _ => none
  | .call callee _ args =>
    match m.functions[callee]?, args.mapM (Operand.eval a) with
    | some f, some vs =>
      if f = printf then some ⟨a.next :: callers, vs :: printed⟩
      else if vs.map Val.type = f.params.map Param.type then
        some ⟨.enter callee vs :: a :: callers, printed⟩
      else none
    | _, _ => none

/-- Executes the terminator at which `a` stands, in a function that returns `ret`. -/
def transfer (ret : Ty) (a : Activation) (callers : List Activation) (printed : List (List Val)) :
    Terminator → Option Execution
  | .ret none => if ret = .void then some ⟨returnTo none callers, printed⟩ else none
  | .ret (some value) =>
    match value.eval a with
    | some v => if v.type = ret then some ⟨returnTo (some v) callers, printed⟩ else none
    | none => none
  | .br target => some ⟨a.jump target :: callers, printed⟩
  | .condBr condition ifTrue ifFalse =>
    match condition.eval a with
    | some (.i1 b) => some ⟨a.jump (if b then ifTrue else ifFalse) :: callers, printed⟩
    | _ => none

/-- One step, if it is defined. -/
def step (m : Module) : Execution → Option Execution
  | ⟨[], _⟩ => none
  | ⟨a :: callers, printed⟩ =>
    match m.functions[a.function]? with
    | none => none
    | some f =>
      match f.blocks[a.block]? with
      | none => none
      | some b =>
        match b.instructions[a.index]?, b.terminator with
        | some i, _ => execute m a callers printed i
        | none, some t => transfer f.ret a callers printed t
        | none, none => none

def Steps (m : Module) : Execution → Execution → Prop :=
  Relation.ReflTransGen fun x y => step m x = some y

/-- The function called `name` that has a body. -/
def Module.defined? (m : Module) (name : Bytes) : Option Nat :=
  m.functions.findIdx? fun f => f.name = name ∧ f.blocks ≠ []

/-- Executing a function without arguments ends, and `printf` is called with `printed`, in order. -/
def Prints (m : Module) (function : Nat) (printed : List (List Val)) : Prop :=
  Steps m ⟨[.enter function []], []⟩ ⟨[], printed.reverse⟩

/-! ## Steps -/

section

variable {m : Module} {a : Activation} {callers : List Activation} {printed : List (List Val)}
  {f : Function} {b : Block}

theorem Steps.of_instruction {i : Instruction} {x : Execution}
    (hf : m.functions[a.function]? = some f) (hb : f.blocks[a.block]? = some b)
    (hi : b.instructions[a.index]? = some i) (hx : execute m a callers printed i = some x) :
    Steps m ⟨a :: callers, printed⟩ x :=
  .single (by simp only [step, hf, hb, hi, hx])

theorem Steps.of_terminator {t : Terminator} {x : Execution}
    (hf : m.functions[a.function]? = some f) (hb : f.blocks[a.block]? = some b)
    (hi : b.instructions.length = a.index) (ht : b.terminator = some t)
    (hx : transfer f.ret a callers printed t = some x) : Steps m ⟨a :: callers, printed⟩ x := by
  have hend : b.instructions[a.index]? = none := List.getElem?_eq_none (Nat.le_of_eq hi)
  exact .single (by simp only [step, hf, hb, hend, ht, hx])

/-- An execution that ends has one end: no step goes on from there, and none has two outcomes. -/
theorem Steps.end_unique {x : Execution} {printed' : List (List Val)}
    (h : Steps m x ⟨[], printed⟩) (h' : Steps m x ⟨[], printed'⟩) : printed = printed' := by
  induction h using Relation.ReflTransGen.head_induction_on with
  | refl =>
      rcases Relation.ReflTransGen.cases_head h' with heq | ⟨y, hstep, -⟩
      · cases heq
        rfl
      · cases hstep
  | head hstep _ ih =>
      rcases Relation.ReflTransGen.cases_head h' with rfl | ⟨y, hstep', hrest⟩
      · cases hstep
      · obtain rfl := Option.some.inj (hstep.symm.trans hstep')
        exact ih hrest

theorem Prints.unique {function : Nat} {printed' : List (List Val)} (h : Prints m function printed)
    (h' : Prints m function printed') : printed = printed' :=
  List.reverse_inj.mp (Steps.end_unique h h')

end

end IR

end Swiftlet
