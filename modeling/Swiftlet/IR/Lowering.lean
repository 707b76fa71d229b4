import Swiftlet.IR.Module
import Swiftlet.Tree

/-!
# From trees to modules

`lower` turns an analyzed program into a module. A binding becomes a slot that is stored to once,
a parameter is used as it is, and an `if` becomes a branch over a block of its own. Strings,
formats and functions enter the module when they are first needed and are shared from then on.

The functions without a body come first, then the functions with one in source order; a function
that is called before its turn is declared at the call. Every function with a body is private to
the module, the entry function apart. Statements after a `return` in the same body are left out.
-/

namespace Swiftlet

namespace IR

/-- What cannot be lowered. -/
inductive Unsupported where
  | parameter (name : Bytes)
  | returnType (name : Bytes)
  | redefined (name : Bytes)
  | noInitializer (name : Bytes)
  | nested
  | condition (type : Ty)
  | emptyPrint
  | print (type : Ty)
  | undefined (name : Bytes)
  | value (kind : Bytes)
  | operands (left right : Ty)
  | operator (lexeme : Bytes) (type : Ty)
  | unknownOperator (lexeme : Bytes)
  | undeclared (name : Bytes)
  | arity (name : Bytes) (expected got : Nat)
  | topLevel (kind : Bytes)
  deriving DecidableEq, Repr

def Unsupported.text : Unsupported → Bytes
  | .parameter name => utf8 "parameter `" ++ name ++ utf8 "` has no storable type"
  | .returnType name => utf8 "function `" ++ name ++ utf8 "` has no return type"
  | .redefined name => utf8 "function `" ++ name ++ utf8 "` is defined more than once"
  | .noInitializer name => utf8 "variable `" ++ name ++ utf8 "` is declared without a value"
  | .nested => utf8 "nested functions are not supported"
  | .condition type => utf8 "condition has type " ++ type.text
  | .emptyPrint => utf8 "print requires an argument"
  | .print type => utf8 "cannot print a value of type " ++ type.text
  | .undefined name => utf8 "`" ++ name ++ utf8 "` is not defined"
  | .value kind => utf8 "cannot lower " ++ kind ++ utf8 " as a value"
  | .operands left right =>
    utf8 "operands have types " ++ left.text ++ utf8 " and " ++ right.text
  | .operator lexeme type =>
    utf8 "operator '" ++ lexeme ++ utf8 "' on non-numeric type " ++ type.text
  | .unknownOperator lexeme => utf8 "unknown operator '" ++ lexeme ++ utf8 "'"
  | .undeclared name => utf8 "call to undeclared function `" ++ name ++ utf8 "`"
  | .arity name expected got =>
    utf8 "`" ++ name ++ utf8 "` takes " ++ Bytes.ofNat expected ++ utf8 " arguments, got " ++
      Bytes.ofNat got
  | .topLevel kind => utf8 "unexpected top-level " ++ kind

/-- The first construct that cannot be lowered. -/
structure Error where
  cause : Unsupported
  token : Token
  deriving DecidableEq, Repr

def Error.message (e : Error) : Bytes :=
  utf8 "codegen-error: " ++ e.token.pos.text ++ utf8 ": " ++ e.cause.text

def Ty.of : Swiftlet.Ty → Ty
  | .int => .i32
  | .float => .double
  | .bool => .i1
  | .string => .pointer
  | .void => .void

/-! ## The state of lowering -/

/-- A variable's slot and the type of what it holds. -/
structure Slot where
  site : Site
  type : Ty
  deriving DecidableEq, Repr

/-- The module so far, and of the function being lowered its blocks, the number of the block that
takes the next instruction, and its variables, latest first. -/
structure State where
  globals : List Global
  functions : List Function
  blocks : List Block
  current : Nat
  locals : List (Bytes × Slot)

/-- What a function is lowered against. -/
structure Context where
  entry : Bytes
  program : List Node
  ret : Ty
  /-- The parameters by the names they are looked up by. -/
  params : List (Bytes × Operand)

namespace State

def block (σ : State) : Block := σ.blocks.getD σ.current .empty

/-- One more instruction in the current block, and where it stands. -/
def emit (σ : State) (i : Instruction) : Site × State :=
  (⟨σ.current, σ.block.instructions.length⟩,
    { σ with blocks := σ.blocks.modify σ.current fun b =>
        { b with instructions := b.instructions ++ [i] } })

/-- Ends the current block. -/
def terminate (σ : State) (t : Terminator) : State :=
  { σ with blocks := σ.blocks.modify σ.current fun b => { b with terminator := some t } }

def isTerminated (σ : State) : Bool := σ.block.terminator.isSome

/-- The operand for a constant's first byte; the constant is added unless it is there. -/
def constant (σ : State) (name content : Bytes) : Operand × State :=
  match σ.globals.findIdx? fun g => g.name = name ∧ g.content = content with
  | some i => (.string i content.length, σ)
  | none =>
    (.string σ.globals.length content.length, { σ with globals := σ.globals ++ [⟨name, content⟩] })

/-- The constant of a string value; it has no name and ends with a zero byte. -/
def stringConstant (σ : State) (value : Bytes) : Operand × State := σ.constant [] (value ++ [0])

/-- The number of the function called `name`; the external `printf` is not looked up. -/
def functionIndex? (σ : State) (name : Bytes) : Option Nat :=
  ((σ.functions.drop 1).findIdx? (·.name = name)).map (· + 1)

end State

/-- The name and text of the format that prints a value of a type. -/
def format? : Ty → Option (Bytes × Bytes)
  | .i1 | .i32 => some (utf8 "PRINTF_INTEGER", utf8 "%d\n")
  | .double => some (utf8 "PRINTF_FLOAT", utf8 "%f\n")
  | .pointer => some (utf8 "PRINTF_STRING", utf8 "%s\n")
  | .void => none

/-! ## Functions -/

def lowerParams : List Decl → Except Error (List Param)
  | [] => .ok []
  | p :: rest =>
    match p.type with
    | none | some .void => .error ⟨.parameter p.name.lexeme, p.name⟩
    | some t =>
      match lowerParams rest with
      | .error e => .error e
      | .ok params => .ok (⟨p.name.lexeme, Ty.of t⟩ :: params)

/-- The number of the function of a signature; it is declared unless its name is there. The entry
function returns nothing. -/
def declare (entry : Bytes) (s : Signature) (σ : State) : Except Error (Nat × State) :=
  match σ.functionIndex? s.name.lexeme with
  | some i => .ok (i, σ)
  | none =>
    match lowerParams s.params with
    | .error e => .error e
    | .ok params =>
      match s.ret with
      | none => .error ⟨.returnType s.name.lexeme, s.name⟩
      | some ret =>
        let ret := if s.name.lexeme = entry then .void else Ty.of ret
        .ok (σ.functions.length,
          { σ with functions := σ.functions ++ [⟨s.name.lexeme, params, ret, false, false, []⟩] })

/-! ## Expressions -/

def intArithmetic : Operator → Arithmetic
  | .plus => .add
  | .minus => .sub
  | .star => .mul
  | .slash => .sdiv

def floatArithmetic : Operator → Arithmetic
  | .plus => .fadd
  | .minus => .fsub
  | .star => .fmul
  | .slash => .fdiv

/-- The instruction for `op` on two operands. -/
def operation (op : Token) (left right : Operand) : Except Error Arithmetic :=
  if left.type ≠ right.type then .error ⟨.operands left.type right.type, op⟩
  else match left.type, op.kind with
    | .i32, .operator o => .ok (intArithmetic o)
    | .double, .operator o => .ok (floatArithmetic o)
    | .i32, _ | .double, _ => .error ⟨.unknownOperator op.lexeme, op⟩
    | t, _ => .error ⟨.operator op.lexeme t, op⟩

/-- The value of a name: a parameter, or the content of a variable's slot. -/
def lowerRef (c : Context) (name : Token) (σ : State) : Except Error (Operand × State) :=
  match c.params.lookup name.lexeme with
  | some p => .ok (p, σ)
  | none =>
    match σ.locals.lookup name.lexeme with
    | some slot =>
      let (site, σ) := σ.emit (.load slot.type slot.site)
      .ok (.result site slot.type, σ)
    | none => .error ⟨.undefined name.lexeme, name⟩

mutual

/-- The operand that holds the value of a node. -/
def lowerValue (c : Context) : Node → State → Except Error (Operand × State)
  | .int _ v, σ => .ok (.int v, σ)
  | .float _ v, σ => .ok (.double v, σ)
  | .bool _ v, σ => .ok (.bool v, σ)
  | .string _ v, σ => .ok (σ.stringConstant v)
  | .ref name, σ => lowerRef c name σ
  | .binary left op right, σ =>
    match lowerValue c left σ with
    | .error e => .error e
    | .ok (l, σ) =>
      match lowerValue c right σ with
      | .error e => .error e
      | .ok (r, σ) =>
        match operation op l r with
        | .error e => .error e
        | .ok i =>
          let (site, σ) := σ.emit (.arithmetic i l r)
          .ok (.result site l.type, σ)
  | .call name args, σ =>
    match lastSignature? c.program name.lexeme with
    | none => .error ⟨.undeclared name.lexeme, name⟩
    | some s =>
      match declare c.entry s σ with
      | .error e => .error e
      | .ok (callee, σ) =>
        match σ.functions[callee]? with
        | none => .error ⟨.undeclared name.lexeme, name⟩
        | some f =>
          if args.length ≠ f.params.length then
            .error ⟨.arity name.lexeme f.params.length args.length, name⟩
          else match lowerValues c args σ with
            | .error e => .error e
            | .ok (operands, σ) =>
              let (site, σ) := σ.emit (.call callee f.ret operands)
              .ok (.result site f.ret, σ)
  | n, _ => .error ⟨.value n.kindName, n.token⟩

/-- The operands of the arguments of a call, left to right. -/
def lowerValues (c : Context) : List Node → State → Except Error (List Operand × State)
  | [], σ => .ok ([], σ)
  | n :: rest, σ =>
    match lowerValue c n σ with
    | .error e => .error e
    | .ok (v, σ) =>
      match lowerValues c rest σ with
      | .error e => .error e
      | .ok (vs, σ) => .ok (v :: vs, σ)

end

/-! ## Statements -/

/-- Prints an operand; a Bool is printed as a number. -/
def lowerPrint (token : Token) (v : Operand) (σ : State) : Except Error State :=
  match format? v.type with
  | none => .error ⟨.print v.type, token⟩
  | some (name, text) =>
    let (v, σ) :=
      if v.type = .i1 then
        let (site, σ) := σ.emit (.zext v)
        (.result site .i32, σ)
      else (v, σ)
    let (format, σ) := σ.constant name (text ++ [0])
    .ok (σ.emit (.call 0 .i32 [format, v])).2

mutual

def lowerStatement (c : Context) : Node → State → Except Error State
  | .assign d value, σ =>
    match lowerValue c value σ with
    | .error e => .error e
    | .ok (v, σ) =>
      let (slot, σ) := σ.emit (.alloca v.type)
      let σ := (σ.emit (.store v slot)).2
      .ok { σ with locals := (d.name.lexeme, ⟨slot, v.type⟩) :: σ.locals }
  | .print token [], _ => .error ⟨.emptyPrint, token⟩
  | .print token (arg :: _), σ =>
    match lowerValue c arg σ with
    | .error e => .error e
    | .ok (v, σ) => lowerPrint token v σ
  | .ret _ value, σ =>
    match lowerValue c value σ with
    | .error e => .error e
    | .ok (v, σ) =>
      .ok (σ.terminate (.ret (if v.type = .void ∨ c.ret = .void then none else some v)))
  | .cond token condition body, σ =>
    match lowerValue c condition σ with
    | .error e => .error e
    | .ok (v, σ) =>
      if v.type ≠ .i1 then .error ⟨.condition v.type, token⟩
      else
        let thenBlock := σ.blocks.length
        let merge := thenBlock + 1
        let σ := σ.terminate (.condBr v thenBlock merge)
        match lowerBody c body
            { σ with blocks := σ.blocks ++ [.empty, .empty], current := thenBlock } with
        | .error e => .error e
        | .ok σ =>
          let σ := if σ.isTerminated then σ else σ.terminate (.br merge)
          .ok { σ with current := merge }
  | .decl d, _ => .error ⟨.noInitializer d.name.lexeme, d.name⟩
  | .func s _, _ => .error ⟨.nested, s.name⟩
  | .signature s, _ => .error ⟨.nested, s.name⟩
  | n, σ =>
    match lowerValue c n σ with
    | .error e => .error e
    | .ok (_, σ) => .ok σ

/-- Statements in order, up to one that ends the current block. -/
def lowerBody (c : Context) : List Node → State → Except Error State
  | [], σ => .ok σ
  | n :: rest, σ =>
    match lowerStatement c n σ with
    | .error e => .error e
    | .ok σ => if σ.isTerminated then .ok σ else lowerBody c rest σ

end

/-! ## Whole programs -/

/-- The parameters of a function by the names they are looked up by; of two equal names the last
one counts. -/
def paramOperands (f : Function) : List (Bytes × Operand) :=
  (f.params.mapIdx fun i p => (shownName p.name, Operand.param i p.type)).reverse

/-- Lowers the body of a function with the last signature of its name. -/
def lowerFunction (entry : Bytes) (program : List Node) (s : Signature) (body : List Node)
    (σ : State) : Except Error State :=
  let s := (lastSignature? program s.name.lexeme).getD s
  match declare entry s σ with
  | .error e => .error e
  | .ok (i, σ) =>
    match σ.functions[i]? with
    | none => .ok σ
    | some f =>
      if f.blocks ≠ [] then .error ⟨.redefined s.name.lexeme, s.name⟩
      else
        let context : Context := ⟨entry, program, f.ret, paramOperands f⟩
        match lowerBody context body { σ with blocks := [.empty], current := 0, locals := [] } with
        | .error e => .error e
        | .ok σ =>
          let ends := !σ.isTerminated && (s.ret = some .void || s.name.lexeme = entry)
          let σ := if ends then σ.terminate (.ret none) else σ
          .ok { σ with functions := σ.functions.modify i fun f =>
            { f with hidden := s.name.lexeme ≠ entry, blocks := σ.blocks } }

/-- Declares the functions without a body. -/
def declareAll (entry : Bytes) (program : List Node) : List Node → State → Except Error State
  | [], σ => .ok σ
  | .signature s :: rest, σ =>
    match declare entry ((lastSignature? program s.name.lexeme).getD s) σ with
    | .error e => .error e
    | .ok (_, σ) => declareAll entry program rest σ
  | _ :: rest, σ => declareAll entry program rest σ

/-- Lowers the functions with a body. -/
def lowerAll (entry : Bytes) (program : List Node) : List Node → State → Except Error State
  | [], σ => .ok σ
  | .signature _ :: rest, σ => lowerAll entry program rest σ
  | .func s body :: rest, σ =>
    match lowerFunction entry program s body σ with
    | .error e => .error e
    | .ok σ => lowerAll entry program rest σ
  | n :: _, _ => .error ⟨.topLevel n.kindName, n.token⟩

/-- The module of a program that came from the file `sourceName`. -/
def lower (entry sourceName : Bytes) (program : List Node) : Except Error Module :=
  match declareAll entry program program ⟨[], [printf], [], 0, []⟩ with
  | .error e => .error e
  | .ok σ =>
    match lowerAll entry program program σ with
    | .error e => .error e
    | .ok σ => .ok ⟨sourceName, σ.globals, σ.functions⟩

end IR

end Swiftlet
