import Swiftlet.Tree
import Swiftlet.Run.Value

/-!
# Running programs

`run` evaluates the body of the entry function, writing a line for every `print`.

* Arguments are not evaluated when a call is made. A parameter is evaluated in the caller's frame
  when the callee first reads it, and the frame keeps the value.
* A frame logs every statement it completes; the log is also where variables are looked up.
* Integers have 32 bits and wrap around. Division truncates, and division by zero ends the run.
* Calls nest at most `maxCallDepth` frames deep.

Evaluation is by recursion on the syntax (`eval`, `runBody`) inside a recursion on the number of
frames that may still be added (`enter`). An argument goes to the callee as the function that
evaluates it in the caller's frame, so forcing it needs no further recursion. What has been
written and logged is part of every outcome, failed ones included.
-/

namespace Swiftlet

namespace Run

/-- How many frames may be added to the entry function's. -/
def maxCallDepth : Nat := 10000

/-- A state that no analyzed program reaches. -/
inductive Breach where
  | noEntry (name : Bytes)
  | condition (kind : Bytes)
  | notEvaluable (kind : Bytes)
  | mixedOperands (left right : Bytes)
  | unknownOperator (lexeme : Bytes)
  | emptyPrint
  | invalidPrint
  | noBody (name : Bytes)
  | missingArgument (name : Bytes)
  | noValue (name : Bytes)
  deriving DecidableEq, Repr

def Breach.text : Breach → Bytes
  | .noEntry name => utf8 "entry function `" ++ name ++ utf8 "` not found"
  | .condition kind => utf8 "condition evaluated to " ++ kind
  | .notEvaluable kind => utf8 "cannot evaluate " ++ kind
  | .mixedOperands left right => utf8 "mixed operands " ++ left ++ utf8 " and " ++ right
  | .unknownOperator lexeme => utf8 "unknown operator '" ++ lexeme ++ utf8 "'"
  | .emptyPrint => utf8 "print without an argument"
  | .invalidPrint => utf8 "cannot print an invalid value"
  | .noBody name => utf8 "function `" ++ name ++ utf8 "` has no body"
  | .missingArgument name => utf8 "missing argument for parameter `" ++ name ++ utf8 "`"
  | .noValue name => utf8 "`" ++ name ++ utf8 "` has no value"

/-- Why a run ends early. -/
inductive Failure where
  | breach (b : Breach) (token : Token)
  | callDepth
  /-- The output takes no more writes. -/
  | write
  /-- An integer was divided by zero. -/
  | divisionByZero
  deriving DecidableEq, Repr

def Failure.message : Failure → Bytes
  | .breach b token => utf8 "runtime-error: " ++ token.pos.text ++ utf8 ": " ++ b.text
  | .callDepth => utf8 "runtime-error: maximum call depth exceeded"
  | .write => utf8 "write failed"
  | .divisionByZero => utf8 "runtime error: integer divide by zero"

/-- Statements with their values, latest first. -/
abbrev Log := List (Node × Value)

/-- One active call. -/
structure Frame where
  signature : Signature
  /-- The parameters read so far. -/
  cache : List (Bytes × Value)
  log : Log

/-- Where `print` writes: the values written, latest first, one line each, and how many more lines it
takes, if that is limited. -/
structure Sink where
  values : List Value
  room : Option Nat

namespace Sink

/-- One more value, if there is room for its line. -/
def write (s : Sink) (v : Value) : Option Sink :=
  match s.room with
  | none => some ⟨v :: s.values, none⟩
  | some 0 => none
  | some (n + 1) => some ⟨v :: s.values, some n⟩

/-- The line that shows a value. -/
def line (v : Value) : Bytes := v.text ++ [Bytes.newline]

/-- Everything written. -/
def output (s : Sink) : Bytes := s.values.reverse.flatMap line

end Sink

/-- The running frame, the frames that wait for it, innermost first, and the output. -/
structure Machine where
  frame : Frame
  callers : List Frame
  sink : Sink

namespace Machine

/-- A new frame on top. -/
def push (m : Machine) (s : Signature) : Machine :=
  ⟨⟨s, [], []⟩, m.frame :: m.callers, m.sink⟩

/-- The caller's frame on top again. -/
def pop (m : Machine) : Machine :=
  match m.callers with
  | [] => m
  | f :: rest => ⟨f, rest, m.sink⟩

/-- `frame` on top of the machine of its caller. -/
def resume (frame : Frame) (m : Machine) : Machine := ⟨frame, m.frame :: m.callers, m.sink⟩

/-- One more statement in the running frame's log. -/
def record (m : Machine) (n : Node) (v : Value) : Machine :=
  { m with frame := { m.frame with log := (n, v) :: m.frame.log } }

end Machine

/-- A result, or why there is none; the machine is what the run has come to in either case. -/
abbrev Outcome (α : Type) := Except (Failure × Machine) (α × Machine)

/-- An argument: how to evaluate it in the caller's frame. -/
abbrev Argument := Machine → Outcome Value

/-- How to run a function's body in a new frame. -/
abbrev Enter := Signature → List Node → List Argument → Machine → Outcome Value

/-! ## Operators -/

/-- The integer operation, or nothing where it is undefined. -/
def intOperation : Operator → Int32 → Int32 → Option Int32
  | .plus, a, b => some (a + b)
  | .minus, a, b => some (a - b)
  | .star, a, b => some (a * b)
  | .slash, a, b => if b = 0 then none else some (a / b)

def floatOperation : Operator → Float → Float → Float
  | .plus, a, b => a + b
  | .minus, a, b => a - b
  | .star, a, b => a * b
  | .slash, a, b => a / b

/-- `op` applied to two values. What is not a number gives an invalid value. -/
def operate (op : Token) (left right : Value) : Except Failure Value :=
  match left, right with
  | .int a, .int b =>
    match op.kind with
    | .operator o =>
      match intOperation o a b with
      | some v => .ok (.int v)
      | none => .error .divisionByZero
    | _ => .error (.breach (.unknownOperator op.lexeme) op)
  | .float a, .float b =>
    match op.kind with
    | .operator o => .ok (.float (floatOperation o a b))
    | _ => .error (.breach (.unknownOperator op.lexeme) op)
  | left, right =>
    if left.isNumber && right.isNumber then
      .error (.breach (.mixedOperands left.kindName right.kindName) op)
    else .ok .invalid

/-! ## Names -/

/-- The value of the latest binding of `name` in a log. -/
def latestBinding? (name : Bytes) : Log → Option Value
  | [] => none
  | (.assign d _, v) :: rest =>
    if d.name.lexeme = name then some v else latestBinding? name rest
  | _ :: rest => latestBinding? name rest

/-- The value of a name: a parameter that was read before, then a parameter, then the latest
binding in the frame's log. The entry function's parameters have no arguments. -/
def lookup (args : List Argument) (name : Token) (m : Machine) : Outcome Value :=
  match m.frame.cache.lookup name.lexeme with
  | some v => .ok (v, m)
  | none =>
    match m.frame.signature.paramIndex? name.lexeme, m.callers with
    | some i, caller :: callers =>
      match args[i]? with
      | none => .error (.breach (.missingArgument name.lexeme) name, m)
      | some arg =>
        match arg ⟨caller, callers, m.sink⟩ with
        | .error (e, outer) => .error (e, outer.resume m.frame)
        | .ok (v, outer) =>
          let frame := { m.frame with cache := (name.lexeme, v) :: m.frame.cache }
          .ok (v, outer.resume frame)
    | _, _ =>
      match latestBinding? name.lexeme m.frame.log with
      | some v => .ok (v, m)
      | none => .error (.breach (.noValue name.lexeme) name, m)

/-! ## Statements and expressions -/

/-- Writes the value of a `print`. -/
def emit (token : Token) (v : Value) (m : Machine) : Outcome Value :=
  if v.isValid then
    match m.sink.write v with
    | some sink => .ok (.void, { m with sink := sink })
    | none => .error (.write, m)
  else .error (.breach .invalidPrint token, m)

/-- Runs `body` if the condition holds. The flag says whether a `return` was reached. -/
def branch (token : Token) (condition : Machine → Outcome Value)
    (body : Machine → Outcome (Value × Bool)) (m : Machine) : Outcome (Value × Bool) :=
  match condition m with
  | .error e => .error e
  | .ok (.bool true, m) => body m
  | .ok (.bool false, m) => .ok ((.void, false), m)
  | .ok (v, m) => .error (.breach (.condition v.kindName) token, m)

mutual

/-- The value of a node in the running frame, whose arguments are `args`. -/
def eval (program : List Node) (enter : Enter) (args : List Argument) :
    Node → Machine → Outcome Value
  | .int _ v, m => .ok (.int v, m)
  | .float _ v, m => .ok (.float v.toFloat, m)
  | .string _ v, m => .ok (.string v, m)
  | .bool _ v, m => .ok (.bool v, m)
  | .assign _ value, m => eval program enter args value m
  | .ret _ value, m => eval program enter args value m
  | .ref name, m => lookup args name m
  | .binary left op right, m =>
    match eval program enter args left m with
    | .error e => .error e
    | .ok (l, m) =>
      match eval program enter args right m with
      | .error e => .error e
      | .ok (r, m) =>
        match operate op l r with
        | .error e => .error (e, m)
        | .ok v => .ok (v, m)
  | .print token [], m => .error (.breach .emptyPrint token, m)
  | .print token (arg :: _), m =>
    match eval program enter args arg m with
    | .error e => .error e
    | .ok (v, m) => emit token v m
  | .call name actuals, m =>
    match findFunction? program name.lexeme with
    | none => .error (.breach (.noBody name.lexeme) name, m)
    | some (s, body) => enter s body (suspend program enter args actuals) m
  | .cond token condition body, m =>
    match branch token (eval program enter args condition) (runBody program enter args body) m with
    | .error e => .error e
    | .ok ((v, _), m) => .ok (v, m)
  | .decl d, m => .error (.breach (.notEvaluable (Node.decl d).kindName) d.name, m)
  | .signature s, m => .error (.breach (.notEvaluable (Node.signature s).kindName) s.name, m)
  | .func s body, m => .error (.breach (.notEvaluable (Node.func s body).kindName) s.name, m)

/-- The arguments of a call, not evaluated yet. -/
def suspend (program : List Node) (enter : Enter) (args : List Argument) :
    List Node → List Argument
  | [] => []
  | n :: rest => eval program enter args n :: suspend program enter args rest

/-- Runs statements in order and logs each, up to a `return`. The flag says whether there was
one; the value is then the returned one. -/
def runBody (program : List Node) (enter : Enter) (args : List Argument) :
    List Node → Machine → Outcome (Value × Bool)
  | [], m => .ok ((.void, false), m)
  | .cond token condition body :: rest, m =>
    match branch token (eval program enter args condition) (runBody program enter args body) m with
    | .error e => .error e
    | .ok ((v, true), m) => .ok ((v, true), m.record (.cond token condition body) v)
    | .ok ((v, false), m) =>
      runBody program enter args rest (m.record (.cond token condition body) v)
  | n :: rest, m =>
    match eval program enter args n m with
    | .error e => .error e
    | .ok (v, m) =>
      if n.isReturn then .ok ((v, true), m.record n v)
      else runBody program enter args rest (m.record n v)
termination_by structural body => body

end

/-- Runs a function's body in a new frame, with at most `depth` frames from there on. -/
def enter (program : List Node) : Nat → Enter
  | 0, _, _, _, m => .error (.callDepth, m)
  | depth + 1, s, body, args, m =>
    match runBody program (enter program depth) args body (m.push s) with
    | .error (e, m) => .error (e, m.pop)
    | .ok ((v, returned), m) => .ok (if returned then v else .void, m.pop)

/-! ## Whole programs -/

/-- How a run ended, what it wrote and the completed statements of the entry function in order. If it
failed, these are the statements completed until then. That holds of a division by zero too, but no
caller gets to see the log that it leaves: `Compiler.interpret` crashes instead. -/
structure Report where
  result : Except Failure Value
  sink : Sink
  log : Log

/-- Runs the entry function, writing to `sink`. A division by zero ends the run as any failure does,
with what had been written and logged so far. -/
def run (entry : Bytes) (program : List Node) (sink : Sink) : Report :=
  match findFunction? program entry with
  | none => ⟨.error (.breach (.noEntry entry) (Token.bare Pos.zero)), sink, []⟩
  | some (s, body) =>
    match runBody program (enter program maxCallDepth) [] body ⟨⟨s, [], []⟩, [], sink⟩ with
    | .error (e, m) => ⟨.error e, m.sink, m.frame.log.reverse⟩
    | .ok ((v, _), m) => ⟨.ok v, m.sink, m.frame.log.reverse⟩

end Run

end Swiftlet
