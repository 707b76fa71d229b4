import Swiftlet.IR.Module

/-!
# The structure of a module

`Module.problems` lists what is structurally wrong with a module: a private function without
blocks, a block without a terminator, a `ret` of the wrong type, a call that does not fit its
callee.
-/

namespace Swiftlet

namespace IR

/-- `func name, block b: ` before the wording of a problem. -/
def placeText (name : Bytes) (b : Nat) : Bytes :=
  utf8 "func " ++ shownName name ++ utf8 ", block " ++ Bytes.ofNat b ++ utf8 ": "

/-- What is wrong with the `ret` that ends block `b`. -/
def retProblems (f : Function) (b : Nat) : Option Operand → List Bytes
  | none =>
    if f.ret = .void then []
    else [placeText f.name b ++ utf8 "ret void in function returning " ++ f.ret.text]
  | some v =>
    if v.type = f.ret then []
    else [placeText f.name b ++ utf8 "ret " ++ v.type.text ++ utf8 " in function returning " ++
      f.ret.text]

/-- The arguments from number `i` on that do not have the types of their parameters. -/
def argumentProblems (start : Bytes) (i : Nat) : List Param → List Operand → List Bytes
  | p :: params, a :: args =>
    (if a.type = p.type then []
     else [start ++ utf8 " arg[" ++ Bytes.ofNat i ++ utf8 "] is " ++ a.type.text ++ utf8 ", want " ++
       p.type.text]) ++ argumentProblems start (i + 1) params args
  | _, _ => []

/-- What is wrong with a call in block `b`. -/
def callProblems (f : Function) (b : Nat) (callee : Function) (args : List Operand) : List Bytes :=
  let start := placeText f.name b ++ utf8 "call to " ++ shownName callee.name
  let count := start ++ utf8 " has " ++ Bytes.ofNat args.length ++ utf8 " args, want "
  let want := Bytes.ofNat callee.params.length
  if callee.variadic then
    (if args.length < callee.params.length then [count ++ utf8 "at least " ++ want] else []) ++
      argumentProblems start 0 callee.params args
  else if args.length ≠ callee.params.length then [count ++ want]
  else argumentProblems start 0 callee.params args

def instructionProblems (m : Module) (f : Function) (b : Nat) : Instruction → List Bytes
  | .call callee _ args =>
    match m.functions[callee]? with
    | some g => callProblems f b g args
    | none => []
  | _ => []

def blockProblems (m : Module) (f : Function) (b : Nat) (block : Block) : List Bytes :=
  (match block.terminator with
    | none => [placeText f.name b ++ utf8 "missing terminator"]
    | some (.ret v) => retProblems f b v
    | some _ => []) ++
    block.instructions.flatMap (instructionProblems m f b)

/-- What is wrong with the blocks from number `b` on. -/
def blocksProblems (m : Module) (f : Function) (b : Nat) : List Block → List Bytes
  | [] => []
  | block :: rest => blockProblems m f b block ++ blocksProblems m f (b + 1) rest

def functionProblems (m : Module) (f : Function) : List Bytes :=
  if f.blocks = [] then
    if f.hidden then [utf8 "func " ++ shownName f.name ++ utf8 ": defined without blocks"] else []
  else blocksProblems m f 0 f.blocks

/-- Everything that is structurally wrong with a module, in order. -/
def Module.problems (m : Module) : List Bytes := m.functions.flatMap (functionProblems m)

/-- The message that lists problems. -/
def problemsMessage (problems : List Bytes) : Bytes :=
  utf8 "IR verification failed:\n  " ++ Bytes.join (utf8 "\n  ") problems

end IR

end Swiftlet
