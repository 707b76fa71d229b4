import Swiftlet.IR.Constant

/-!
# Modules as text

`Module.text` prints a module in LLVM's assembly language. Parameters without a name, blocks and
results of a function are numbered in the order in which they are printed, by one counter;
constants and functions without a name by another. A result that is nothing is not counted.
-/

namespace Swiftlet

namespace IR

/-! ## Numbers -/

/-- The numbers of a function's blocks and results. Something without a number shows as zero. -/
structure Numbers where
  blocks : List Nat
  results : List (List Nat)

namespace Numbers

def block (n : Numbers) (b : Nat) : Nat := n.blocks.getD b 0

def result (n : Numbers) (s : Site) : Nat := (n.results.getD s.block []).getD s.index 0

/-- Numbers instructions from `next` on; also the first number that is left. -/
def ofInstructions (next : Nat) : List Instruction → List Nat × Nat
  | [] => ([], next)
  | i :: rest =>
    if i.isNumbered then
      let (numbers, last) := ofInstructions (next + 1) rest
      (next :: numbers, last)
    else
      let (numbers, last) := ofInstructions next rest
      (0 :: numbers, last)

/-- Numbers blocks and their instructions from `next` on. -/
def ofBlocks (next : Nat) : List Block → Numbers
  | [] => ⟨[], []⟩
  | b :: rest =>
    let (numbers, last) := ofInstructions (next + 1) b.instructions
    let more := ofBlocks last rest
    ⟨next :: more.blocks, numbers :: more.results⟩

end Numbers

/-- Numbers names from `next` on where they are missing; the other names show as they are. -/
def numberMissing (next : Nat) : List Bytes → List Bytes
  | [] => []
  | name :: rest =>
    if name = [] then Bytes.ofNat next :: numberMissing (next + 1) rest
    else nameText name :: numberMissing next rest

/-- The names of a function's parameters. A function without blocks numbers none of them. -/
def Function.paramNames (f : Function) : List Bytes :=
  if f.blocks = [] then f.params.map fun p => if p.name = [] then utf8 "0" else nameText p.name
  else numberMissing 0 (f.params.map Param.name)

/-- The numbers of a function; parameters without a name come first. -/
def Function.numbers (f : Function) : Numbers :=
  Numbers.ofBlocks (f.params.countP (·.name = [])) f.blocks

/-- What the text of a function refers to. -/
structure Names where
  globals : List Bytes
  functions : List Bytes
  params : List Bytes
  numbers : Numbers
  signatures : List Function

/-! ## Operands and instructions -/

def commaList (texts : List Bytes) : Bytes := Bytes.join (utf8 ", ") texts

/-- The type of a constant of `size` bytes. -/
def arrayText (size : Nat) : Bytes := utf8 "[" ++ Bytes.ofNat size ++ utf8 " x i8]"

def localText (n : Nat) : Bytes := utf8 "%" ++ Bytes.ofNat n

def Operand.text (names : Names) : Operand → Bytes
  | .int v => intText v
  | .double v => doubleText v
  | .bool v => utf8 (if v then "true" else "false")
  | .string g size =>
    utf8 "getelementptr (" ++ arrayText size ++ utf8 ", " ++ arrayText size ++ utf8 "* @" ++
      names.globals.getD g [] ++ utf8 ", i32 0, i32 0)"
  | .param i _ => utf8 "%" ++ names.params.getD i []
  | .result s _ => localText (names.numbers.result s)

def Operand.typedText (names : Names) (o : Operand) : Bytes :=
  o.type.text ++ utf8 " " ++ o.text names

/-- A slot with the type of what it holds. -/
def slotText (names : Names) (type : Ty) (slot : Site) : Bytes :=
  type.text ++ utf8 "* " ++ localText (names.numbers.result slot)

/-- The type of a call: of a variadic function the whole signature, else what it returns. -/
def callType (names : Names) (callee : Nat) (ret : Ty) : Bytes :=
  match names.signatures[callee]? with
  | some f =>
    if f.variadic then
      ret.text ++ utf8 " (" ++ commaList (f.params.map (·.type.text) ++ [utf8 "..."]) ++ utf8 ")"
    else ret.text
  | none => ret.text

def Instruction.text (names : Names) : Instruction → Bytes
  | .alloca t => utf8 "alloca " ++ t.text
  | .store v slot =>
    utf8 "store " ++ v.typedText names ++ utf8 ", " ++ slotText names v.type slot
  | .load t slot => utf8 "load " ++ t.text ++ utf8 ", " ++ slotText names t slot
  | .arithmetic op l r =>
    op.text ++ utf8 " " ++ l.typedText names ++ utf8 ", " ++ r.text names
  | .zext v => utf8 "zext " ++ v.typedText names ++ utf8 " to i32"
  | .call callee ret args =>
    utf8 "call " ++ callType names callee ret ++ utf8 " @" ++ names.functions.getD callee [] ++
      utf8 "(" ++ commaList (args.map (·.typedText names)) ++ utf8 ")"

def labelText (names : Names) (b : Nat) : Bytes :=
  utf8 "label " ++ localText (names.numbers.block b)

def Terminator.text (names : Names) : Terminator → Bytes
  | .ret none => utf8 "ret void"
  | .ret (some v) => utf8 "ret " ++ v.typedText names
  | .br target => utf8 "br " ++ labelText names target
  | .condBr c t f =>
    utf8 "br " ++ c.typedText names ++ utf8 ", " ++ labelText names t ++ utf8 ", " ++
      labelText names f

/-! ## Blocks and functions -/

/-- A line of a block. -/
def bodyLine (text : Bytes) : Bytes := 9 :: text ++ [Bytes.newline]

/-- The instructions of block `b` from place `index` on. -/
def instructionLines (names : Names) (b index : Nat) : List Instruction → Bytes
  | [] => []
  | i :: rest =>
    let result :=
      if i.showsResult then localText (names.numbers.result ⟨b, index⟩) ++ utf8 " = " else []
    bodyLine (result ++ i.text names) ++ instructionLines names b (index + 1) rest

def blockText (names : Names) (b : Nat) (block : Block) : Bytes :=
  Bytes.ofNat (names.numbers.block b) ++ utf8 ":\n" ++ instructionLines names b 0 block.instructions ++
    match block.terminator with
    | some t => bodyLine (t.text names)
    | none => []

/-- The blocks from number `b` on. -/
def blockTexts (names : Names) (b : Nat) : List Block → List Bytes
  | [] => []
  | block :: rest => blockText names b block :: blockTexts names (b + 1) rest

def Function.headerText (f : Function) (names : Names) (name : Bytes) : Bytes :=
  let params := List.zipWith (fun p text => p.type.text ++ utf8 " %" ++ text) f.params names.params
  let dots := if f.variadic then [utf8 "..."] else []
  f.ret.text ++ utf8 " @" ++ name ++ utf8 "(" ++ commaList (params ++ dots) ++ utf8 ")"

/-- A function called `name`. -/
def Function.text (f : Function) (names : Names) (name : Bytes) : Bytes :=
  let linkage := if f.hidden then utf8 "private " else []
  if f.blocks = [] then utf8 "declare " ++ linkage ++ f.headerText names name ++ [Bytes.newline]
  else
    utf8 "define " ++ linkage ++ f.headerText names name ++ utf8 " \x7b\n" ++
      Bytes.join [Bytes.newline] (blockTexts names 0 f.blocks) ++ utf8 "\x7d\n"

/-! ## Modules -/

def Global.text (g : Global) (name : Bytes) : Bytes :=
  utf8 "@" ++ name ++ utf8 " = private constant " ++ arrayText g.content.length ++ utf8 " c" ++
    quotedText g.content ++ [Bytes.newline]

/-- The names of the constants and of the functions; both are numbered by one counter. -/
def Module.names (m : Module) : List Bytes × List Bytes :=
  let all := numberMissing 0 (m.globals.map Global.name ++ m.functions.map Function.name)
  (all.take m.globals.length, all.drop m.globals.length)

/-- A module in LLVM's assembly language. -/
def Module.text (m : Module) : Bytes :=
  let (globals, functions) := m.names
  let source :=
    if m.sourceName = [] then []
    else [utf8 "source_filename = " ++ quotedText m.sourceName ++ [Bytes.newline]]
  let constants :=
    if m.globals = [] then [] else [(List.zipWith Global.text m.globals globals).flatten]
  let definitions := List.zipWith (fun f name =>
    f.text ⟨globals, functions, f.paramNames, f.numbers, m.functions⟩ name) m.functions functions
  Bytes.join [Bytes.newline] (source ++ constants ++ definitions)

end IR

end Swiftlet
