import Swiftlet.IR.Verify

/-!
# Changes to a module

Small changes by hand to a module, each one named by what it touches. They are how a module
that `lower` would never build comes about, and so what `Module.problems` is tried on.
-/

namespace Swiftlet

namespace IR

/-- What a change refers to is not there. -/
inductive Missing where
  | function
  | block
  | call
  deriving DecidableEq, Repr

def Missing.text : Missing → Bytes
  | .function => utf8 "no function"
  | .block => utf8 "no block"
  | .call => utf8 "no call"

/-- A change of a module. Functions are given by the names they are shown as. -/
inductive Edit where
  /-- A new function of so many integers that returns nothing. -/
  | declare (name : Bytes) (params : Nat) (hidden : Bool)
  | clearBlocks (function : Bytes)
  | clearTerminator (function : Bytes) (block : Nat)
  | ret (function : Bytes) (block : Nat) (value : Option Int32)
  /-- A call without arguments at the end of a block. -/
  | call (function : Bytes) (block : Nat) (callee : Bytes)
  /-- Keeps only the first arguments of a call. -/
  | keepArguments (function : Bytes) (block instruction keep : Nat)
  deriving DecidableEq, Repr

/-- Changes the blocks of a function. -/
def Module.editBlocks (m : Module) (name : Bytes)
    (change : List Block → Except Missing (List Block)) : Except Missing Module :=
  match m.find? name with
  | none => .error .function
  | some i =>
    match m.functions[i]? with
    | none => .error .function
    | some f =>
      match change f.blocks with
      | .error e => .error e
      | .ok blocks => .ok { m with functions := m.functions.set i { f with blocks := blocks } }

/-- Changes one block of a function. -/
def Module.editBlock (m : Module) (name : Bytes) (b : Nat)
    (change : Block → Except Missing Block) : Except Missing Module :=
  m.editBlocks name fun blocks =>
    match blocks[b]? with
    | none => .error .block
    | some block =>
      match change block with
      | .error e => .error e
      | .ok block => .ok (blocks.set b block)

def Block.keepArguments (block : Block) (i keep : Nat) : Except Missing Block :=
  match block.instructions[i]? with
  | some (.call callee ret args) =>
    if keep ≤ args.length then
      .ok { block with instructions := block.instructions.set i (.call callee ret (args.take keep)) }
    else .error .call
  | _ => .error .call

def Module.edit (m : Module) : Edit → Except Missing Module
  | .declare name params hidden =>
    .ok { m with functions := m.functions ++
      [⟨name, List.replicate params ⟨[], .i32⟩, .void, false, hidden, []⟩] }
  | .clearBlocks name => m.editBlocks name fun _ => .ok []
  | .clearTerminator name b => m.editBlock name b fun block => .ok { block with terminator := none }
  | .ret name b value =>
    m.editBlock name b fun block => .ok { block with terminator := some (.ret (value.map .int)) }
  | .call name b callee =>
    m.editBlock name b fun block =>
      match m.find? callee with
      | none => .error .function
      | some i =>
        match m.functions[i]? with
        | none => .error .function
        | some f => .ok { block with instructions := block.instructions ++ [.call i f.ret []] }
  | .keepArguments name b i keep => m.editBlock name b fun block => block.keepArguments i keep

end IR

end Swiftlet
