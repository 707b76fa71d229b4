import Mathlib.Data.List.Basic
import Swiftlet.IR.Lowering
import Swiftlet.Proofs.Parsing.Shape

/-!
# Lowering only adds

Whatever is lowered next, what has been emitted stays where it is: constants and functions keep their
numbers, instructions their sites, and a block that has ended is never touched again.

* `State.Open` — there is a current block and it has not ended, so it can take an instruction.
* `Declared` — a function has the parameters and the return type of the last signature of its name.
* `Grows` — one state of lowering comes after another in the same function.
* `Straight` — the same where no block has ended in between, as in expressions.
* `State.branch` and `State.join` — the state at the start of an `if`'s block, and after it.

Principal results: `lowerValue_straight`, `lowerStatement_follows` and `lowerBody_follows`, the last
two with the fact that a body ends its block exactly if one of its statements is a `return`.
-/

namespace Swiftlet

namespace IR

/-! ## Blocks -/

/-- A block with more instructions; a block that has ended takes none. -/
structure Block.Grows (b b' : Block) : Prop where
  instructions : b.instructions <+: b'.instructions
  ended : b.terminator.isSome → b' = b

def BlocksGrow (bs bs' : List Block) : Prop :=
  ∀ (k : Nat) (b : Block), bs[k]? = some b → ∃ b', bs'[k]? = some b' ∧ b.Grows b'

theorem Block.Grows.refl (b : Block) : b.Grows b := ⟨List.prefix_refl _, fun _ => rfl⟩

theorem Block.Grows.trans {b b' b'' : Block} (h : b.Grows b') (h' : b'.Grows b'') :
    b.Grows b'' := by
  refine ⟨List.IsPrefix.trans h.instructions h'.instructions, fun hended => ?_⟩
  have hsame := h.ended hended
  subst hsame
  exact h'.ended hended

theorem BlocksGrow.refl (bs : List Block) : BlocksGrow bs bs := fun _ b hb => ⟨b, hb, .refl b⟩

theorem BlocksGrow.trans {bs bs' bs'' : List Block} (h : BlocksGrow bs bs')
    (h' : BlocksGrow bs' bs'') : BlocksGrow bs bs'' := by
  intro k b hb
  obtain ⟨b', hb', hgrows⟩ := h k b hb
  obtain ⟨b'', hb'', hgrows'⟩ := h' k b' hb'
  exact ⟨b'', hb'', hgrows.trans hgrows'⟩

theorem BlocksGrow.length_le {bs bs' : List Block} (h : BlocksGrow bs bs') :
    bs.length ≤ bs'.length := by
  by_contra hlt
  have hk : bs'.length < bs.length := by omega
  obtain ⟨b', hb', -⟩ := h _ _ (List.getElem?_eq_getElem hk)
  rw [List.getElem?_eq_none (Nat.le_refl _)] at hb'
  cases hb'

namespace State

/-- The current block is there and has not ended. -/
def Open (σ : State) : Prop := ∃ b, σ.blocks[σ.current]? = some b ∧ b.terminator = none

/-- Where the next instruction will stand. -/
def site (σ : State) : Site := ⟨σ.current, σ.block.instructions.length⟩

/-- There is an instruction at `s`. -/
def Has (σ : State) (s : Site) : Prop :=
  ∃ b, σ.blocks[s.block]? = some b ∧ s.index < b.instructions.length

variable {σ σ' : State}

theorem block_eq {b : Block} (h : σ.blocks[σ.current]? = some b) : σ.block = b := by
  rw [block, List.getD_eq_getElem?_getD, h, Option.getD_some]

theorem Open.lt (h : σ.Open) : σ.current < σ.blocks.length := by
  obtain ⟨b, hb, -⟩ := h
  exact (List.getElem?_eq_some_iff.1 hb).1

theorem Open.isTerminated_eq (h : σ.Open) : σ.isTerminated = false := by
  obtain ⟨b, hb, hopen⟩ := h
  rw [isTerminated, block_eq hb, hopen]
  rfl

theorem open_of_not_terminated (hlt : σ.current < σ.blocks.length) (h : σ.isTerminated = false) :
    σ.Open := by
  have hb := List.getElem?_eq_getElem hlt
  refine ⟨_, hb, ?_⟩
  rw [isTerminated, block_eq hb] at h
  exact Option.not_isSome_iff_eq_none.1 (by simp [h])

theorem Has.grow (h : BlocksGrow σ.blocks σ'.blocks) {s : Site} (hs : σ.Has s) : σ'.Has s := by
  obtain ⟨b, hb, hlt⟩ := hs
  obtain ⟨b', hb', hgrows⟩ := h _ b hb
  exact ⟨b', hb', Nat.lt_of_lt_of_le hlt hgrows.instructions.length_le⟩

theorem not_has_site (σ : State) : ¬σ.Has σ.site := by
  rintro ⟨b, hb, hlt⟩
  have hblock : σ.block = b := block_eq hb
  simp only [site, hblock] at hlt
  omega

theorem emit_getElem? (σ : State) (i : Instruction) (k : Nat) :
    (σ.emit i).2.blocks[k]? =
      (σ.blocks[k]?).map fun b =>
        if σ.current = k then { b with instructions := b.instructions ++ [i] } else b := by
  simp [emit, List.getElem?_modify]

theorem terminate_getElem? (σ : State) (t : Terminator) (k : Nat) :
    (σ.terminate t).blocks[k]? =
      (σ.blocks[k]?).map fun b =>
        if σ.current = k then { b with terminator := some t } else b := by
  simp [terminate, List.getElem?_modify]

theorem Open.emit (h : σ.Open) (i : Instruction) :
    (σ.emit i).2.Open ∧ BlocksGrow σ.blocks (σ.emit i).2.blocks := by
  obtain ⟨b, hb, hopen⟩ := h
  refine ⟨⟨{ b with instructions := b.instructions ++ [i] }, ?_, hopen⟩, ?_⟩
  · rw [emit_getElem?]
    simp [State.emit, hb]
  · intro k b' hb'
    refine ⟨_, by rw [emit_getElem?, hb', Option.map_some], ?_⟩
    split
    · rename_i heq
      subst heq
      rw [hb] at hb'
      cases hb'
      exact ⟨List.prefix_append _ _, fun hended => by simp [hopen] at hended⟩
    · exact .refl _

/-- The instruction that is emitted stands at the next site, and its block goes on after it. -/
theorem Open.emit_block (h : σ.Open) (i : Instruction) :
    ∃ b, (σ.emit i).2.blocks[σ.current]? = some b ∧ b.instructions[σ.site.index]? = some i ∧
      (σ.emit i).2.site = ⟨σ.current, σ.site.index + 1⟩ := by
  obtain ⟨b, hb, hopen⟩ := h
  have hblock : σ.block = b := block_eq hb
  have hb' : (σ.emit i).2.blocks[σ.current]? =
      some { b with instructions := b.instructions ++ [i] } := by
    rw [emit_getElem?, hb]
    simp
  refine ⟨_, hb', ?_, ?_⟩
  · simp [site, hblock]
  · have hblock' : (σ.emit i).2.block = { b with instructions := b.instructions ++ [i] } :=
      block_eq hb'
    rw [site, hblock']
    simp [State.emit, site, hblock]

theorem Open.terminate (h : σ.Open) (t : Terminator) :
    BlocksGrow σ.blocks (σ.terminate t).blocks := by
  obtain ⟨b, hb, hopen⟩ := h
  intro k b' hb'
  refine ⟨_, by rw [terminate_getElem?, hb', Option.map_some], ?_⟩
  split
  · rename_i heq
    subst heq
    rw [hb] at hb'
    cases hb'
    exact ⟨List.prefix_refl _, fun hended => by simp [hopen] at hended⟩
  · exact .refl _

theorem Open.terminate_block (h : σ.Open) (t : Terminator) :
    ∃ b, (σ.terminate t).blocks[σ.current]? = some b ∧ b.instructions.length = σ.site.index ∧
      b.terminator = some t := by
  obtain ⟨b, hb, -⟩ := h
  have hblock : σ.block = b := block_eq hb
  refine ⟨{ b with terminator := some t }, ?_, ?_, rfl⟩
  · rw [terminate_getElem?, hb]
    simp
  · simp [site, hblock]

theorem Open.isTerminated_terminate (h : σ.Open) (t : Terminator) :
    (σ.terminate t).isTerminated = true := by
  obtain ⟨b, hb, -, ht⟩ := h.terminate_block t
  have hblock : (σ.terminate t).block = b := block_eq hb
  rw [isTerminated, hblock, ht]
  rfl

end State

/-! ## Functions -/

/-- The function has the parameters and the return type of the last signature of its name; the entry
function returns nothing. -/
def Declared (entry : Bytes) (program : List Node) (f : Function) : Prop :=
  ∃ s ret, lastSignature? program f.name = some s ∧ lowerParams s.params = .ok f.params ∧
    s.ret = some ret ∧ f.ret = if f.name = entry then .void else Ty.of ret

/-- The number of the first function called `name`, the external `printf` apart. -/
def numberOf? (fs : List Function) (name : Bytes) : Option Nat :=
  ((fs.drop 1).findIdx? (·.name = name)).map (· + 1)

theorem numberOf?_eq_some_iff {fs : List Function} {name : Bytes} {i : Nat} :
    numberOf? fs name = some i ↔ 0 < i ∧ (∃ f, fs[i]? = some f ∧ f.name = name) ∧
      ∀ j f, 0 < j → j < i → fs[j]? = some f → f.name ≠ name := by
  simp only [numberOf?, Option.map_eq_some_iff, List.findIdx?_eq_some_iff_getElem]
  constructor
  · rintro ⟨k, ⟨hk, hname, hbefore⟩, rfl⟩
    rw [List.length_drop] at hk
    simp only [List.getElem_drop, decide_eq_true_iff] at hname hbefore
    refine ⟨by omega, ⟨fs[1 + k], ?_, hname⟩, ?_⟩
    · rw [Nat.add_comm k 1]
      exact List.getElem?_eq_getElem (by omega)
    · intro j f hpos hlt hf hsame
      obtain ⟨l, rfl⟩ : ∃ l, j = 1 + l := ⟨j - 1, by omega⟩
      obtain ⟨hj, rfl⟩ := List.getElem?_eq_some_iff.1 hf
      exact hbefore l (by omega) hsame
  · rintro ⟨hpos, ⟨f, hf, hname⟩, hbefore⟩
    obtain ⟨k, rfl⟩ : ∃ k, i = k + 1 := ⟨i - 1, by omega⟩
    obtain ⟨hlt, rfl⟩ := List.getElem?_eq_some_iff.1 hf
    refine ⟨k, ⟨by rw [List.length_drop]; omega, ?_, ?_⟩, rfl⟩
    · simpa [Nat.add_comm 1 k] using hname
    · intro j hj hsame
      have hget : fs[j + 1]? = some fs[j + 1] := List.getElem?_eq_getElem (by omega)
      refine hbefore (j + 1) _ (by omega) (by omega) hget ?_
      simpa [Nat.add_comm 1 j] using hsame

theorem numberOf?_append {fs : List Function} {name : Bytes} {i : Nat} (new : List Function)
    (h : numberOf? fs name = some i) : numberOf? (fs ++ new) name = some i := by
  rw [numberOf?_eq_some_iff] at h ⊢
  obtain ⟨hpos, ⟨f, hf, hname⟩, hbefore⟩ := h
  have hlt := (List.getElem?_eq_some_iff.1 hf).1
  refine ⟨hpos, ⟨f, by rwa [List.getElem?_append_left hlt], hname⟩, ?_⟩
  intro j g hj hji hg
  rw [List.getElem?_append_left (by omega)] at hg
  exact hbefore j g hj hji hg

/-- A function of which only the name, the parameters and the return type are known. -/
structure Function.IsDeclaration (f : Function) : Prop where
  variadic : f.variadic = false
  hidden : f.hidden = false
  blocks : f.blocks = []

/-- The names of the functions, the external `printf` apart. -/
abbrev functionNames (fs : List Function) : List Bytes := (fs.drop 1).map (·.name)

/-- Functions that are added are declared and have no body yet, and none has a name that is there. -/
structure FunctionsAdded (entry : Bytes) (program : List Node) (fs fs' : List Function) : Prop where
  new : ∃ new, fs' = fs ++ new ∧ ∀ f ∈ new, f.IsDeclaration ∧ Declared entry program f
  names : (functionNames fs).Nodup → (functionNames fs').Nodup

theorem FunctionsAdded.refl (entry : Bytes) (program : List Node) (fs : List Function) :
    FunctionsAdded entry program fs fs := ⟨⟨[], by simp, by simp⟩, id⟩

theorem FunctionsAdded.trans {entry : Bytes} {program : List Node} {fs fs' fs'' : List Function}
    (h : FunctionsAdded entry program fs fs') (h' : FunctionsAdded entry program fs' fs'') :
    FunctionsAdded entry program fs fs'' := by
  obtain ⟨⟨new, rfl, hnew⟩, hnames⟩ := h
  obtain ⟨⟨more, rfl, hmore⟩, hnames'⟩ := h'
  exact ⟨⟨new ++ more, by simp, List.forall_mem_append.2 ⟨hnew, hmore⟩⟩, fun h => hnames' (hnames h)⟩

theorem FunctionsAdded.getElem? {entry : Bytes} {program : List Node} {fs fs' : List Function}
    (h : FunctionsAdded entry program fs fs') {i : Nat} {f : Function} (hf : fs[i]? = some f) :
    fs'[i]? = some f := by
  obtain ⟨new, rfl, -⟩ := h.new
  rw [List.getElem?_append_left (List.getElem?_eq_some_iff.1 hf).1, hf]

theorem FunctionsAdded.number {entry : Bytes} {program : List Node} {fs fs' : List Function}
    (h : FunctionsAdded entry program fs fs') {name : Bytes} {i : Nat}
    (hi : numberOf? fs name = some i) : numberOf? fs' name = some i := by
  obtain ⟨new, rfl, -⟩ := h.new
  exact numberOf?_append new hi

/-- A function is as it was before, or it is new. -/
theorem FunctionsAdded.or_new {entry : Bytes} {program : List Node} {fs fs' : List Function}
    (h : FunctionsAdded entry program fs fs') {i : Nat} {f : Function} (hf : fs'[i]? = some f) :
    fs[i]? = some f ∨ f.IsDeclaration ∧ Declared entry program f := by
  obtain ⟨new, rfl, hnew⟩ := h.new
  rcases Nat.lt_or_ge i fs.length with hlt | hge
  · rw [List.getElem?_append_left hlt] at hf
    exact .inl hf
  · rw [List.getElem?_append_right hge] at hf
    exact .inr (hnew f (List.mem_of_getElem? hf))

theorem lastSignature?_name {program : List Node} {name : Bytes} {s : Signature}
    (h : lastSignature? program name = some s) : s.name.lexeme = name := by
  simpa using List.find?_some h

/-- A declaration changes nothing but the list of functions. -/
theorem declare_added {entry : Bytes} {program : List Node} {s : Signature} {σ σ' : State} {i : Nat}
    (hs : lastSignature? program s.name.lexeme = some s) (h : declare entry s σ = .ok (i, σ')) :
    σ' = { σ with functions := σ'.functions } ∧
      FunctionsAdded entry program σ.functions σ'.functions := by
  unfold declare at h
  split at h
  · cases h
    exact ⟨rfl, .refl _ _ _⟩
  rename_i hnone
  split at h
  · cases h
  rename_i params hparams
  split at h
  · cases h
  rename_i ret hret
  cases h
  refine ⟨rfl, ⟨_, rfl, ?_⟩, fun hnodup => ?_⟩
  · simp only [List.mem_singleton, forall_eq]
    exact ⟨⟨rfl, rfl, rfl⟩, s, ret, hs, hparams, hret, rfl⟩
  · -- The name was not there before.
    simp only [State.functionIndex?, Option.map_eq_none_iff, List.findIdx?_eq_none_iff,
      decide_eq_false_iff_not] at hnone
    cases hfs : σ.functions with
    | nil => simp [functionNames]
    | cons f fs =>
        rw [hfs] at hnodup hnone
        simp only [functionNames, List.cons_append, List.drop_succ_cons, List.drop_zero,
          List.map_append, List.map_cons, List.map_nil] at hnodup ⊢
        refine List.nodup_append.2 ⟨hnodup, by simp, ?_⟩
        rintro x hx _ hy rfl
        obtain rfl := List.mem_singleton.1 hy
        obtain ⟨g, hg, hname⟩ := List.mem_map.1 hx
        exact hnone g hg hname

/-- **A function that has been declared is found by its number.** -/
theorem declare_number {entry : Bytes} {s : Signature} {σ σ' : State} {i : Nat}
    (hfs : σ.functions ≠ []) (h : declare entry s σ = .ok (i, σ')) :
    numberOf? σ'.functions s.name.lexeme = some i := by
  unfold declare at h
  split at h
  · rename_i j hj
    cases h
    exact hj
  rename_i hnone
  split at h
  · cases h
  split at h
  · cases h
  cases h
  rw [numberOf?_eq_some_iff]
  refine ⟨List.length_pos_iff.2 hfs, ⟨_, List.getElem?_concat_length, rfl⟩, ?_⟩
  intro j f hpos hlt hf hsame
  -- The name was not there before, so no earlier function has it.
  rw [List.getElem?_append_left hlt] at hf
  simp only [State.functionIndex?, Option.map_eq_none_iff, List.findIdx?_eq_none_iff] at hnone
  obtain ⟨k, rfl⟩ : ∃ k, j = 1 + k := ⟨j - 1, by omega⟩
  rw [← List.getElem?_drop] at hf
  simpa [hsame] using hnone f (List.mem_of_getElem? hf)

/-! ## States of one function -/

/-- `σ'` comes after `σ` in the same function. -/
structure Grows (c : Context) (σ σ' : State) : Prop where
  globals : σ.globals <+: σ'.globals
  functions : FunctionsAdded c.entry c.program σ.functions σ'.functions
  blocks : BlocksGrow σ.blocks σ'.blocks
  others : ∀ k, k < σ.blocks.length → k ≠ σ.current → σ'.blocks[k]? = σ.blocks[k]?
  current : σ'.current = σ.current ∨ σ.blocks.length ≤ σ'.current

/-- `σ'` comes after `σ` in the same block, and no variable has been added. -/
structure Straight (c : Context) (σ σ' : State) : Prop extends Grows c σ σ' where
  same : σ'.current = σ.current
  length : σ'.blocks.length = σ.blocks.length
  locals : σ'.locals = σ.locals
  isOpen : σ'.Open

section

variable {c : Context} {σ σ' σ'' : State}

theorem Grows.trans (h : Grows c σ σ') (h' : Grows c σ' σ'') : Grows c σ σ'' where
  globals := List.IsPrefix.trans h.globals h'.globals
  functions := h.functions.trans h'.functions
  blocks := h.blocks.trans h'.blocks
  others := by
    intro k hk hne
    have hlen := h.blocks.length_le
    rw [h'.others k (by omega) (by have := h.current; omega), h.others k hk hne]
  current := by
    have hlen := h.blocks.length_le
    have := h.current
    have := h'.current
    omega

theorem Straight.trans (h : Straight c σ σ') (h' : Straight c σ' σ'') : Straight c σ σ'' where
  toGrows := h.toGrows.trans h'.toGrows
  same := h'.same.trans h.same
  length := h'.length.trans h.length
  locals := h'.locals.trans h.locals
  isOpen := h'.isOpen

/-- Only constants and functions have been added. -/
theorem Straight.of_shared (hopen : σ.Open) (hglobals : σ.globals <+: σ'.globals)
    (hfunctions : FunctionsAdded c.entry c.program σ.functions σ'.functions)
    (hblocks : σ'.blocks = σ.blocks) (hcurrent : σ'.current = σ.current)
    (hlocals : σ'.locals = σ.locals) : Straight c σ σ' where
  globals := hglobals
  functions := hfunctions
  blocks := hblocks ▸ .refl _
  others := fun k _ _ => by rw [hblocks]
  current := .inl hcurrent
  same := hcurrent
  length := by rw [hblocks]
  locals := hlocals
  isOpen := by
    obtain ⟨b, hb, hnone⟩ := hopen
    exact ⟨b, by rw [hblocks, hcurrent, hb], hnone⟩

theorem Straight.refl (hopen : σ.Open) : Straight c σ σ :=
  .of_shared hopen (List.prefix_refl _) (.refl _ _ _) rfl rfl rfl

theorem emit_straight (hopen : σ.Open) (i : Instruction) : Straight c σ (σ.emit i).2 where
  globals := List.prefix_refl _
  functions := .refl _ _ _
  blocks := (hopen.emit i).2
  others := by
    intro k hk hne
    rw [State.emit_getElem?]
    simp [Ne.symm hne]
  current := .inl rfl
  same := rfl
  length := by simp [State.emit]
  locals := rfl
  isOpen := (hopen.emit i).1

/-- A constant is at its number once it has been asked for; if it was there before, nothing else
changes. -/
theorem constant_cases (σ : State) (name content : Bytes) :
    ∃ i, (σ.constant name content).1 = .string i content.length ∧
      (σ.constant name content).2.globals[i]? = some ⟨name, content⟩ ∧
      ((σ.constant name content).2 = σ ∨ ⟨name, content⟩ ∉ σ.globals ∧
        (σ.constant name content).2 = { σ with globals := σ.globals ++ [⟨name, content⟩] }) := by
  unfold State.constant
  split
  · rename_i i hi
    obtain ⟨hlt, hfound, -⟩ := List.findIdx?_eq_some_iff_getElem.1 hi
    obtain ⟨rfl, rfl⟩ := of_decide_eq_true hfound
    exact ⟨i, rfl, List.getElem?_eq_getElem hlt, .inl rfl⟩
  · rename_i hnone
    refine ⟨_, rfl, List.getElem?_concat_length, .inr ⟨fun hmem => ?_, rfl⟩⟩
    simpa using List.findIdx?_eq_none_iff.1 hnone _ hmem

theorem constant_straight (hopen : σ.Open) (name content : Bytes) :
    Straight c σ (σ.constant name content).2 := by
  obtain ⟨-, -, -, heq | ⟨-, heq⟩⟩ := constant_cases σ name content
  · rw [heq]
    exact .refl hopen
  · rw [heq]
    exact .of_shared hopen (List.prefix_append _ _) (.refl _ _ _) rfl rfl rfl

theorem declare_straight (hopen : σ.Open) {s : Signature} {i : Nat}
    (hs : lastSignature? c.program s.name.lexeme = some s)
    (h : declare c.entry s σ = .ok (i, σ')) : Straight c σ σ' := by
  obtain ⟨heq, hadded⟩ := declare_added hs h
  have hglobals : σ'.globals = σ.globals := by rw [heq]
  exact .of_shared hopen (hglobals ▸ List.prefix_refl _) hadded (by rw [heq]) (by rw [heq])
    (by rw [heq])

end

/-! ## Expressions -/

section

variable {c : Context}

/-- How an operation is lowered. -/
theorem lowerValue_binary {l r : Node} {op : Token} {σ σ' : State} {o : Operand}
    (h : lowerValue c (.binary l op r) σ = .ok (o, σ')) :
    ∃ lo σ₁ ro σ₂ i, lowerValue c l σ = .ok (lo, σ₁) ∧ lowerValue c r σ₁ = .ok (ro, σ₂) ∧
      operation op lo ro = .ok i ∧ o = .result σ₂.site lo.type ∧
      σ' = (σ₂.emit (.arithmetic i lo ro)).2 := by
  rw [lowerValue] at h
  split at h
  · cases h
  rename_i lo σ₁ hl
  split at h
  · cases h
  rename_i ro σ₂ hr
  split at h
  · cases h
  rename_i i hi
  cases h
  exact ⟨lo, σ₁, ro, σ₂, i, hl, hr, hi, rfl, rfl⟩

/-- How a call is lowered. -/
theorem lowerValue_call {name : Token} {args : List Node} {σ σ' : State} {o : Operand}
    (h : lowerValue c (.call name args) σ = .ok (o, σ')) :
    ∃ s i σ₁ f os σ₂, lastSignature? c.program name.lexeme = some s ∧
      declare c.entry s σ = .ok (i, σ₁) ∧ σ₁.functions[i]? = some f ∧
      lowerValues c args σ₁ = .ok (os, σ₂) ∧ o = .result σ₂.site f.ret ∧
      σ' = (σ₂.emit (.call i f.ret os)).2 := by
  rw [lowerValue] at h
  split at h
  · cases h
  rename_i s hs
  split at h
  · cases h
  rename_i i σ₁ hdeclare
  split at h
  · cases h
  rename_i f hf
  split at h
  · cases h
  split at h
  · cases h
  rename_i os σ₂ hargs
  cases h
  exact ⟨s, i, σ₁, f, os, σ₂, hs, hdeclare, hf, hargs, rfl, rfl⟩

theorem lowerValues_cons {n : Node} {rest : List Node} {σ σ' : State} {os : List Operand}
    (h : lowerValues c (n :: rest) σ = .ok (os, σ')) :
    ∃ o σ₁ os', lowerValue c n σ = .ok (o, σ₁) ∧ lowerValues c rest σ₁ = .ok (os', σ') ∧
      os = o :: os' := by
  rw [lowerValues] at h
  split at h
  · cases h
  rename_i o σ₁ hn
  split at h
  · cases h
  rename_i os' σ₂ hrest
  cases h
  exact ⟨o, σ₁, os', hn, hrest, rfl⟩

theorem lowerRef_straight {name : Token} {σ σ' : State} {o : Operand} (hopen : σ.Open)
    (h : lowerRef c name σ = .ok (o, σ')) : Straight c σ σ' := by
  unfold lowerRef at h
  split at h
  · cases h
    exact .refl hopen
  split at h
  · cases h
    exact emit_straight hopen _
  · cases h

theorem lowerValues_straight {args : List Node}
    (hargs : ∀ n ∈ args, ∀ (σ σ' : State) (o : Operand), σ.Open → lowerValue c n σ = .ok (o, σ') →
      Straight c σ σ') {σ σ' : State} {os : List Operand} (hopen : σ.Open)
    (h : lowerValues c args σ = .ok (os, σ')) : Straight c σ σ' := by
  induction args generalizing σ os with
  | nil =>
      cases h
      exact .refl hopen
  | cons n rest ih =>
      rw [List.forall_mem_cons] at hargs
      obtain ⟨o, σ₁, os', hn, hrest, -⟩ := lowerValues_cons h
      have hfirst := hargs.1 _ _ _ hopen hn
      exact hfirst.trans (ih hargs.2 hfirst.isOpen hrest)

/-- **The code of an expression stays in one block and declares no variable.** -/
theorem lowerValue_straight (n : Node) {σ σ' : State} {o : Operand} (hopen : σ.Open)
    (h : lowerValue c n σ = .ok (o, σ')) : Straight c σ σ' := by
  match n with
  | .int .. | .float .. | .bool .. =>
      rw [lowerValue] at h
      cases h
      exact .refl hopen
  | .string _ v =>
      rw [lowerValue] at h
      have heq : (σ.stringConstant v).2 = σ' := congrArg Prod.snd (Except.ok.inj h)
      exact heq ▸ constant_straight hopen _ _
  | .ref name =>
      rw [lowerValue] at h
      exact lowerRef_straight hopen h
  | .binary l op r =>
      obtain ⟨lo, σ₁, ro, σ₂, i, hl, hr, -, -, rfl⟩ := lowerValue_binary h
      have hleft := lowerValue_straight l hopen hl
      have hright := lowerValue_straight r hleft.isOpen hr
      exact (hleft.trans hright).trans (emit_straight hright.isOpen _)
  | .call name args =>
      obtain ⟨s, i, σ₁, f, os, σ₂, hs, hcallee, -, hargs, -, rfl⟩ := lowerValue_call h
      have hdeclare := declare_straight hopen (by rw [lastSignature?_name hs]; exact hs) hcallee
      have hvalues := lowerValues_straight
        (fun a _ _ _ _ hopen h => lowerValue_straight a hopen h) hdeclare.isOpen hargs
      exact (hdeclare.trans hvalues).trans (emit_straight hvalues.isOpen _)
  | .decl .. | .assign .. | .signature .. | .func .. | .cond .. | .ret .. | .print .. =>
      simp [lowerValue] at h
termination_by n
decreasing_by
  all_goals simp_wf
  all_goals try omega
  have := List.sizeOf_lt_of_mem ‹_›
  omega

/-- An operand as it is handed to `printf`: a Bool is widened. -/
def State.widen (σ : State) (v : Operand) : Operand × State :=
  if v.type = .i1 then (.result (σ.emit (.zext v)).1 .i32, (σ.emit (.zext v)).2) else (v, σ)

theorem lowerPrint_eq (token : Token) (σ : State) {v : Operand} {name text : Bytes}
    (h : format? v.type = some (name, text)) :
    lowerPrint token v σ =
      let widened := σ.widen v
      let format := widened.2.constant name (text ++ [0])
      .ok (format.2.emit (.call 0 .i32 [format.1, widened.1])).2 := by
  rw [lowerPrint, h]
  rfl

theorem widen_straight {v : Operand} {σ : State} (hopen : σ.Open) :
    Straight c σ (σ.widen v).2 := by
  unfold State.widen
  split
  · exact emit_straight hopen _
  · exact .refl hopen

theorem lowerPrint_straight {token : Token} {v : Operand} {σ σ' : State} (hopen : σ.Open)
    (h : lowerPrint token v σ = .ok σ') : Straight c σ σ' := by
  cases hformat : format? v.type with
  | none =>
      rw [lowerPrint, hformat] at h
      cases h
  | some format =>
      rw [lowerPrint_eq _ _ hformat] at h
      cases h
      have hwiden : Straight c σ (σ.widen v).2 := widen_straight hopen
      have hconstant := hwiden.trans (constant_straight hwiden.isOpen format.1 (format.2 ++ [0]))
      exact hconstant.trans (emit_straight hconstant.isOpen _)

end

/-! ## Statements -/

/-- `σ'` comes after `σ` in the same function; `ended` says whether the current block has ended. -/
structure Follows (c : Context) (σ σ' : State) (ended : Bool) : Prop extends Grows c σ σ' where
  inRange : σ'.current < σ'.blocks.length
  isTerminated : σ'.isTerminated = ended

/-- A variable with its first and only value. -/
def State.bind (σ : State) (x : Bytes) (v : Operand) : State :=
  let stored := ((σ.emit (.alloca v.type)).2.emit (.store v σ.site)).2
  { stored with locals := (x, ⟨σ.site, v.type⟩) :: stored.locals }

/-- The block of an `if` on `v`; the code after the `if` is in the block after that. -/
def State.branch (σ : State) (v : Operand) : State :=
  let ended := σ.terminate (.condBr v σ.blocks.length (σ.blocks.length + 1))
  { ended with blocks := ended.blocks ++ [.empty, .empty], current := σ.blocks.length }

/-- The code goes on in the block `merge`. -/
def State.join (σ : State) (merge : Nat) : State :=
  { (if σ.isTerminated then σ else σ.terminate (.br merge)) with current := merge }

section

variable {c : Context} {σ σ' : State}

theorem Straight.follows (h : Straight c σ σ') : Follows c σ σ' false :=
  ⟨h.toGrows, h.isOpen.lt, h.isOpen.isTerminated_eq⟩

theorem Follows.isOpen (h : Follows c σ σ' false) : σ'.Open :=
  State.open_of_not_terminated h.inRange h.isTerminated

theorem terminate_follows (hopen : σ.Open) (t : Terminator) :
    Follows c σ (σ.terminate t) true where
  globals := List.prefix_refl _
  functions := .refl _ _ _
  blocks := hopen.terminate t
  others := by
    intro k hk hne
    rw [State.terminate_getElem?]
    simp [Ne.symm hne]
  current := .inl rfl
  inRange := by
    have := hopen.lt
    simpa [State.terminate] using this
  isTerminated := hopen.isTerminated_terminate t

theorem lowerStatement_assign (c : Context) (d : Decl) (value : Node) :
    lowerStatement c (.assign d value) σ =
      (lowerValue c value σ).map fun r => r.2.bind d.name.lexeme r.1 := by
  rw [lowerStatement]
  cases lowerValue c value σ <;> rfl

theorem lowerStatement_cond_eq (token : Token) (condition : Node) (body : List Node) :
    lowerStatement c (.cond token condition body) σ =
      match lowerValue c condition σ with
      | .error e => .error e
      | .ok (v, σ) =>
        if v.type ≠ .i1 then .error ⟨.condition v.type, token⟩
        else match lowerBody c body (σ.branch v) with
          | .error e => .error e
          | .ok σ' => .ok (σ'.join (σ.blocks.length + 1)) := by
  rw [lowerStatement]
  rfl

/-- How an `if` is lowered: its block, and then the block in which the code goes on. -/
theorem lowerStatement_cond {token : Token} {condition : Node} {body : List Node}
    (h : lowerStatement c (.cond token condition body) σ = .ok σ') :
    ∃ o σ₁ σ₂, lowerValue c condition σ = .ok (o, σ₁) ∧
      lowerBody c body (σ₁.branch o) = .ok σ₂ ∧ σ' = σ₂.join (σ₁.blocks.length + 1) := by
  rw [lowerStatement_cond_eq] at h
  split at h
  · cases h
  rename_i o σ₁ hvalue
  split at h
  · cases h
  split at h
  · cases h
  rename_i σ₂ hbody
  cases h
  exact ⟨o, σ₁, σ₂, hvalue, hbody, rfl⟩

/-- A statement that ends its block is the last one to be lowered. -/
theorem lowerBody_cons {n : Node} {rest : List Node} (h : lowerBody c (n :: rest) σ = .ok σ') :
    ∃ σ₁, lowerStatement c n σ = .ok σ₁ ∧ (σ₁.isTerminated = true → σ' = σ₁) ∧
      (σ₁.isTerminated = false → lowerBody c rest σ₁ = .ok σ') := by
  rw [lowerBody] at h
  split at h
  · cases h
  rename_i σ₁ hn
  refine ⟨σ₁, hn, fun hended => ?_, fun hended => ?_⟩
  · rw [if_pos hended] at h
    cases h
    rfl
  · rwa [hended] at h

theorem branch_getElem? {v : Operand} {k : Nat} (hk : k < σ.blocks.length) :
    (σ.branch v).blocks[k]? =
      (σ.terminate (.condBr v σ.blocks.length (σ.blocks.length + 1))).blocks[k]? :=
  List.getElem?_append_left (by simpa [State.terminate] using hk)

/-- The block in front of an `if` is as it was ended. -/
theorem branch_blocks (σ : State) (v : Operand) :
    BlocksGrow (σ.terminate (.condBr v σ.blocks.length (σ.blocks.length + 1))).blocks
      (σ.branch v).blocks :=
  fun _ b hb => ⟨b, (List.getElem?_append_left (List.getElem?_eq_some_iff.1 hb).1).trans hb, .refl b⟩

/-- The two blocks of an `if` are new and empty. -/
theorem branch_new (σ : State) (v : Operand) :
    (σ.branch v).blocks.length = σ.blocks.length + 2 ∧
      (σ.branch v).blocks[σ.blocks.length]? = some .empty ∧
      (σ.branch v).blocks[σ.blocks.length + 1]? = some .empty := by
  simp [State.branch, State.terminate]

theorem branch_open (σ : State) (v : Operand) :
    (σ.branch v).Open ∧ (σ.branch v).site = ⟨σ.blocks.length, 0⟩ := by
  obtain ⟨-, hthen, -⟩ := branch_new σ v
  refine ⟨⟨.empty, hthen, rfl⟩, ?_⟩
  rw [State.site, State.block_eq hthen]
  rfl

theorem branch_grows (hopen : σ.Open) (v : Operand) : Grows c σ (σ.branch v) where
  globals := List.prefix_refl _
  functions := .refl _ _ _
  blocks := by
    intro k b hb
    have hk := (List.getElem?_eq_some_iff.1 hb).1
    rw [branch_getElem? hk]
    exact hopen.terminate _ k b hb
  others := by
    intro k hk hne
    rw [branch_getElem? hk]
    exact (terminate_follows (c := c) hopen _).others k hk hne
  current := .inr (Nat.le_refl _)

theorem join_getElem? {merge k : Nat} (hk : k ≠ σ.current) :
    (σ.join merge).blocks[k]? = σ.blocks[k]? := by
  unfold State.join
  split
  · rfl
  · show (σ.terminate (.br merge)).blocks[k]? = _
    rw [State.terminate_getElem?]
    simp [Ne.symm hk]

theorem join_blocks (hlt : σ.current < σ.blocks.length) (merge : Nat) :
    BlocksGrow σ.blocks (σ.join merge).blocks := by
  unfold State.join
  split
  · exact .refl _
  · rename_i hended
    exact (State.open_of_not_terminated hlt (by simpa using hended)).terminate _

theorem join_shared (σ : State) (merge : Nat) :
    (σ.join merge).globals = σ.globals ∧ (σ.join merge).functions = σ.functions ∧
      (σ.join merge).locals = σ.locals := by
  unfold State.join
  split <;> exact ⟨rfl, rfl, rfl⟩

/-- **After an `if` the code goes on in a block that is still empty**: nothing in the `if`'s body is
emitted there. -/
theorem join_follows (hopen : σ.Open) {v : Operand} (h : Grows c (σ.branch v) σ')
    (hlt : σ'.current < σ'.blocks.length) :
    Follows c σ (σ'.join (σ.blocks.length + 1)) false ∧
      (σ'.join (σ.blocks.length + 1)).site = ⟨σ.blocks.length + 1, 0⟩ := by
  obtain ⟨hlen, -, hmerge⟩ := branch_new σ v
  obtain ⟨hglobals, hfunctions, -⟩ := join_shared σ' (σ.blocks.length + 1)
  have hcurrent : σ'.current = σ.blocks.length ∨ σ.blocks.length + 2 ≤ σ'.current := by
    have := h.current
    rwa [hlen] at this
  have hblock : (σ'.join (σ.blocks.length + 1)).blocks[σ.blocks.length + 1]? = some .empty := by
    rw [join_getElem? (by omega), h.others _ (by omega) (by simp [State.branch]), hmerge]
  have hjoined : (σ'.join (σ.blocks.length + 1)).Open := ⟨.empty, hblock, rfl⟩
  have hgrows : Grows c σ (σ'.join (σ.blocks.length + 1)) := by
    have hall := (branch_grows hopen v).trans h
    refine ⟨hglobals ▸ hall.globals, hfunctions ▸ hall.functions,
      hall.blocks.trans (join_blocks hlt _), ?_, .inr (by simp [State.join])⟩
    intro k hk hne
    rw [join_getElem? (by omega), hall.others k hk hne]
  refine ⟨⟨hgrows, hjoined.lt, hjoined.isTerminated_eq⟩, ?_⟩
  have hempty : (σ'.join (σ.blocks.length + 1)).block = .empty := State.block_eq hblock
  rw [State.site, hempty]
  rfl

/-- A statement that is an expression is lowered for what it does. -/
theorem lowerStatement_expr {P : Token → Prop} {n : Node} (hn : n.IsExpr P) :
    lowerStatement c n σ = (lowerValue c n σ).map Prod.snd := by
  cases hn <;> simp only [lowerStatement] <;> cases lowerValue c _ σ <;> rfl

theorem Straight.trans_follows {σ'' : State} {ended : Bool} (h : Straight c σ σ')
    (h' : Follows c σ' σ'' ended) : Follows c σ σ'' ended :=
  ⟨h.toGrows.trans h'.toGrows, h'.inRange, h'.isTerminated⟩

/-- What the lowering of a statement is shown to do. -/
def StatementFollows (c : Context) (n : Node) : Prop :=
  ∀ σ σ', σ.Open → lowerStatement c n σ = .ok σ' → Follows c σ σ' n.isReturn

theorem lowerBody_follows_of {ns : List Node} (hns : ∀ n ∈ ns, StatementFollows c n)
    (hopen : σ.Open) (h : lowerBody c ns σ = .ok σ') :
    Follows c σ σ' (ns.any Node.isReturn) := by
  induction ns generalizing σ with
  | nil =>
      cases h
      exact (Straight.refl hopen).follows
  | cons n rest ih =>
      rw [List.forall_mem_cons] at hns
      obtain ⟨σ₁, hn, hended, hrest⟩ := lowerBody_cons h
      have hfirst := hns.1 _ _ hopen hn
      rw [List.any_cons]
      cases hret : n.isReturn with
      | true =>
          rw [hret] at hfirst
          rw [hended hfirst.isTerminated]
          exact hfirst
      | false =>
          rw [hret] at hfirst
          have hrest := ih hns.2 hfirst.isOpen (hrest hfirst.isTerminated)
          exact ⟨hfirst.toGrows.trans hrest.toGrows, hrest.inRange, hrest.isTerminated⟩

/-- **A statement ends its block exactly if it is a `return`.** -/
theorem lowerStatement_follows (c : Context) (n : Node) : StatementFollows c n := by
  intro σ σ' hopen h
  match n with
  | .int .. | .float .. | .bool .. | .string .. | .ref .. | .binary .. | .call .. =>
      simp only [lowerStatement] at h
      split at h
      · cases h
      rename_i o σ₁ hvalue
      cases h
      exact (lowerValue_straight _ hopen hvalue).follows
  | .decl .. | .func .. | .signature .. => simp only [lowerStatement, reduceCtorEq] at h
  | .assign d value =>
      rw [lowerStatement] at h
      split at h
      · cases h
      rename_i v σ₁ hvalue
      have hstraight := lowerValue_straight value hopen hvalue
      have hslot := hstraight.trans (emit_straight hstraight.isOpen (.alloca v.type))
      have hstored := hslot.trans
        (emit_straight hslot.isOpen (.store v (σ₁.emit (.alloca v.type)).1))
      cases h
      exact ⟨⟨hstored.globals, hstored.functions, hstored.blocks, hstored.others, hstored.current⟩,
        hstored.isOpen.lt, hstored.isOpen.isTerminated_eq⟩
  | .print token [] => simp only [lowerStatement, reduceCtorEq] at h
  | .print token (arg :: _) =>
      rw [lowerStatement] at h
      split at h
      · cases h
      rename_i v σ₁ hvalue
      have hstraight := lowerValue_straight arg hopen hvalue
      exact (hstraight.trans (lowerPrint_straight hstraight.isOpen h)).follows
  | .ret token value =>
      rw [lowerStatement] at h
      split at h
      · cases h
      rename_i v σ₁ hvalue
      have hstraight := lowerValue_straight value hopen hvalue
      cases h
      exact hstraight.trans_follows (terminate_follows hstraight.isOpen _)
  | .cond token condition body =>
      obtain ⟨v, σ₁, σ₂, hvalue, hbody, rfl⟩ := lowerStatement_cond h
      have hstraight := lowerValue_straight condition hopen hvalue
      have hinner := lowerBody_follows_of (fun n _ => lowerStatement_follows c n)
        (branch_open σ₁ v).1 hbody
      exact hstraight.trans_follows (join_follows hstraight.isOpen hinner.toGrows hinner.inRange).1
termination_by n
decreasing_by
  simp_wf
  have := List.sizeOf_lt_of_mem ‹_›
  omega

/-- **A body ends its block exactly if one of its statements is a `return`.** -/
theorem lowerBody_follows {ns : List Node} (hopen : σ.Open) (h : lowerBody c ns σ = .ok σ') :
    Follows c σ σ' (ns.any Node.isReturn) :=
  lowerBody_follows_of (fun n _ => lowerStatement_follows c n) hopen h

end

end IR

end Swiftlet
