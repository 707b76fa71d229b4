import Swiftlet.Proofs.IR.Dominance

/-!
# Well-formed functions

What has to hold of the code of a function for its instructions to mean something: a result is used
only where it has been computed, a slot is read only where it has been stored to, branches stay
inside the function, and parameters are its own.

* `Function.WellFormed` — the conditions, on a function with all its blocks.
* `State.Placed`, `Visible` — the same while a body is lowered: where operands come from, and where
  the slots of the visible variables are.

A variable of an `if`'s body has its slot in a block that does not dominate the code after the `if`.
It is not visible there, and so its slot is not read.

Principal results: `LowersBody.placed` and `wellFormed_of_analyze`.
-/

namespace Swiftlet

namespace IR

open Typing

/-! ## Results, slots and uses -/

/-- The operands of an instruction, slots apart. -/
def Instruction.operands : Instruction → List Operand
  | .alloca _ | .load .. => []
  | .store v _ | .zext v => [v]
  | .arithmetic _ l r => [l, r]
  | .call _ _ args => args

/-- The slot that an instruction reads or writes. -/
def Instruction.slot? : Instruction → Option Site
  | .store _ slot | .load _ slot => some slot
  | _ => none

/-- The type of the value that an instruction results in. A new slot is no value, and a call that
returns nothing has no result. -/
def Instruction.resultType? : Instruction → Option Ty
  | .alloca _ | .store .. => none
  | .load t _ => some t
  | .arithmetic _ l _ => some l.type
  | .zext _ => some .i32
  | .call _ ret _ => if ret = .void then none else some ret

def Terminator.operands : Terminator → List Operand
  | .ret v => v.toList
  | .br _ => []
  | .condBr v _ _ => [v]

namespace Function

/-- `o` is an operand of the instruction at `s`, or of the terminator if `s` is behind the last
instruction of its block. -/
def Uses (f : Function) (s : Site) (o : Operand) : Prop :=
  (∃ i, instructionAt? f.blocks s = some i ∧ o ∈ i.operands) ∨
    ∃ b t, f.blocks[s.block]? = some b ∧ s.index = b.instructions.length ∧
      b.terminator = some t ∧ o ∈ t.operands

/-- `a` is earlier than `b` in the same block, or in a block that dominates that of `b`. -/
def Precedes (f : Function) (a b : Site) : Prop :=
  a.block = b.block ∧ a.index < b.index ∨
    a.block ≠ b.block ∧ Dominates f.blocks a.block b.block

structure WellFormed (f : Function) : Prop where
  /-- A result that is used has been computed before. -/
  results : ∀ s d t, f.Uses s (.result d t) →
    (∃ i, instructionAt? f.blocks d = some i ∧ i.resultType? = some t) ∧ f.Precedes d s
  /-- A slot that is read or written has been made before. -/
  slots : ∀ s i slot, instructionAt? f.blocks s = some i → i.slot? = some slot →
    (∃ t, instructionAt? f.blocks slot = some (.alloca t)) ∧ f.Precedes slot s
  /-- A slot is read as what it was made for, and it has been stored to before, once. -/
  loads : ∀ s t slot, instructionAt? f.blocks s = some (.load t slot) →
    instructionAt? f.blocks slot = some (.alloca t) ∧ ∃ d, f.Precedes d s ∧
      ∀ d', (∃ v, instructionAt? f.blocks d' = some (.store v slot)) ↔ d' = d
  targets : ∀ k t, terminatorOf? f.blocks k = some t → ∀ b ∈ t.targets, 0 < b ∧ b < f.blocks.length
  params : ∀ s i t, f.Uses s (.param i t) → ∃ p, f.params[i]? = some p ∧ p.type = t

end Function

/-! ## Operands and slots while a body is lowered -/

/-- The operand is a parameter, a constant or the result of an instruction in block `k`. -/
def OperandIn (params : List Param) (bs : List Block) (k : Nat) : Operand → Prop
  | .param i t => ∃ p, params[i]? = some p ∧ p.type = t
  | .result d t => d.block = k ∧ ∃ i, instructionAt? bs d = some i ∧ i.resultType? = some t
  | _ => True

def Site.next (s : Site) : Site := ⟨s.block, s.index + 1⟩

/-- There is a slot for values of type `t`, and it is stored to as soon as it is made. -/
structure SlotIn (bs : List Block) (slot : Site) (t : Ty) : Prop where
  alloca : instructionAt? bs slot = some (.alloca t)
  store : ∃ v, instructionAt? bs slot.next = some (.store v slot)

structure InstructionIn (params : List Param) (bs : List Block) (s : Site) (i : Instruction) :
    Prop where
  operands : ∀ o ∈ i.operands, OperandIn params bs s.block o
  earlier : ∀ d t, .result d t ∈ i.operands → d.index < s.index
  load : ∀ t slot, i = .load t slot → SlotIn bs slot t ∧ Above bs slot.block s.block ∧
    (slot.block = s.block → slot.index + 1 < s.index)
  store : ∀ v slot, i = .store v slot →
    s = slot.next ∧ instructionAt? bs slot = some (.alloca v.type)

/-- All code of `blocks` uses what is there before it in `bs`. -/
def CodeIn (params : List Param) (bs blocks : List Block) : Prop :=
  Everywhere (InstructionIn params bs) (fun k t => ∀ o ∈ t.operands, OperandIn params bs k o) blocks

/-- The code so far uses what is there before it. -/
def State.Placed (params : List Param) (σ : State) : Prop := CodeIn params σ.blocks σ.blocks

/-- The slots of the visible variables are in blocks above the current one. -/
def Visible (Γ : Scope) (σ : State) : Prop :=
  ∀ x t slot, (x, t) ∈ Γ → σ.locals.lookup x = some slot →
    SlotIn σ.blocks slot.site slot.type ∧ Above σ.blocks slot.site.block σ.current

section

variable {params : List Param} {bs bs' : List Block} {σ σ' : State} {Γ : Scope}

theorem OperandIn.grow {k : Nat} {o : Operand} (h : OperandIn params bs k o)
    (hgrow : BlocksGrow bs bs') : OperandIn params bs' k o := by
  cases o with
  | result d t =>
      obtain ⟨hblock, i, hi, hresult⟩ := h
      exact ⟨hblock, i, hgrow.instructionAt? hi, hresult⟩
  | _ => exact h

theorem SlotIn.grow {slot : Site} {t : Ty} (h : SlotIn bs slot t) (hgrow : BlocksGrow bs bs') :
    SlotIn bs' slot t :=
  ⟨hgrow.instructionAt? h.alloca, h.store.imp fun _ hv => hgrow.instructionAt? hv⟩

theorem InstructionIn.grow {s : Site} {i : Instruction} (h : InstructionIn params bs s i)
    (hgrow : BlocksGrow bs bs') : InstructionIn params bs' s i where
  operands o ho := (h.operands o ho).grow hgrow
  earlier := h.earlier
  load t slot hi := by
    obtain ⟨hslot, habove, hbefore⟩ := h.load t slot hi
    exact ⟨hslot.grow hgrow, habove.grow hgrow, hbefore⟩
  store v slot hi := by
    obtain ⟨hs, halloca⟩ := h.store v slot hi
    exact ⟨hs, hgrow.instructionAt? halloca⟩

theorem CodeIn.grow {blocks : List Block} (h : CodeIn params bs blocks)
    (hgrow : BlocksGrow bs bs') : CodeIn params bs' blocks :=
  h.mono (fun _ _ hi => hi.grow hgrow) fun _ _ ht o ho => (ht o ho).grow hgrow

theorem Visible.grow (h : Visible Γ σ) (hkept : LocalsKept Γ σ σ')
    (hgrow : BlocksGrow σ.blocks σ'.blocks) (habove : Above σ'.blocks σ.current σ'.current) :
    Visible Γ σ' := by
  intro x t slot hx hslot
  rw [hkept x (List.mem_map.2 ⟨_, hx, rfl⟩)] at hslot
  obtain ⟨hin, hσ⟩ := h x t slot hx hslot
  exact ⟨hin.grow hgrow, (hσ.grow hgrow).trans habove⟩

theorem Visible.straight {c : Context} (h : Visible Γ σ) (hstraight : Straight c σ σ') :
    Visible Γ σ' :=
  h.grow (fun x _ => by rw [hstraight.locals]) hstraight.blocks (hstraight.same ▸ .refl)

/-- What is in the current block stands before the next site. -/
theorem index_lt_site (hopen : σ.Open) {d : Site} {i : Instruction}
    (hi : instructionAt? σ.blocks d = some i) (hblock : d.block = σ.current) :
    d.index < σ.site.index := by
  obtain ⟨b, hb, -⟩ := hopen
  rw [instructionAt?, hblock, hb, Option.bind_some] at hi
  rw [State.site, State.block_eq hb]
  exact (List.getElem?_eq_some_iff.1 hi).1

theorem State.Placed.emit (h : σ.Placed params) (hopen : σ.Open) {i : Instruction}
    (hi : InstructionIn params σ.blocks σ.site i) : (σ.emit i).2.Placed params := by
  have hgrow := (hopen.emit i).2
  exact Everywhere.emit (h.grow hgrow) hopen (hi.grow hgrow)

/-- An instruction on operands of the current block may stand next. -/
theorem instructionIn_site (hopen : σ.Open) {i : Instruction}
    (hops : ∀ o ∈ i.operands, OperandIn params σ.blocks σ.current o) (hslot : i.slot? = none) :
    InstructionIn params σ.blocks σ.site i where
  operands := hops
  earlier d t hd := by
    obtain ⟨hblock, i', hi', -⟩ := hops _ hd
    exact index_lt_site hopen hi' hblock
  load t slot hi := by
    subst hi
    cases hslot
  store v slot hi := by
    subst hi
    cases hslot

/-- The result of the instruction that is emitted is in the current block. -/
theorem operandIn_emit (hopen : σ.Open) {i : Instruction} {t : Ty} (ht : i.resultType? = some t) :
    OperandIn params (σ.emit i).2.blocks σ.current (.result σ.site t) := by
  refine ⟨rfl, i, ?_, ht⟩
  rw [emit_instructionAt? hopen, if_pos rfl]

end

/-! ## Code -/

/-- The operands that hold values are in the current block. -/
def ValuesIn (params : List Param) (σ : State) (os : List Operand) : Prop :=
  ∀ o ∈ os, o.type ≠ .void → OperandIn params σ.blocks σ.current o

section

variable {c : Context} {s : Signature} {Γ : Scope} {σ σ' : State}

theorem ValuesIn.cons {params : List Param} {o : Operand} {os : List Operand}
    (ho : o.type ≠ .void → OperandIn params σ.blocks σ.current o) (hstraight : Straight c σ σ')
    (h : ValuesIn params σ' os) : ValuesIn params σ' (o :: os) := by
  refine List.forall_mem_cons.2 ⟨fun hvoid => ?_, h⟩
  rw [hstraight.same]
  exact (ho hvoid).grow hstraight.blocks

theorem State.Placed.constant {params : List Param} (h : σ.Placed params) (name content : Bytes) :
    (σ.constant name content).2.Placed params := by
  unfold State.constant
  split <;> exact h

theorem constant_code (σ : State) (name content : Bytes) :
    (σ.constant name content).2.blocks = σ.blocks ∧
      (σ.constant name content).2.current = σ.current := by
  unfold State.constant
  split <;> exact ⟨rfl, rfl⟩

theorem constant_operandIn (params : List Param) (σ : State) (name content : Bytes)
    (bs : List Block) (k : Nat) : OperandIn params bs k (σ.constant name content).1 := by
  unfold State.constant
  split <;> trivial

/-- A load of a visible variable may stand next. -/
theorem Visible.load {params : List Param} (h : Visible Γ σ) (hopen : σ.Open) {x : Bytes}
    {t : Swiftlet.Ty} {slot : Slot} (hx : (x, t) ∈ Γ) (hslot : σ.locals.lookup x = some slot) :
    InstructionIn params σ.blocks σ.site (.load slot.type slot.site) where
  operands _ ho := nomatch ho
  earlier _ _ ho := nomatch ho
  load u slot' heq := by
    cases heq
    obtain ⟨hin, habove⟩ := h x t slot hx hslot
    obtain ⟨v, hstore⟩ := hin.store
    exact ⟨hin, habove, fun hblock => index_lt_site hopen hstore hblock⟩
  store _ _ heq := nomatch heq

theorem Emits.placed (hlow : Emittable c.entry c.program) {os : List Operand}
    (h : Emits c s Γ σ os σ') (hopen : σ.Open) (hσ : σ.Placed (s.params.map paramOf))
    (hvisible : Visible Γ σ) :
    σ'.Placed (s.params.map paramOf) ∧ ValuesIn (s.params.map paramOf) σ' os := by
  induction h with
  | nil => exact ⟨hσ, fun o ho => nomatch ho⟩
  | @literal o os _ _ ho hrest ih =>
      obtain ⟨hplaced, hvalues⟩ := ih hopen hσ hvisible
      refine ⟨hplaced, .cons (fun _ => ?_) (hrest.straight hopen) hvalues⟩
      cases o with
      | int | double | bool => trivial
      | _ => exact ho.elim
  | @string v _ σ _ hrest ih =>
      have hstring : Straight c σ (σ.stringConstant v).2 := constant_straight hopen _ _
      obtain ⟨hplaced, hvalues⟩ :=
        ih hstring.isOpen (hσ.constant _ _) (hvisible.straight hstring)
      exact ⟨hplaced, .cons (fun _ => constant_operandIn _ σ _ _ _ _)
        (hrest.straight hstring.isOpen) hvalues⟩
  | @param i p t _ _ _ hp ht hrest ih =>
      obtain ⟨hplaced, hvalues⟩ := ih hopen hσ hvisible
      refine ⟨hplaced, .cons (fun _ => ?_) (hrest.straight hopen) hvalues⟩
      exact ⟨paramOf p, by rw [List.getElem?_map, hp]; rfl, by simp [paramOf, ht]⟩
  | @load x t slot _ σ _ hx hslot hrest ih =>
      have hemit : Straight c σ _ := emit_straight hopen (.load (Ty.of t) slot)
      obtain ⟨hplaced, hvalues⟩ := ih hemit.isOpen (hσ.emit hopen (hvisible.load hopen hx hslot))
        (hvisible.straight hemit)
      exact ⟨hplaced, .cons (fun _ => operandIn_emit hopen rfl) (hrest.straight hemit.isOpen)
        hvalues⟩
  | @arithmetic op l r t _ σ σ₁ _ ht hvalues hl hr hrest ihv ih =>
      have hstraight := hvalues.straight hopen
      obtain ⟨hplaced₁, hin⟩ := ihv hopen hσ hvisible
      have hvoid : Ty.of t ≠ .void := Ty.of_eq_void.not.2 (by rintro rfl; cases ht)
      have hinstruction : InstructionIn (s.params.map paramOf) σ₁.blocks σ₁.site
          (.arithmetic op l r) :=
        instructionIn_site hstraight.isOpen (List.forall_mem_cons.2 ⟨hin l (by simp) (hl ▸ hvoid),
          List.forall_mem_singleton.2 (hin r (by simp) (hr ▸ hvoid))⟩) rfl
      have hemit : Straight c σ₁ _ := emit_straight hstraight.isOpen (.arithmetic op l r)
      obtain ⟨hplaced, hrestin⟩ := ih hemit.isOpen (hplaced₁.emit hstraight.isOpen hinstruction)
        (hvisible.straight (hstraight.trans hemit))
      refine ⟨hplaced, .cons (fun _ => operandIn_emit hstraight.isOpen ?_)
        (hrest.straight hemit.isOpen) hrestin⟩
      rw [Instruction.resultType?, hl]
  | @call callee i args t _ σ σ₁ σ₂ _ hcallee hdeclare hvalues hargs ht hrest ihv ih =>
      have hdeclared := declare_straight hopen hcallee hdeclare
      have hstraight := hvalues.straight hdeclared.isOpen
      have hσ₁ : σ₁.Placed (s.params.map paramOf) := by
        have hblocks : σ₁.blocks = σ.blocks := by rw [(declare_added hcallee hdeclare).1]
        rwa [State.Placed, hblocks]
      obtain ⟨hplaced₂, hin⟩ := ihv hdeclared.isOpen hσ₁ (hvisible.straight hdeclared)
      have hinstruction : InstructionIn (s.params.map paramOf) σ₂.blocks σ₂.site
          (.call i (Ty.of t) args) := by
        refine instructionIn_site hstraight.isOpen (fun o ho => hin o ho ?_) rfl
        -- A parameter has a type to store.
        have hmem : o.type ∈ callee.params.map fun p => (paramOf p).type :=
          hargs ▸ List.mem_map_of_mem ho
        obtain ⟨p, hp, htype⟩ := List.mem_map.1 hmem
        obtain ⟨u, hu, huvoid⟩ := hlow.storable hcallee p hp
        rw [← htype, paramOf, hu]
        exact Ty.of_eq_void.not.2 huvoid
      have hemit : Straight c σ₂ _ := emit_straight hstraight.isOpen (.call i (Ty.of t) args)
      obtain ⟨hplaced, hrestin⟩ := ih hemit.isOpen (hplaced₂.emit hstraight.isOpen hinstruction)
        (hvisible.straight ((hdeclared.trans hstraight).trans hemit))
      have hresult (h : Ty.of t ≠ .void) :
          (Instruction.call i (Ty.of t) args).resultType? = some (Ty.of t) := if_neg h
      exact ⟨hplaced, .cons (fun hvoid => operandIn_emit hstraight.isOpen (hresult hvoid))
        (hrest.straight hemit.isOpen) hrestin⟩

theorem State.Placed.terminate {params : List Param} (h : σ.Placed params) (hopen : σ.Open)
    {t : Terminator} (ht : ∀ o ∈ t.operands, OperandIn params σ.blocks σ.current o) :
    (σ.terminate t).Placed params := by
  have hgrow := hopen.terminate t
  exact Everywhere.terminate (h.grow hgrow) hopen.lt fun o ho => (ht o ho).grow hgrow

theorem State.Placed.branch {params : List Param} (h : σ.Placed params) (hopen : σ.Open)
    {v : Operand} (hv : OperandIn params σ.blocks σ.current v) : (σ.branch v).Placed params := by
  have hgrow := (hopen.terminate _).trans (branch_blocks σ v)
  exact Everywhere.branch (h.grow hgrow) hopen.lt (List.forall_mem_singleton.2 (hv.grow hgrow))

theorem State.Placed.join {params : List Param} (h : σ.Placed params)
    (hlt : σ.current < σ.blocks.length) (merge : Nat) : (σ.join merge).Placed params := by
  have hgrow := join_blocks hlt merge
  exact Everywhere.join (h.grow hgrow) hlt fun _ _ ho => nomatch ho

/-- A new variable's slot is made and stored to in the current block. -/
theorem State.Placed.bind {params : List Param} (h : σ.Placed params) (hopen : σ.Open) {v : Operand}
    (hv : OperandIn params σ.blocks σ.current v) (x : Bytes) :
    (σ.bind x v).Placed params ∧ SlotIn (σ.bind x v).blocks σ.site v.type := by
  have halloca : InstructionIn params σ.blocks σ.site (.alloca v.type) :=
    instructionIn_site hopen (fun o ho => nomatch ho) rfl
  have hslot := h.emit hopen halloca
  obtain ⟨hopen', hgrow⟩ := hopen.emit (.alloca v.type)
  have hsite : (σ.emit (.alloca v.type)).2.site = σ.site.next := by
    obtain ⟨-, -, -, hsite⟩ := hopen.emit_block (.alloca v.type)
    exact hsite
  have hthere : instructionAt? (σ.emit (.alloca v.type)).2.blocks σ.site =
      some (.alloca v.type) := by
    rw [emit_instructionAt? hopen, if_pos rfl]
  have hstore : InstructionIn params (σ.emit (.alloca v.type)).2.blocks
      (σ.emit (.alloca v.type)).2.site (.store v σ.site) := by
    have hin := hv.grow hgrow
    refine ⟨List.forall_mem_singleton.2 hin, fun d t hd => ?_, ?_, ?_⟩
    · obtain rfl := List.mem_singleton.1 hd
      obtain ⟨hblock, i, hi, -⟩ := hin
      exact index_lt_site hopen' hi hblock
    · rintro _ _ ⟨⟩
    · rintro _ _ ⟨⟩
      exact ⟨hsite, hthere⟩
  refine ⟨hslot.emit hopen' hstore, (hopen'.emit _).2.instructionAt? hthere, v, ?_⟩
  show instructionAt? ((σ.emit (.alloca v.type)).2.emit (.store v σ.site)).2.blocks σ.site.next = _
  rw [emit_instructionAt? hopen', if_pos hsite.symm]

theorem Visible.bind (h : Visible Γ σ) {x : Bytes} (hx : x ∉ Γ.names) {v : Operand}
    (hopen : σ.Open) (hslot : SlotIn (σ.bind x v).blocks σ.site v.type) (t : Swiftlet.Ty) :
    Visible ((x, t) :: Γ) (σ.bind x v) := by
  intro y u slot hy hlookup
  have hgrow : BlocksGrow σ.blocks (σ.bind x v).blocks :=
    (hopen.emit _).2.trans ((hopen.emit _).1.emit _).2
  have hlocals : (σ.bind x v).locals.lookup y =
      if y = x then some ⟨σ.site, v.type⟩ else σ.locals.lookup y := lookup_cons_of_new
  rw [hlocals] at hlookup
  rcases List.mem_cons.1 hy with heq | hmem
  · cases heq
    rw [if_pos rfl] at hlookup
    cases hlookup
    exact ⟨hslot, .refl⟩
  · rw [if_neg (fun heq => hx (List.mem_map.2 ⟨_, hmem, heq⟩))] at hlookup
    obtain ⟨hin, habove⟩ := h y u slot hmem hlookup
    exact ⟨hin.grow hgrow, habove.grow hgrow⟩

theorem State.Placed.widen {params : List Param} (h : σ.Placed params) (hopen : σ.Open)
    {v : Operand} (hv : OperandIn params σ.blocks σ.current v) :
    (σ.widen v).2.Placed params ∧ (σ.widen v).2.Open ∧
      OperandIn params (σ.widen v).2.blocks (σ.widen v).2.current (σ.widen v).1 := by
  unfold State.widen
  split
  · refine ⟨h.emit hopen (instructionIn_site hopen (List.forall_mem_singleton.2 hv) rfl),
      (hopen.emit _).1, operandIn_emit hopen rfl⟩
  · exact ⟨h, hopen, hv⟩

theorem State.Placed.print {params : List Param} (h : σ.Placed params) (hopen : σ.Open)
    {v : Operand} (hv : OperandIn params σ.blocks σ.current v) (name text : Bytes) :
    (σ.print v name text).Placed params := by
  obtain ⟨hplaced, hopen', hin⟩ := h.widen hopen hv
  obtain ⟨hblocks, hcurrent⟩ := constant_code (σ.widen v).2 name (text ++ [0])
  have hopen'' : ((σ.widen v).2.constant name (text ++ [0])).2.Open := by
    rw [State.Open, hblocks, hcurrent]
    exact hopen'
  refine (hplaced.constant name (text ++ [0])).emit hopen'' (instructionIn_site hopen''
    (List.forall_mem_cons.2 ⟨constant_operandIn _ _ _ _ _ _, List.forall_mem_singleton.2 ?_⟩) rfl)
  rw [hblocks, hcurrent]
  exact hin

/-- **Typed code uses what is there before it.** -/
theorem LowersBody.placed (hlow : Emittable c.entry c.program) {ns : List Node}
    (h : LowersBody c s Γ ns σ σ') (hσ : σ.Placed (s.params.map paramOf)) (hvisible : Visible Γ σ) :
    σ'.Placed (s.params.map paramOf) := by
  induction h with
  | nil => exact hσ
  | expr hopen _ hvalue _ ih =>
      exact ih (hvalue.placed hlow hopen hσ hvisible).1 (hvisible.straight (hvalue.straight hopen))
  | @assign Γ d _ t _ o _ σ₁ _ hopen hvoid hnew hvalue htype _ ih =>
      have hstraight := hvalue.straight hopen
      obtain ⟨hplaced, hin⟩ := hvalue.placed hlow hopen hσ hvisible
      obtain ⟨hbound, hslot⟩ := hplaced.bind hstraight.isOpen
        (hin o (by simp) (htype ▸ Ty.of_eq_void.not.2 hvoid)) d.name.lexeme
      exact ih hbound ((hvisible.straight hstraight).bind
        (fun hx => hnew (List.mem_append_right _ hx)) hstraight.isOpen hslot t)
  | @print _ _ _ _ _ name text o _ _ _ hopen hvalue hformat _ ih =>
      have hstraight := hvalue.straight hopen
      obtain ⟨hplaced, hin⟩ := hvalue.placed hlow hopen hσ hvisible
      have hvoid : o.type ≠ .void := by
        intro hvoid
        rw [hvoid] at hformat
        cases hformat
      refine ih (hplaced.print hstraight.isOpen (hin o (by simp) hvoid) name text) ?_
      exact hvisible.straight (hstraight.trans (print_straight hstraight.isOpen o name text))
  | @ret _ _ _ _ _ o _ _ hopen hvalue _ _ =>
      have hstraight := hvalue.straight hopen
      obtain ⟨hplaced, hin⟩ := hvalue.placed hlow hopen hσ hvisible
      refine hplaced.terminate hstraight.isOpen fun o' ho' => ?_
      unfold Context.returned at ho'
      split at ho'
      · cases ho'
      · rename_i hvoid
        obtain rfl := List.mem_singleton.1 ho'
        exact hin o' (by simp) (not_or.1 hvoid).1
  | @cond Γ _ _ _ _ o _ σ₁ σ₂ _ hopen hvalue htype hbody hrest ihb ih =>
      have hstraight := hvalue.straight hopen
      have hfollows := hbody.follows
      obtain ⟨hplaced, hin⟩ := hvalue.placed hlow hopen hσ hvisible
      have hvisible₁ := hvisible.straight hstraight
      obtain ⟨hthen, hmerge⟩ := branch_opens hstraight.isOpen o
      have hbranch := (branch_grows (c := c) hstraight.isOpen o).blocks
      have hinner := ihb (hplaced.branch hstraight.isOpen (hin o (by simp) (by simp [htype])))
        (hvisible₁.grow (fun _ _ => rfl) hbranch hthen.above)
      -- What was visible before the `if` is visible after it: its blocks are above both.
      have hjoin := join_blocks hfollows.inRange (σ₁.blocks.length + 1)
      have hafter := (join_follows hstraight.isOpen hfollows.toGrows hfollows.inRange).1
      refine ih (hinner.join hfollows.inRange _) (hvisible₁.grow (fun x hx => ?_) hafter.blocks
        ((hmerge.grow hfollows.blocks).grow hjoin).above)
      rw [(join_shared _ _).2.2, hbody.kept x hx]
      rfl

end

/-! ## Functions -/

section

variable {f : Function}

theorem Function.Uses.operandIn {s : Site} {o : Operand}
    (huses : f.Uses s o)
    (h : CodeIn f.params f.blocks f.blocks) : OperandIn f.params f.blocks s.block o := by
  rcases huses with ⟨i, hi, ho⟩ | ⟨b, t, hb, -, ht, ho⟩
  · exact (h.instructions s i hi).operands o ho
  · exact h.terminators s.block t (by rw [terminatorOf?, hb, Option.bind_some, ht]) o ho

/-- The sites of a block above that of another site precede it. -/
theorem Nested.precedes (h : Nested f.blocks) {a b : Site} (habove : Above f.blocks a.block b.block)
    (hlt : a.block = b.block → a.index < b.index) : f.Precedes a b := by
  by_cases hblock : a.block = b.block
  · exact .inl ⟨hblock, hlt hblock⟩
  · exact .inr ⟨hblock, h.dominates habove⟩

/-- **Nested branches and code that uses what is there before it make a well-formed function.** -/
theorem wellFormed_of_placed (hnested : Nested f.blocks)
    (h : CodeIn f.params f.blocks f.blocks) : f.WellFormed where
  results s d t huses := by
    obtain ⟨hblock, i, hi, hresult⟩ := huses.operandIn h
    refine ⟨⟨i, hi, hresult⟩, .inl ⟨hblock, ?_⟩⟩
    rcases huses with ⟨i', hi', ho⟩ | ⟨b, t', hb, hindex, -, -⟩
    · exact (h.instructions s i' hi').earlier d t ho
    · rw [instructionAt?, hblock, hb, Option.bind_some] at hi
      rw [hindex]
      exact (List.getElem?_eq_some_iff.1 hi).1
  slots s i slot hi hslot := by
    have hin := h.instructions s i hi
    cases i with
    | store v _ =>
        cases hslot
        obtain ⟨rfl, halloca⟩ := hin.store v slot rfl
        exact ⟨⟨_, halloca⟩, .inl ⟨rfl, Nat.lt_succ_self _⟩⟩
    | load t _ =>
        cases hslot
        obtain ⟨hslot, habove, hlt⟩ := hin.load t slot rfl
        exact ⟨⟨t, hslot.alloca⟩,
          hnested.precedes habove fun hblock => Nat.lt_of_succ_lt (hlt hblock)⟩
    | _ => cases hslot
  loads s t slot hi := by
    obtain ⟨hslot, habove, hlt⟩ := (h.instructions s _ hi).load t slot rfl
    refine ⟨hslot.alloca, slot.next, hnested.precedes habove hlt, fun d => ⟨?_, ?_⟩⟩
    · rintro ⟨v, hstore⟩
      exact ((h.instructions d _ hstore).store v slot rfl).1
    · rintro rfl
      exact hslot.store
  targets := hnested.targets
  params s i t huses := huses.operandIn h

theorem wellFormed_of_no_blocks (h : f.blocks = []) : f.WellFormed := by
  apply wellFormed_of_placed
  · rw [h]
    exact ⟨by simp [terminatorOf?], by simp [Opens, terminatorOf?], by simp [terminatorOf?]⟩
  · rw [h]
    exact ⟨by simp [instructionAt?], by simp [terminatorOf?]⟩

theorem BodyCode.wellFormed {entry : Bytes} {program : List Node} {m : Shared} {s : Signature}
    {body : List Node} {i : Nat} {σ₀ σ₁ : State} (h : BodyCode entry program m s body i f σ₀ σ₁)
    (hlow : Emittable entry program) (hm : Declarations entry program m.functions)
    (hmem : .func s body ∈ program) : f.WellFormed := by
  obtain ⟨hlowers, hparams, -⟩ := h.lowers hlow hm hmem
  have hnested := (hlowers.nested (nested_fresh σ₀)).1
  have hplaced : σ₁.Placed f.params :=
    hparams ▸ hlowers.placed hlow everywhere_fresh fun _ _ _ hx => nomatch hx
  have hlast : Nested f.blocks ∧ CodeIn f.params f.blocks f.blocks := by
    rw [h.blocks]
    refine finish_blocks_of (R := fun bs => Nested bs ∧ CodeIn f.params bs bs) ⟨hnested, hplaced⟩
      hlowers.follows.inRange fun _ hopen => ⟨hnested.ret hopen none, ?_⟩
    exact hplaced.terminate hopen fun o ho => nomatch ho
  exact wellFormed_of_placed hlast.1 hlast.2

end

/-- **Every function of the module of a program that the checker accepts is well formed.**

The tokens are those that the lexer gives (`Lexing.isScanned_of_lex`). -/
theorem wellFormed_of_analyze {tokens : List Token} (htokens : ∀ t ∈ tokens, t.IsScanned)
    {entry : Bytes} {program tree : List Node} (hparse : Parsing.parse tokens = .ok program)
    (hanalyze : analyze entry program = .ok tree) (hdistinct : DistinctNames program)
    (sourceName : Bytes) :
    ∃ m, lower entry sourceName tree = .ok m ∧ ∀ f ∈ m.functions, f.WellFormed := by
  have hlow := Emittable.of_analyze htokens hparse hanalyze hdistinct
  obtain ⟨m, hlower, -⟩ := lower_ok hlow sourceName
  have hm := (lower_declarations hlower).1
  refine ⟨m, hlower, fun f hf => ?_⟩
  obtain ⟨i, hi⟩ := List.mem_iff_getElem?.1 hf
  rcases Nat.eq_zero_or_pos i with rfl | hpos
  · rw [hm.printf, Option.some.injEq] at hi
    exact wellFormed_of_no_blocks (hi ▸ rfl)
  · have hcoded := (lower_code hlow.distinct hlower).1
    rcases hcoded i f hpos hi with hdecl | ⟨s, body, σ₀, σ₁, hmem, hcode⟩
    · exact wellFormed_of_no_blocks hdecl.blocks
    · exact hcode.wellFormed hlow hm hmem

/-- A variable of an `if`'s body, and one of the code in front of the `if` that is read after it. -/
theorem wellFormed_halving :
    (∀ t ∈ Parsing.halvingTokens, t.IsScanned) ∧
      Parsing.parse Parsing.halvingTokens = .ok (Parsing.halving none none) ∧
      analyze defaultEntry (Parsing.halving none none) =
        .ok (Parsing.halving (some .int) (some .string)) ∧
      DistinctNames (Parsing.halving none none) ∧
      ∃ m, lower defaultEntry [] (Parsing.halving (some .int) (some .string)) = .ok m ∧
        ∀ f ∈ m.functions, f.WellFormed := by
  have htokens : ∀ t ∈ Parsing.halvingTokens, t.IsScanned := Parsing.isScanned_of_spelled _
  have hanalyze : analyze defaultEntry (Parsing.halving none none) =
      .ok (Parsing.halving (some .int) (some .string)) := by rfl
  have hdistinct : DistinctNames (Parsing.halving none none) := by decide
  exact ⟨htokens, Parsing.parse_halvingTokens, hanalyze, hdistinct,
    wellFormed_of_analyze htokens Parsing.parse_halvingTokens hanalyze hdistinct []⟩

end IR

end Swiftlet
