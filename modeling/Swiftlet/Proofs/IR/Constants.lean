import Swiftlet.Proofs.IR.WellFormed

/-!
# Constants while a program is lowered

Lowering asks for a constant where it comes to a string or has to print a value, and the code that it
emits refers to constants by their number and size.

* `strings`, `bodyStrings`, `programStrings` — the string values that are lowered, in order. Of a
  `print` only the first argument is, and of a body nothing that stands behind a `return`.
* `Operand.RefersTo`, `State.Refers` — the constants that operands name are there, at their full size.
* `Builds` — lowering goes from one state to another: a string is asked for, a format is, or there is
  more code. The strings are listed.

Principal results: `lower_builds`, and `Builds.refers` for the code of a module.
-/

namespace Swiftlet

namespace IR

/-! ## The strings of a program -/

mutual

/-- The string values in an expression, from left to right. -/
def strings : Node → List Bytes
  | .string _ v => [v]
  | .binary l _ r => strings l ++ strings r
  | .call _ args => argumentStrings args
  | _ => []

def argumentStrings : List Node → List Bytes
  | [] => []
  | n :: rest => strings n ++ argumentStrings rest

end

mutual

/-- The string values in what is lowered of a statement. -/
def statementStrings : Node → List Bytes
  | .assign _ value | .ret _ value => strings value
  | .print _ (arg :: _) => strings arg
  | .cond _ condition body => strings condition ++ bodyStrings body
  | n => strings n

/-- The string values in the statements of a body up to its first `return`. -/
def bodyStrings : List Node → List Bytes
  | [] => []
  | n :: rest => statementStrings n ++ if n.isReturn then [] else bodyStrings rest

end

def programStrings : List Node → List Bytes
  | [] => []
  | .func _ body :: rest => bodyStrings body ++ programStrings rest
  | _ :: rest => programStrings rest

/-! ## What refers to constants -/

/-- If the operand is the address of a constant, that constant is there and has the size that the
operand says. -/
def Operand.RefersTo (gs : List Global) : Operand → Prop
  | .string g size => ∃ c, gs[g]? = some c ∧ c.content.length = size
  | _ => True

/-- The operands of the instructions of a block and of its terminator. -/
def Block.operands (b : Block) : List Operand :=
  b.instructions.flatMap (·.operands) ++ b.terminator.toList.flatMap (·.operands)

def Block.RefersTo (gs : List Global) (b : Block) : Prop := ∀ o ∈ b.operands, o.RefersTo gs

/-- All code so far refers to constants that are there. -/
structure State.Refers (σ : State) : Prop where
  blocks : ∀ b ∈ σ.blocks, b.RefersTo σ.globals
  functions : ∀ f ∈ σ.functions, ∀ b ∈ f.blocks, b.RefersTo σ.globals

theorem Operand.RefersTo.mono {gs gs' : List Global} (hgs : gs <+: gs') {o : Operand}
    (h : o.RefersTo gs) : o.RefersTo gs' := by
  cases o with
  | string g size =>
      obtain ⟨c, hc, hsize⟩ := h
      obtain ⟨new, rfl⟩ := hgs
      have hlt := (List.getElem?_eq_some_iff.1 hc).1
      exact ⟨c, (List.getElem?_append_left hlt).trans hc, hsize⟩
  | _ => trivial

theorem Block.refersTo_empty (gs : List Global) : Block.empty.RefersTo gs := by
  simp [Block.RefersTo, Block.operands, Block.empty]

theorem forall_mem_modify {α : Type} {P : α → Prop} {l : List α} {i : Nat} {f : α → α}
    (hl : ∀ a ∈ l, P a) (hf : ∀ a, P a → P (f a)) : ∀ a ∈ l.modify i f, P a := by
  intro a ha
  obtain ⟨j, hj⟩ := List.mem_iff_getElem?.1 ha
  rw [List.getElem?_modify] at hj
  obtain ⟨a', ha', rfl⟩ := Option.map_eq_some_iff.1 hj
  have hkept : P a' := hl a' (List.mem_of_getElem? ha')
  split
  · exact hf a' hkept
  · exact hkept

namespace State.Refers

variable {σ : State}

theorem constant (h : σ.Refers) (name content : Bytes) : (σ.constant name content).2.Refers := by
  obtain ⟨-, -, -, heq | ⟨-, heq⟩⟩ := constant_cases σ name content
  · rwa [heq]
  · have hgs := List.prefix_append σ.globals [⟨name, content⟩]
    rw [heq]
    exact ⟨fun b hb o ho => (h.blocks b hb o ho).mono hgs,
      fun f hf b hb o ho => (h.functions f hf b hb o ho).mono hgs⟩

theorem emit (h : σ.Refers) {i : Instruction} (hi : ∀ o ∈ i.operands, o.RefersTo σ.globals) :
    (σ.emit i).2.Refers := by
  refine ⟨forall_mem_modify h.blocks fun b hb o ho => ?_, h.functions⟩
  simp only [Block.operands, List.flatMap_append, List.flatMap_cons, List.flatMap_nil,
    List.append_nil, List.mem_append] at ho
  rcases ho with (ho | ho) | ho
  · exact hb o (List.mem_append_left _ ho)
  · exact hi o ho
  · exact hb o (List.mem_append_right _ ho)

theorem terminate (h : σ.Refers) {t : Terminator} (ht : ∀ o ∈ t.operands, o.RefersTo σ.globals) :
    (σ.terminate t).Refers := by
  refine ⟨forall_mem_modify h.blocks fun b hb o ho => ?_, h.functions⟩
  simp only [Block.operands, Option.toList_some, List.flatMap_cons, List.flatMap_nil,
    List.append_nil, List.mem_append] at ho
  rcases ho with ho | ho
  · exact hb o (List.mem_append_left _ ho)
  · exact ht o ho

theorem bind (h : σ.Refers) {v : Operand} (hv : v.RefersTo σ.globals) (x : Bytes) :
    (σ.bind x v).Refers := by
  have hslot : (σ.emit (.alloca v.type)).2.Refers := h.emit (by simp [Instruction.operands])
  have hstored : ((σ.emit (.alloca v.type)).2.emit (.store v σ.site)).2.Refers :=
    hslot.emit (List.forall_mem_singleton.2 hv)
  exact ⟨hstored.blocks, hstored.functions⟩

theorem branch (h : σ.Refers) {v : Operand} (hv : v.RefersTo σ.globals) : (σ.branch v).Refers := by
  have hended : (σ.terminate (.condBr v σ.blocks.length (σ.blocks.length + 1))).Refers :=
    h.terminate (List.forall_mem_singleton.2 hv)
  have hnew : ∀ b ∈ [Block.empty, Block.empty], b.RefersTo (σ.branch v).globals := by
    simp [Block.refersTo_empty]
  exact ⟨List.forall_mem_append.2 ⟨hended.blocks, hnew⟩, hended.functions⟩

theorem join (h : σ.Refers) (merge : Nat) : (σ.join merge).Refers := by
  unfold State.join
  split
  · exact ⟨h.blocks, h.functions⟩
  · have hended : (σ.terminate (.br merge)).Refers := h.terminate (by simp [Terminator.operands])
    exact ⟨hended.blocks, hended.functions⟩

theorem fresh (h : σ.Refers) : σ.fresh.Refers :=
  ⟨by simp [State.fresh, Block.refersTo_empty], h.functions⟩

theorem finish (h : σ.Refers) (isVoid : Bool) : (σ.finish isVoid).Refers := by
  unfold State.finish
  split
  · exact h.terminate (by simp [Terminator.operands])
  · exact h

theorem define (h : σ.Refers) (i : Nat) (hidden : Bool) : (σ.define i hidden).Refers :=
  ⟨h.blocks, forall_mem_modify h.functions fun _ _ => h.blocks⟩

end State.Refers

/-! ## Steps of lowering -/

/-- Lowering goes from one state to another and asks for the strings `vs` on its way. -/
inductive Builds : State → List Bytes → State → Prop where
  | string (σ : State) (v : Bytes) : Builds σ [v] (σ.stringConstant v).2
  | format (σ : State) {t : Ty} {name text : Bytes} (h : format? t = some (name, text)) :
      Builds σ [] (σ.constant name (text ++ [0])).2
  /-- More code, over the constants that there are. -/
  | code {σ σ' : State} (hglobals : σ'.globals = σ.globals) (hrefers : σ.Refers → σ'.Refers) :
      Builds σ [] σ'
  | trans {σ σ' σ'' : State} {vs vs' : List Bytes} (h : Builds σ vs σ') (h' : Builds σ' vs' σ'') :
      Builds σ (vs ++ vs') σ''

namespace Builds

variable {σ σ' σ'' : State} {vs : List Bytes}

theorem refl (σ : State) : Builds σ [] σ := code rfl id

theorem andCode (h : Builds σ vs σ') (hglobals : σ''.globals = σ'.globals)
    (hrefers : σ'.Refers → σ''.Refers) : Builds σ vs σ'' := by
  have hboth := h.trans (code hglobals hrefers)
  rwa [List.append_nil] at hboth

/-- Constants keep their numbers. -/
theorem globals (h : Builds σ vs σ') : σ.globals <+: σ'.globals := by
  have hconstant : ∀ (σ : State) (name content : Bytes),
      σ.globals <+: (σ.constant name content).2.globals := by
    intro σ name content
    obtain ⟨-, -, -, heq | ⟨-, heq⟩⟩ := constant_cases σ name content
    · simp [heq]
    · simp [heq]
  induction h with
  | string σ v => exact hconstant σ _ _
  | format σ _ => exact hconstant σ _ _
  | code hglobals _ => exact hglobals ▸ List.prefix_refl _
  | trans _ _ ih ih' => exact List.IsPrefix.trans ih ih'

/-- **Code only refers to constants that are there.** -/
theorem refers (h : Builds σ vs σ') (hσ : σ.Refers) : σ'.Refers := by
  induction h with
  | string σ v => exact hσ.constant _ _
  | format σ _ => exact hσ.constant _ _
  | code _ hrefers => exact hrefers hσ
  | trans _ _ ih ih' => exact ih' (ih hσ)

end Builds

theorem constant_refersTo (σ : State) (name content : Bytes) :
    (σ.constant name content).1.RefersTo (σ.constant name content).2.globals := by
  obtain ⟨i, hi, hthere, -⟩ := constant_cases σ name content
  rw [hi]
  exact ⟨_, hthere, rfl⟩

/-! ## Expressions -/

section

variable {c : Context}

/-- The parameters of a function are no constants. -/
def Context.NoConstants (c : Context) : Prop := ∀ p ∈ c.params, ∀ gs, p.2.RefersTo gs

theorem noConstants_paramOperands (entry : Bytes) (program : List Node) (ret : Ty) (f : Function) :
    Context.NoConstants ⟨entry, program, ret, paramOperands f⟩ := by
  intro p hp gs
  obtain ⟨i, hi, rfl⟩ := List.mem_mapIdx.1 (List.mem_reverse.1 hp)
  trivial

/-- A function that is declared was there before, or it is new and has no code yet. -/
theorem declare_cases {entry : Bytes} {s : Signature} {σ σ' : State} {i : Nat}
    (h : declare entry s σ = .ok (i, σ')) :
    σ' = σ ∧ (∃ f, σ.functions[i]? = some f) ∨
      ∃ f, f.blocks = [] ∧ i = σ.functions.length ∧
        σ' = { σ with functions := σ.functions ++ [f] } := by
  unfold declare at h
  split at h
  · rename_i j hj
    cases h
    obtain ⟨-, ⟨f, hf, -⟩, -⟩ := numberOf?_eq_some_iff.1 hj
    exact .inl ⟨rfl, f, hf⟩
  split at h
  · cases h
  split at h
  · cases h
  cases h
  exact .inr ⟨_, rfl, rfl, rfl⟩

theorem declare_builds {entry : Bytes} {s : Signature} {σ σ' : State} {i : Nat}
    (h : declare entry s σ = .ok (i, σ')) : Builds σ [] σ' := by
  obtain ⟨rfl, -⟩ | ⟨f, hempty, -, rfl⟩ := declare_cases h
  · exact .refl _
  · refine .code rfl fun hσ => ⟨hσ.blocks, List.forall_mem_append.2 ⟨hσ.functions, ?_⟩⟩
    simp [hempty]

theorem lowerRef_builds (hc : c.NoConstants) {name : Token} {σ σ' : State} {o : Operand}
    (h : lowerRef c name σ = .ok (o, σ')) : Builds σ [] σ' ∧ o.RefersTo σ'.globals := by
  unfold lowerRef at h
  split at h
  · rename_i p hp
    cases h
    exact ⟨.refl σ, hc _ (Typing.mem_of_lookup hp) _⟩
  split at h
  · cases h
    exact ⟨.code rfl fun hσ => hσ.emit (by simp [Instruction.operands]), trivial⟩
  · cases h

theorem lowerValues_builds {args : List Node}
    (hargs : ∀ n ∈ args, ∀ (σ σ' : State) (o : Operand), lowerValue c n σ = .ok (o, σ') →
      Builds σ (strings n) σ' ∧ o.RefersTo σ'.globals)
    {σ σ' : State} {os : List Operand} (h : lowerValues c args σ = .ok (os, σ')) :
    Builds σ (argumentStrings args) σ' ∧ ∀ o ∈ os, o.RefersTo σ'.globals := by
  induction args generalizing σ os with
  | nil =>
      cases h
      exact ⟨.refl _, by simp⟩
  | cons n rest ih =>
      rw [List.forall_mem_cons] at hargs
      obtain ⟨o, σ₁, os', hn, hrest, rfl⟩ := lowerValues_cons h
      obtain ⟨hfirst, ho⟩ := hargs.1 _ _ _ hn
      obtain ⟨hothers, hos⟩ := ih hargs.2 hrest
      rw [argumentStrings]
      exact ⟨hfirst.trans hothers, List.forall_mem_cons.2 ⟨ho.mono hothers.globals, hos⟩⟩

/-- **An expression asks for its strings**, and its value refers to a constant that is there. -/
theorem lowerValue_builds (hc : c.NoConstants) (n : Node) {σ σ' : State} {o : Operand}
    (h : lowerValue c n σ = .ok (o, σ')) : Builds σ (strings n) σ' ∧ o.RefersTo σ'.globals := by
  match n with
  | .int .. | .float .. | .bool .. =>
      rw [lowerValue] at h
      cases h
      exact ⟨.refl σ, trivial⟩
  | .string _ v =>
      rw [lowerValue] at h
      have heq := Except.ok.inj h
      obtain rfl : (σ.stringConstant v).1 = o := congrArg Prod.fst heq
      obtain rfl : (σ.stringConstant v).2 = σ' := congrArg Prod.snd heq
      rw [strings]
      exact ⟨.string σ v, constant_refersTo σ _ _⟩
  | .ref name =>
      rw [lowerValue] at h
      exact lowerRef_builds hc h
  | .binary l op r =>
      obtain ⟨lo, σ₁, ro, σ₂, i, hl, hr, -, rfl, rfl⟩ := lowerValue_binary h
      obtain ⟨hleft, hlo⟩ := lowerValue_builds hc l hl
      obtain ⟨hright, hro⟩ := lowerValue_builds hc r hr
      rw [strings]
      refine ⟨(hleft.trans hright).andCode rfl fun hσ => hσ.emit ?_, trivial⟩
      simp [Instruction.operands, hlo.mono hright.globals, hro]
  | .call name args =>
      obtain ⟨s, i, σ₁, f, os, σ₂, -, hcallee, -, hargs, rfl, rfl⟩ := lowerValue_call h
      obtain ⟨hvalues, hos⟩ :=
        lowerValues_builds (fun a _ _ _ _ h => lowerValue_builds hc a h) hargs
      rw [strings]
      exact ⟨((declare_builds hcallee).trans hvalues).andCode rfl fun hσ => hσ.emit hos, trivial⟩
  | .decl .. | .assign .. | .signature .. | .func .. | .cond .. | .ret .. | .print .. =>
      simp [lowerValue] at h
termination_by n
decreasing_by
  all_goals simp_wf
  all_goals try omega
  have := List.sizeOf_lt_of_mem ‹_›
  omega

/-! ## Statements -/

theorem lowerPrint_builds {token : Token} {v : Operand} {σ σ' : State} (hv : v.RefersTo σ.globals)
    (h : lowerPrint token v σ = .ok σ') : Builds σ [] σ' := by
  cases hformat : format? v.type with
  | none =>
      rw [lowerPrint, hformat] at h
      cases h
  | some format =>
      rw [lowerPrint_eq _ _ hformat] at h
      cases h
      have hwidened : Builds σ [] (σ.widen v).2 ∧ (σ.widen v).1.RefersTo (σ.widen v).2.globals := by
        unfold State.widen
        split
        · exact ⟨.code rfl fun hσ => hσ.emit (by simpa [Instruction.operands] using hv), trivial⟩
        · exact ⟨.refl σ, hv⟩
      have hconstant := Builds.format (σ.widen v).2 hformat
      refine (hwidened.1.trans hconstant).andCode rfl fun hσ => hσ.emit ?_
      simp [Instruction.operands, constant_refersTo, hwidened.2.mono hconstant.globals]

/-- A body is lowered up to its first `return`, since that ends the block. -/
theorem lowerBody_builds_of {ns : List Node}
    (hns : ∀ n ∈ ns, ∀ σ σ' : State, lowerStatement c n σ = .ok σ' →
      Builds σ (statementStrings n) σ')
    {σ σ' : State} (hopen : σ.Open) (h : lowerBody c ns σ = .ok σ') :
    Builds σ (bodyStrings ns) σ' := by
  induction ns generalizing σ with
  | nil =>
      cases h
      exact .refl _
  | cons n rest ih =>
      rw [List.forall_mem_cons] at hns
      obtain ⟨σ₁, hn, hended, hrest⟩ := lowerBody_cons h
      have hfirst := hns.1 _ _ hn
      have hfollows := lowerStatement_follows c n _ _ hopen hn
      rw [bodyStrings]
      cases hreturn : n.isReturn with
      | true =>
          rw [hreturn] at hfollows
          rw [hended hfollows.isTerminated, if_pos rfl, List.append_nil]
          exact hfirst
      | false =>
          rw [hreturn] at hfollows
          rw [if_neg (by decide)]
          exact hfirst.trans (ih hns.2 hfollows.isOpen (hrest hfollows.isTerminated))

theorem lowerStatement_builds (hc : c.NoConstants) (n : Node) {σ σ' : State}
    (h : lowerStatement c n σ = .ok σ') : Builds σ (statementStrings n) σ' := by
  match n with
  | .int .. | .float .. | .bool .. | .string .. | .ref .. | .binary .. | .call .. =>
      simp only [lowerStatement] at h
      split at h
      · cases h
      rename_i o σ₁ hvalue
      cases h
      simp only [statementStrings]
      exact (lowerValue_builds hc _ hvalue).1
  | .decl .. | .func .. | .signature .. => simp only [lowerStatement, reduceCtorEq] at h
  | .assign d value =>
      rw [lowerStatement_assign] at h
      obtain ⟨⟨v, σ₁⟩, hvalue, rfl⟩ := exists_of_map_eq_ok h
      obtain ⟨hbuilds, hv⟩ := lowerValue_builds hc value hvalue
      rw [statementStrings]
      exact hbuilds.andCode rfl fun hσ => hσ.bind hv _
  | .print token [] => simp only [lowerStatement, reduceCtorEq] at h
  | .print token (arg :: _) =>
      rw [lowerStatement] at h
      split at h
      · cases h
      rename_i v σ₁ hvalue
      obtain ⟨hbuilds, hv⟩ := lowerValue_builds hc arg hvalue
      have hprinted := hbuilds.trans (lowerPrint_builds hv h)
      rwa [List.append_nil] at hprinted
  | .ret token value =>
      rw [lowerStatement] at h
      split at h
      · cases h
      rename_i v σ₁ hvalue
      cases h
      obtain ⟨hbuilds, hv⟩ := lowerValue_builds hc value hvalue
      rw [statementStrings]
      refine hbuilds.andCode rfl fun hσ => hσ.terminate ?_
      split <;> simp [Terminator.operands, hv]
  | .cond token condition body =>
      obtain ⟨v, σ₁, σ₂, hvalue, hbody, rfl⟩ := lowerStatement_cond h
      obtain ⟨hbuilds, hv⟩ := lowerValue_builds hc condition hvalue
      have hbranch : Builds σ (strings condition) (σ₁.branch v) :=
        hbuilds.andCode rfl fun hσ => hσ.branch hv
      have hinside := lowerBody_builds_of
        (fun n _ _ _ h => lowerStatement_builds hc n h) (branch_open σ₁ v).1 hbody
      rw [statementStrings]
      exact (hbranch.trans hinside).andCode (join_shared σ₂ _).1 fun hσ => hσ.join _
termination_by n
decreasing_by
  simp_wf
  have := List.sizeOf_lt_of_mem ‹_›
  omega

end

/-! ## Whole programs -/

section

variable {entry : Bytes} {program : List Node}

theorem lowerFunction_builds {s : Signature} {body : List Node} {σ σ' : State}
    (h : lowerFunction entry program s body σ = .ok σ') : Builds σ (bodyStrings body) σ' := by
  unfold lowerFunction at h
  dsimp only at h
  split at h
  · cases h
  rename_i i σ₁ hdeclare
  split at h
  · rename_i hnone
    obtain ⟨rfl, f, hf⟩ | ⟨f, -, rfl, rfl⟩ := declare_cases hdeclare
    · simp [hf] at hnone
    · simp at hnone
  rename_i f hf
  split at h
  · cases h
  split at h
  · cases h
  rename_i σ₂ hbody
  have hstart : Builds σ [] σ₁.fresh :=
    (declare_builds hdeclare).andCode rfl fun hσ => hσ.fresh
  have hlowered : Builds σ₁.fresh (bodyStrings body) σ₂ :=
    lowerBody_builds_of (fun n _ _ _ h =>
      lowerStatement_builds (noConstants_paramOperands entry program f.ret f) n h)
      σ₁.fresh_open hbody
  cases h
  exact (hstart.trans hlowered).andCode (State.finish_shared σ₂ _).1
    fun hσ => (hσ.finish _).define i _

theorem declareAll_builds {ns : List Node} {σ σ' : State}
    (h : declareAll entry program ns σ = .ok σ') : Builds σ [] σ' := by
  induction ns generalizing σ with
  | nil =>
      cases h
      exact .refl _
  | cons n rest ih =>
      cases n with
      | signature s =>
          rw [declareAll] at h
          split at h
          · cases h
          rename_i i σ₁ hdeclare
          exact (declare_builds hdeclare).trans (ih h)
      | _ => exact ih h

theorem lowerAll_builds {ns : List Node} {σ σ' : State}
    (h : lowerAll entry program ns σ = .ok σ') : Builds σ (programStrings ns) σ' := by
  induction ns generalizing σ with
  | nil =>
      cases h
      exact .refl _
  | cons n rest ih =>
      cases n with
      | signature s => exact ih h
      | func s body =>
          rw [lowerAll] at h
          split at h
          · cases h
          rename_i σ₁ hfunction
          rw [programStrings]
          exact (lowerFunction_builds hfunction).trans (ih h)
      | _ => cases h

/-- **What lowering a program amounts to.** It starts without constants and code, and it asks for the
strings of the program. -/
theorem lower_builds {sourceName : Bytes} {m : Module}
    (h : lower entry sourceName program = .ok m) :
    ∃ σ, Builds ⟨[], [printf], [], 0, []⟩ (programStrings program) σ ∧
      m = ⟨sourceName, σ.globals, σ.functions⟩ := by
  unfold lower at h
  split at h
  · cases h
  rename_i σ hdeclare
  split at h
  · cases h
  rename_i σ' hlower
  cases h
  exact ⟨σ', (declareAll_builds hdeclare).trans (lowerAll_builds hlower), rfl⟩

theorem State.refers_start : State.Refers ⟨[], [printf], [], 0, []⟩ := ⟨by simp, by simp [printf]⟩

end

end IR

end Swiftlet
