import Swiftlet.Proofs.IR.Names
import Swiftlet.Proofs.Run.Soundness

/-!
# Programs that can be lowered

A well-typed program is lowered without an error, and its module has a body for each of its functions.

* `Declarations` — the functions of a module so far: `printf` first, then functions with the
  parameters and return types of the last signatures of their names. It holds of every module.
* `Emittable` — what lowering asks of a program on top of being well-typed; `Lowerable`, of one that is
  ready to run.
* `lowerValue_ok` and `lowerBody_ok` — typed code is lowered, and operands have the types of the
  expressions they stand for.
* `BodyCode` — a function of the module has the code of a body; `Coded`, that every function that has
  code has it from a body.

Principal results: `lower_declarations`, `lower_code` and `lower_ok`.
-/

namespace Swiftlet

namespace IR

open Typing

/-! ## The functions of a module -/

structure Declarations (entry : Bytes) (program : List Node) (fs : List Function) : Prop where
  printf : fs[0]? = some printf
  declared : ∀ (i : Nat) (f : Function), 0 < i → fs[i]? = some f → Declared entry program f
  arity : ∀ (i : Nat) (f : Function), 0 < i → fs[i]? = some f → f.variadic = false
  distinct : (functionNames fs).Nodup

section

variable {entry : Bytes} {program : List Node} {fs fs' : List Function}

theorem Declarations.ne_nil (h : Declarations entry program fs) : fs ≠ [] := by
  rintro rfl
  cases h.printf

theorem Declarations.eq_cons (h : Declarations entry program fs) : ∃ rest, fs = IR.printf :: rest := by
  cases fs with
  | nil => exact absurd rfl h.ne_nil
  | cons f rest =>
      cases h.printf
      exact ⟨rest, rfl⟩

theorem Declarations.added (h : Declarations entry program fs)
    (hadded : FunctionsAdded entry program fs fs') : Declarations entry program fs' := by
  refine ⟨hadded.getElem? h.printf, fun i f hi hf => ?_, fun i f hi hf => ?_,
    hadded.names h.distinct⟩
  · rcases hadded.or_new hf with hf | ⟨-, hf⟩
    · exact h.declared i f hi hf
    · exact hf
  · rcases hadded.or_new hf with hf | ⟨hf, -⟩
    · exact h.arity i f hi hf
    · exact hf.variadic

theorem functionNames_modify (fs : List Function) (i : Nat) (hidden : Bool) (blocks : List Block) :
    functionNames (fs.modify i fun f => { f with hidden := hidden, blocks := blocks }) =
      functionNames fs := by
  have hmap : (fs.modify i fun f => { f with hidden := hidden, blocks := blocks }).map
      (·.name) = fs.map (·.name) := by
    refine List.ext_getElem? fun j => ?_
    rw [List.getElem?_map, List.getElem?_map, List.getElem?_modify]
    cases fs[j]? with
    | none => rfl
    | some f => by_cases hij : i = j <;> simp [hij]
  rw [functionNames, functionNames, List.map_drop, List.map_drop, hmap]

/-- A function that gets a body is declared as before. -/
theorem Declarations.define (h : Declarations entry program fs) {i : Nat} (hi : 0 < i)
    (hidden : Bool) (blocks : List Block) :
    Declarations entry program
      (fs.modify i fun f => { f with hidden := hidden, blocks := blocks }) := by
  refine ⟨?_, fun j f hj hf => ?_, fun j f hj hf => ?_, ?_⟩
  · rw [List.getElem?_modify, h.printf]
    simp [Nat.ne_of_gt hi]
  · rw [List.getElem?_modify] at hf
    obtain ⟨g, hg, rfl⟩ := Option.map_eq_some_iff.1 hf
    have hdeclared := h.declared j g hj hg
    split
    · exact hdeclared
    · exact hdeclared
  · rw [List.getElem?_modify] at hf
    obtain ⟨g, hg, rfl⟩ := Option.map_eq_some_iff.1 hf
    have harity := h.arity j g hj hg
    split
    · exact harity
    · exact harity
  · rw [functionNames_modify]
    exact h.distinct

theorem lastSignature?_of_mem {n : Node} {s : Signature} (hn : n ∈ program)
    (hs : n.signature? = some s) : ∃ s', lastSignature? program s.name.lexeme = some s' := by
  rw [← Option.isSome_iff_exists, lastSignature?, List.find?_isSome]
  exact ⟨s, List.mem_reverse.2 (List.mem_filterMap.2 ⟨n, hn, hs⟩), by simp⟩

theorem declareAll_declarations {ns : List Node} (hns : ∀ n ∈ ns, n ∈ program) {σ σ' : State}
    (hσ : Declarations entry program σ.functions)
    (h : declareAll entry program ns σ = .ok σ') : Declarations entry program σ'.functions := by
  induction ns generalizing σ with
  | nil =>
      cases h
      exact hσ
  | cons n rest ih =>
      rw [List.forall_mem_cons] at hns
      cases n with
      | signature s =>
          obtain ⟨s', hs'⟩ := lastSignature?_of_mem hns.1 rfl
          simp only [declareAll, hs', Option.getD_some] at h
          split at h
          · cases h
          rename_i i σ₁ hdeclare
          have hname := lastSignature?_name hs'
          exact ih hns.2 (hσ.added (declare_added (by rw [hname]; exact hs') hdeclare).2) h
      | _ => exact ih hns.2 hσ h

/-- The state in which the body of a function is lowered. -/
def State.fresh (σ : State) : State := { σ with blocks := [.empty], current := 0, locals := [] }

theorem State.fresh_open (σ : State) : σ.fresh.Open := ⟨.empty, rfl, rfl⟩

/-- The blocks of a function whose body has been lowered; if it is Void, its last block ends with a
return. -/
def State.finish (σ : State) (isVoid : Bool) : State :=
  if !σ.isTerminated && isVoid then σ.terminate (.ret none) else σ

/-- Function `i` gets the blocks of the state for its body. -/
def State.define (σ : State) (i : Nat) (hidden : Bool) : State :=
  { σ with functions := σ.functions.modify i fun f =>
    { f with hidden := hidden, blocks := σ.blocks } }

theorem define_getElem? {σ : State} {i : Nat} {hidden : Bool} {j : Nat} {f : Function}
    (hf : σ.functions[j]? = some f) :
    (σ.define i hidden).functions[j]? =
      some (if i = j then { f with hidden := hidden, blocks := σ.blocks } else f) := by
  simp [State.define, List.getElem?_modify, hf]

theorem of_define_getElem? {σ : State} {i : Nat} {hidden : Bool} {j : Nat} {f : Function}
    (hf : (σ.define i hidden).functions[j]? = some f) :
    ∃ g, σ.functions[j]? = some g ∧ f.name = g.name ∧ (i ≠ j → f = g) := by
  cases hg : σ.functions[j]? with
  | none => simp [State.define, List.getElem?_modify, hg] at hf
  | some g =>
      rw [define_getElem? hg, Option.some.injEq] at hf
      subst hf
      refine ⟨g, rfl, by split <;> rfl, fun hij => if_neg hij⟩

/-- A function that gets a body keeps its number. -/
theorem define_number {σ : State} {i : Nat} {hidden : Bool} {x : Bytes} {j : Nat}
    (h : numberOf? σ.functions x = some j) :
    numberOf? (σ.define i hidden).functions x = some j := by
  rw [numberOf?_eq_some_iff] at h ⊢
  obtain ⟨hpos, ⟨g, hg, hname⟩, hbefore⟩ := h
  refine ⟨hpos, ⟨_, define_getElem? hg, by split <;> exact hname⟩, fun k h hk hkj hh => ?_⟩
  obtain ⟨h', hh', hsame, -⟩ := of_define_getElem? hh
  rw [hsame]
  exact hbefore k h' hk hkj hh'

theorem lowerFunction_eq {s : Signature} {body : List Node} {σ : State}
    (hs : lastSignature? program s.name.lexeme = some s) :
    lowerFunction entry program s body σ =
      match declare entry s σ with
      | .error e => .error e
      | .ok (i, σ) =>
        match σ.functions[i]? with
        | none => .ok σ
        | some f =>
          if f.blocks ≠ [] then .error ⟨.redefined s.name.lexeme, s.name⟩
          else
            match lowerBody ⟨entry, program, f.ret, paramOperands f⟩ body σ.fresh with
            | .error e => .error e
            | .ok σ =>
              .ok ((σ.finish (s.ret = some .void || s.name.lexeme = entry)).define i
                (s.name.lexeme ≠ entry)) := by
  rw [lowerFunction, hs, Option.getD_some]
  rfl

theorem State.finish_shared (σ : State) (isVoid : Bool) :
    (σ.finish isVoid).globals = σ.globals ∧ (σ.finish isVoid).functions = σ.functions := by
  unfold State.finish
  split <;> exact ⟨rfl, rfl⟩

/-- The function of a body is there, and those that were there before keep their numbers. -/
theorem lowerFunction_declarations {s : Signature} {body : List Node} {σ σ' : State}
    (hs : lastSignature? program s.name.lexeme = some s)
    (hσ : Declarations entry program σ.functions)
    (h : lowerFunction entry program s body σ = .ok σ') :
    Declarations entry program σ'.functions ∧
      (∃ i, numberOf? σ'.functions s.name.lexeme = some i) ∧
      ∀ x i, numberOf? σ.functions x = some i → numberOf? σ'.functions x = some i := by
  rw [lowerFunction_eq hs] at h
  split at h
  · cases h
  rename_i i σ₁ hdeclare
  have hadded := (declare_added hs hdeclare).2
  have hσ₁ := hσ.added hadded
  have hnumber := declare_number hσ.ne_nil hdeclare
  split at h
  · cases h
    exact ⟨hσ₁, ⟨i, hnumber⟩, fun x j hj => hadded.number hj⟩
  split at h
  · cases h
  split at h
  · cases h
  rename_i σ₂ hbody
  cases h
  have hinner : FunctionsAdded entry program σ₁.functions σ₂.functions :=
    (lowerBody_follows σ₁.fresh_open hbody).functions
  obtain ⟨-, hsame⟩ := State.finish_shared σ₂ (s.ret = some .void || s.name.lexeme = entry)
  rw [← hsame] at hinner
  refine ⟨?_, ⟨i, define_number (hinner.number hnumber)⟩,
    fun x j hj => define_number (hinner.number (hadded.number hj))⟩
  exact (hσ₁.added hinner).define (numberOf?_eq_some_iff.1 hnumber).1 _ _

/-- A body is lowered with the last signature of its function's name. -/
theorem lowerFunction_last {s s' : Signature} (body : List Node) (σ : State)
    (hs : lastSignature? program s.name.lexeme = some s') :
    lowerFunction entry program s body σ = lowerFunction entry program s' body σ := by
  have hs' : lastSignature? program s'.name.lexeme = some s' := by
    rw [lastSignature?_name hs]
    exact hs
  simp only [lowerFunction, hs, hs', Option.getD_some]

theorem lowerAll_declarations {ns : List Node} (hns : ∀ n ∈ ns, n ∈ program) {σ σ' : State}
    (hσ : Declarations entry program σ.functions)
    (h : lowerAll entry program ns σ = .ok σ') :
    Declarations entry program σ'.functions ∧
      (∀ s body, .func s body ∈ ns → ∃ i, numberOf? σ'.functions s.name.lexeme = some i) ∧
      ∀ x i, numberOf? σ.functions x = some i → numberOf? σ'.functions x = some i := by
  induction ns generalizing σ with
  | nil =>
      cases h
      exact ⟨hσ, by simp, fun _ _ hi => hi⟩
  | cons n rest ih =>
      rw [List.forall_mem_cons] at hns
      cases n with
      | signature s =>
          obtain ⟨hσ', hthere, hkept⟩ := ih hns.2 hσ h
          exact ⟨hσ', fun s' body hmem => hthere s' body ((List.mem_cons.1 hmem).resolve_left (by simp)),
            hkept⟩
      | func s body =>
          obtain ⟨s', hs'⟩ := lastSignature?_of_mem hns.1 rfl
          rw [lowerAll] at h
          split at h
          · cases h
          rename_i σ₁ hfunction
          rw [lowerFunction_last body σ hs'] at hfunction
          have hname := lastSignature?_name hs'
          obtain ⟨hσ₁, ⟨i, hi⟩, hkept₁⟩ :=
            lowerFunction_declarations (by rw [hname]; exact hs') hσ hfunction
          obtain ⟨hσ', hthere, hkept⟩ := ih hns.2 hσ₁ h
          refine ⟨hσ', ?_, fun x j hj => hkept x j (hkept₁ x j hj)⟩
          intro s'' body' hmem
          rcases List.mem_cons.1 hmem with heq | hmem
          · cases heq
            exact ⟨i, hkept _ i (hname ▸ hi)⟩
          · exact hthere s'' body' hmem
      | _ => cases h

theorem declarations_start : Declarations entry program [printf] := by
  have hnone : ∀ (i : Nat) (f : Function), 0 < i → [IR.printf][i]? ≠ some f := by
    intro i f hi hf
    obtain ⟨k, rfl⟩ : ∃ k, i = k + 1 := ⟨i - 1, by omega⟩
    cases hf
  exact ⟨rfl, fun i f hi hf => absurd hf (hnone i f hi), fun i f hi hf => absurd hf (hnone i f hi),
    List.nodup_nil⟩

/-- **Every function of a module has the parameters and the return type of the last signature of its
name**, whether or not it has a body; and those that have one are there. -/
theorem lower_declarations {sourceName : Bytes} {m : Module}
    (h : lower entry sourceName program = .ok m) :
    Declarations entry program m.functions ∧ ∀ s body, .func s body ∈ program →
      ∃ i, numberOf? m.functions s.name.lexeme = some i := by
  unfold lower at h
  split at h
  · cases h
  rename_i σ hdeclare
  split at h
  · cases h
  rename_i σ' hlower
  cases h
  obtain ⟨hdeclared, hthere, -⟩ := lowerAll_declarations (fun _ hn => hn)
    (declareAll_declarations (fun _ hn => hn) declarations_start hdeclare) hlower
  exact ⟨hdeclared, hthere⟩

end

/-! ## Programs that can be lowered -/

/-- A well-typed program with one item a name, in which the entry function returns nothing and
parameters are found by their names. -/
structure Emittable (entry : Bytes) (program : List Node) : Prop extends Run.Checked program where
  distinct : DistinctNames program
  items : ∀ n ∈ program, n.signature?.isSome
  entryVoid : ∀ s, lastSignature? program entry = some s → s.ret = some .void
  shown : ∀ s body, .func s body ∈ program → ∀ p ∈ s.params,
    shownName p.name.lexeme = p.name.lexeme

/-- The same of a program that is ready to run. -/
structure Lowerable (entry : Bytes) (program : List Node) : Prop extends Emittable entry program where
  complete : Complete program

section

variable {entry : Bytes} {program : List Node}

/-- **A program that the checker accepts can be lowered**, if its tokens come from a source text and
its items have different names. -/
theorem Emittable.of_analyze {tokens : List Token} (htokens : ∀ t ∈ tokens, t.IsScanned)
    {tree : List Node} (hparse : Parsing.parse tokens = .ok program)
    (hanalyze : analyze entry program = .ok tree) (hdistinct : DistinctNames program) :
    Emittable entry tree := by
  have hshape : ∀ n ∈ program, n.IsStatement fun _ => True :=
    Parsing.parse_grown (fun _ _ => trivial) hparse
  have htyped := WellTyped.of_analyze hshape hanalyze
  have hsignatures := filterMap_signature?_congr htyped.map_signature?
  refine ⟨.of_analyze hshape hanalyze, hdistinct.congr hsignatures, ?_, ?_, ?_⟩
  · intro n hn
    obtain ⟨_, -, hitem⟩ := item_of_mem htyped.items hn
    cases hitem <;> rfl
  · intro s hs
    obtain ⟨s', body, rest, rfl, rfl, -, hret, -⟩ := htyped.entry
    have hfirst := hdistinct.lastSignature?_eq List.mem_cons_self rfl
    rw [lastSignature?, hsignatures] at hs
    rw [lastSignature?, hs, Option.some.injEq] at hfirst
    rw [hfirst, hret]
  · intro s body hmem p hp
    obtain ⟨n, hn, hitem⟩ := item_of_mem htyped.items hmem
    have hparsed := (Parsing.parse_grown htokens hparse n hn).isParsed hitem.signature?_eq.symm
    obtain ⟨hkind, hscanned⟩ := (hparsed.params p hp).name
    exact shownName_of_isScanned hscanned hkind

theorem Emittable.storable (h : Emittable entry program) {name : Bytes} {s : Signature}
    (hs : lastSignature? program name = some s) :
    ∀ p ∈ s.params, ∃ t, p.type = some t ∧ t ≠ .void := by
  obtain ⟨hwell, -, htypes⟩ := h.signatures.of_isLastItem (lastSignature?_eq_some_iff.1 hs)
  intro p hp
  obtain ⟨t, ht⟩ := Option.isSome_iff_exists.1 (htypes p hp)
  refine ⟨t, ht, ?_⟩
  rintro rfl
  exact hwell.storable p hp ht

/-- A declared function has the types of its signature. -/
theorem Emittable.declared (h : Emittable entry program) {f : Function}
    (hf : Declared entry program f) {s : Signature} (hs : lastSignature? program f.name = some s)
    {t : Swiftlet.Ty} (ht : s.ret = some t) :
    f.params = s.params.map paramOf ∧ f.ret = Ty.of t := by
  obtain ⟨s', ret, hs', hparams, hret, hfret⟩ := hf
  rw [hs] at hs'
  cases hs'
  rw [ht] at hret
  cases hret
  refine ⟨(lowerParams_eq_ok_iff.1 hparams).2, ?_⟩
  rw [hfret]
  split
  · rename_i hname
    rw [hname] at hs
    rw [h.entryVoid s hs] at ht
    cases ht
    rfl
  · rfl

theorem Emittable.declare_ok (h : Emittable entry program) {s : Signature}
    (hs : lastSignature? program s.name.lexeme = some s) (σ : State) :
    ∃ i σ', declare entry s σ = .ok (i, σ') := by
  have hparams := lowerParams_eq_ok_iff.2 ⟨h.storable hs, rfl⟩
  obtain ⟨ret, hret⟩ := Option.isSome_iff_exists.1
    (h.signatures.of_isLastItem (lastSignature?_eq_some_iff.1 hs)).2.1
  unfold declare
  cases σ.functionIndex? s.name.lexeme with
  | some i => exact ⟨i, σ, rfl⟩
  | none =>
      rw [hparams, hret]
      exact ⟨_, _, rfl⟩

/-- A function is there after it has been declared, with the types of its signature. -/
theorem Emittable.declare_function (h : Emittable entry program) {s : Signature}
    (hs : lastSignature? program s.name.lexeme = some s) {t : Swiftlet.Ty} (ht : s.ret = some t)
    {σ σ' : State} {i : Nat} (hσ : Declarations entry program σ.functions)
    (hdeclare : declare entry s σ = .ok (i, σ')) :
    ∃ f, σ'.functions[i]? = some f ∧ f.name = s.name.lexeme ∧ f.params = s.params.map paramOf ∧
      f.ret = Ty.of t := by
  obtain ⟨hi, ⟨f, hf, hname⟩, -⟩ := numberOf?_eq_some_iff.1 (declare_number hσ.ne_nil hdeclare)
  have hdeclared := (hσ.added (declare_added hs hdeclare).2).declared i f hi hf
  exact ⟨f, hf, hname, h.declared hdeclared (by rw [hname]; exact hs) ht⟩

end

/-! ## Typed expressions -/

/-- Every visible binding has a slot of its type. -/
def LocalsFit (Γ : Scope) (locals : List (Bytes × Slot)) : Prop :=
  ∀ x t, (x, t) ∈ Γ → ∃ site, locals.lookup x = some ⟨site, Ty.of t⟩

/-- The operation on operands of a type. -/
def arithmeticOf : Swiftlet.Ty → Operator → Arithmetic
  | .float, o => floatArithmetic o
  | _, o => intArithmetic o

theorem Ty.of_eq_void {t : Swiftlet.Ty} : Ty.of t = .void ↔ t = .void := by
  cases t <;> simp [Ty.of]

theorem format?_of_ne_void {t : Swiftlet.Ty} (ht : t ≠ .void) :
    ∃ name text, format? (Ty.of t) = some (name, text) := by
  cases t with
  | void => exact absurd rfl ht
  | _ => exact ⟨_, _, rfl⟩

theorem operation_eq {op : Token} {o : Operator} (hop : op.kind = .operator o) {t : Swiftlet.Ty}
    (ht : t.isNumeric = true) {l r : Operand} (hl : l.type = Ty.of t) (hr : r.type = Ty.of t) :
    operation op l r = .ok (arithmeticOf t o) := by
  rw [operation, if_neg (by simp [hl, hr]), hl, hop]
  cases t with
  | int | float => rfl
  | _ => cases ht

section

variable {entry : Bytes} {program : List Node} {ret : Ty} {params : List (Bytes × Operand)}
  {s : Signature} {Γ : Scope}

theorem lowerRef_param (hparams : ParamsFit params s) {name : Token} {i : Nat} {p : Decl}
    {t : Swiftlet.Ty} (hp : s.params[i]? = some p) (hname : p.name.lexeme = name.lexeme)
    (ht : p.type = some t) (σ : State) :
    lowerRef ⟨entry, program, ret, params⟩ name σ = .ok (.param i (Ty.of t), σ) := by
  have hfound := hparams.found i p t hp ht
  rw [hname] at hfound
  simp only [lowerRef, hfound]

theorem lowerRef_var (hparams : ParamsFit params s) {name : Token}
    (hname : name.lexeme ∉ namesOf s.params) {σ : State} {slot : Slot}
    (hslot : σ.locals.lookup name.lexeme = some slot) :
    lowerRef ⟨entry, program, ret, params⟩ name σ =
      .ok (.result σ.site slot.type, (σ.emit (.load slot.type slot.site)).2) := by
  simp only [lowerRef, hparams.absent _ hname, hslot]
  rfl

theorem lowerValues_ok {args : List Node} {ts : List Swiftlet.Ty}
    (hlength : args.length = ts.length)
    (hargs : ∀ p ∈ args.zip ts, ∀ σ : State, σ.Open → Declarations entry program σ.functions →
      LocalsFit Γ σ.locals →
      ∃ o σ', lowerValue ⟨entry, program, ret, params⟩ p.1 σ = .ok (o, σ') ∧ o.type = Ty.of p.2)
    {σ : State} (hopen : σ.Open) (hσ : Declarations entry program σ.functions)
    (hlocals : LocalsFit Γ σ.locals) :
    ∃ os σ', lowerValues ⟨entry, program, ret, params⟩ args σ = .ok (os, σ') := by
  induction args generalizing ts σ with
  | nil => exact ⟨[], σ, rfl⟩
  | cons n rest ih =>
      cases ts with
      | nil => cases hlength
      | cons t ts =>
      rw [List.zip_cons_cons, List.forall_mem_cons] at hargs
      obtain ⟨o, σ₁, hn, -⟩ := hargs.1 σ hopen hσ hlocals
      have hstraight := lowerValue_straight n hopen hn
      obtain ⟨os, σ₂, hrest⟩ := ih (Nat.succ.inj hlength) hargs.2 hstraight.isOpen
        (hσ.added hstraight.functions) (hstraight.locals ▸ hlocals)
      exact ⟨o :: os, σ₂, by rw [lowerValues, hn]; simp only [hrest]⟩

/-- **A well-typed expression is lowered, to an operand of its type.** -/
theorem lowerValue_ok (hlow : Emittable entry program) (ret : Ty) (hparams : ParamsFit params s)
    (hnodup : (namesOf s.params ++ Γ.names).Nodup) {n : Node} {t : Swiftlet.Ty}
    (h : HasType program s Γ n t) {P : Token → Prop} (hn : n.IsExpr P) {σ : State} (hopen : σ.Open)
    (hσ : Declarations entry program σ.functions) (hlocals : LocalsFit Γ σ.locals) :
    ∃ o σ', lowerValue ⟨entry, program, ret, params⟩ n σ = .ok (o, σ') ∧ o.type = Ty.of t := by
  induction h generalizing σ with
  | int | float | bool =>
      rw [lowerValue]
      exact ⟨_, _, rfl, rfl⟩
  | string _ v =>
      refine ⟨(σ.stringConstant v).1, (σ.stringConstant v).2, by rw [lowerValue], ?_⟩
      unfold State.stringConstant State.constant
      split <;> rfl
  | param hp hname ht =>
      obtain ⟨i, hi⟩ := List.mem_iff_getElem?.1 hp
      exact ⟨_, _, by rw [lowerValue, lowerRef_param hparams hi hname ht], rfl⟩
  | @var name t hname =>
      obtain ⟨site, hsite⟩ := hlocals _ _ hname
      have habsent : name.lexeme ∉ namesOf s.params := fun hx =>
        (List.nodup_append.1 hnodup).2.2 _ hx _ (List.mem_map.2 ⟨_, hname, rfl⟩) rfl
      exact ⟨_, _, by rw [lowerValue, lowerRef_var hparams habsent hsite], rfl⟩
  | binary op ht _ _ ihl ihr =>
      cases hn with
      | binary o hop _ hl hr =>
      obtain ⟨lo, σ₁, hlower, hltype⟩ := ihl hl hopen hσ hlocals
      have hleft := lowerValue_straight _ hopen hlower
      obtain ⟨ro, σ₂, hlower', hrtype⟩ := ihr hr hleft.isOpen (hσ.added hleft.functions)
        (hleft.locals ▸ hlocals)
      simp only [lowerValue, hlower, hlower', operation_eq hop ht hltype hrtype]
      exact ⟨_, _, rfl, hltype⟩
  | @call name args callee ts t hcallee hps hlength _ hret ih =>
      cases hn with
      | call _ hexprs =>
      have hlast := lastSignature?_eq_some_iff.2 hcallee
      have hs : lastSignature? program callee.name.lexeme = some callee := by
        rw [lastSignature?_name hlast]
        exact hlast
      obtain ⟨i, σ₁, hdeclare⟩ := hlow.declare_ok hs σ
      have hstraight : Straight ⟨entry, program, ret, params⟩ σ σ₁ :=
        declare_straight hopen hs hdeclare
      obtain ⟨f, hf, -, hfparams, hfret⟩ := hlow.declare_function hs hret hσ hdeclare
      obtain ⟨os, σ₂, hargs⟩ := lowerValues_ok hlength
        (fun p hp σ hopen hσ hlocals =>
          ih p hp (hexprs _ (List.of_mem_zip hp).1) hopen hσ hlocals)
        hstraight.isOpen (hσ.added hstraight.functions) (hstraight.locals ▸ hlocals)
      have hcount : args.length = f.params.length := by
        have := congrArg List.length hps
        rw [List.length_map, List.length_map] at this
        rw [hlength, hfparams, List.length_map, this]
      simp only [lowerValue, hlast, hdeclare, hf, ne_eq, hcount, not_true_eq_false, if_false, hargs]
      exact ⟨_, _, rfl, hfret⟩

end

/-! ## Typed statements -/

/-- The visible names have the slots they had. -/
def LocalsKept (Γ : Scope) (σ σ' : State) : Prop :=
  ∀ x ∈ Γ.names, σ'.locals.lookup x = σ.locals.lookup x

section

variable {entry : Bytes} {program : List Node} {ret : Ty} {params : List (Bytes × Operand)}
  {s : Signature} {Γ : Scope}

theorem LocalsFit.kept {σ σ' : State} (h : LocalsFit Γ σ.locals) (hkept : LocalsKept Γ σ σ') :
    LocalsFit Γ σ'.locals := by
  intro x t hx
  rw [hkept x (List.mem_map.2 ⟨_, hx, rfl⟩)]
  exact h x t hx

/-- A variable's slot is found by its name, and the names before it are found as before. -/
theorem lookup_cons_of_new {x : Bytes} {slot : Slot} {locals : List (Bytes × Slot)} {y : Bytes} :
    List.lookup y ((x, slot) :: locals) = if y = x then some slot else locals.lookup y := by
  rw [List.lookup_cons]
  split <;> simp_all

theorem LocalsFit.bind {locals : List (Bytes × Slot)} (h : LocalsFit Γ locals) {x : Bytes}
    (hx : x ∉ Γ.names) (site : Site) (t : Swiftlet.Ty) :
    LocalsFit ((x, t) :: Γ) ((x, ⟨site, Ty.of t⟩) :: locals) := by
  intro y u hy
  rw [lookup_cons_of_new]
  rcases List.mem_cons.1 hy with heq | hmem
  · cases heq
    exact ⟨site, if_pos rfl⟩
  · rw [if_neg]
    · exact h y u hmem
    · rintro rfl
      exact hx (List.mem_map.2 ⟨_, hmem, rfl⟩)

/-- A statement that is lowered, and after it the rest of its body. -/
theorem lowerBody_cons_ok {c : Context} {n : Node} {rest : List Node} {σ σ₁ : State}
    (hopen : σ.Open) (hn : lowerStatement c n σ = .ok σ₁) (hkept : LocalsKept Γ σ σ₁)
    (hrest : σ₁.Open → FunctionsAdded c.entry c.program σ.functions σ₁.functions →
      ∃ σ', lowerBody c rest σ₁ = .ok σ' ∧ LocalsKept Γ σ₁ σ') :
    ∃ σ', lowerBody c (n :: rest) σ = .ok σ' ∧ LocalsKept Γ σ σ' := by
  have hfollows := lowerStatement_follows c n σ σ₁ hopen hn
  simp only [lowerBody, hn]
  cases hended : σ₁.isTerminated with
  | true => exact ⟨σ₁, rfl, hkept⟩
  | false =>
      obtain ⟨σ', hbody, hkept'⟩ :=
        hrest (State.open_of_not_terminated hfollows.inRange hended) hfollows.functions
      exact ⟨σ', hbody, fun x hx => (hkept' x hx).trans (hkept x hx)⟩

/-- **A well-typed body is lowered**, and what was visible before is found where it was. -/
theorem lowerBody_ok (hlow : Emittable entry program) (ret : Ty) (hparams : ParamsFit params s)
    {ns ns' : List Node} (h : BodyTyped program s Γ ns ns') {P : Token → Prop} :
    (∀ n ∈ ns', n.IsStatement P) → (namesOf s.params ++ Γ.names).Nodup → ∀ σ : State, σ.Open →
    Declarations entry program σ.functions → LocalsFit Γ σ.locals →
      ∃ σ', lowerBody ⟨entry, program, ret, params⟩ ns' σ = .ok σ' ∧ LocalsKept Γ σ σ' := by
  induction h with
  | nil Γ =>
      intro _ _ σ _ _ _
      exact ⟨σ, rfl, fun _ _ => rfl⟩
  | @expr Γ e t ns ns' he _ ih =>
      intro hshape hnodup σ hopen hσ hlocals
      rw [List.forall_mem_cons] at hshape
      have hexpr := he.isExpr hshape.1
      obtain ⟨o, σ₁, hvalue, -⟩ := lowerValue_ok hlow ret hparams hnodup he hexpr hopen hσ hlocals
      have hstraight := lowerValue_straight _ hopen hvalue
      have hkept : LocalsKept Γ σ σ₁ := fun x _ => by rw [hstraight.locals]
      exact lowerBody_cons_ok hopen (by rw [lowerStatement_expr hexpr, hvalue]; rfl) hkept
        fun hopen₁ hadded => ih hshape.2 hnodup σ₁ hopen₁ (hσ.added hadded) (hlocals.kept hkept)
  | @assign Γ d v t ns ns' hv hvoid hd hnew _ ih =>
      intro hshape hnodup σ hopen hσ hlocals
      rw [List.forall_mem_cons] at hshape
      obtain ⟨o, σ₁, hvalue, htype⟩ :=
        lowerValue_ok hlow ret hparams hnodup hv hshape.1.assign_value hopen hσ hlocals
      have hstraight := lowerValue_straight _ hopen hvalue
      have hx : d.name.lexeme ∉ Γ.names := fun hx => hnew (List.mem_append_right _ hx)
      refine lowerBody_cons_ok hopen (by rw [lowerStatement, hvalue]) ?_ fun hopen₁ hadded => ?_
      · intro y hy
        show List.lookup y ((d.name.lexeme, _) :: σ₁.locals) = _
        rw [lookup_cons_of_new, if_neg, hstraight.locals]
        rintro rfl
        exact hx hy
      · obtain ⟨σ', hbody, hkept⟩ := ih hshape.2
          (nodup_params_cons.2 ⟨fun hx => hnew (List.mem_append_left _ hx), hx, hnodup⟩) _ hopen₁
          (hσ.added hadded) (by
            rw [htype]
            exact (hstraight.locals ▸ hlocals).bind hx _ t)
        exact ⟨σ', hbody, fun y hy => hkept y (List.mem_cons_of_mem _ hy)⟩
  | @print Γ token a more t ns ns' ha hvoid _ ih =>
      intro hshape hnodup σ hopen hσ hlocals
      rw [List.forall_mem_cons] at hshape
      obtain ⟨o, σ₁, hvalue, htype⟩ := lowerValue_ok hlow ret hparams hnodup ha
        (hshape.1.print_args a List.mem_cons_self) hopen hσ hlocals
      have hstraight := lowerValue_straight _ hopen hvalue
      obtain ⟨name, text, hformat⟩ := format?_of_ne_void hvoid
      rw [← htype] at hformat
      have hprint := lowerPrint_eq token σ₁ hformat
      have hprinted := lowerPrint_straight (c := ⟨entry, program, ret, params⟩) hstraight.isOpen
        hprint
      have hkept : LocalsKept Γ σ _ := fun x _ => by rw [hprinted.locals, hstraight.locals]
      exact lowerBody_cons_ok hopen (by rw [lowerStatement, hvalue]; exact hprint) hkept
        fun hopen₁ hadded => ih hshape.2 hnodup _ hopen₁ (hσ.added hadded) (hlocals.kept hkept)
  | @ret Γ token v t ns ns' hv hret _ ih =>
      intro hshape hnodup σ hopen hσ hlocals
      rw [List.forall_mem_cons] at hshape
      obtain ⟨o, σ₁, hvalue, -⟩ :=
        lowerValue_ok hlow ret hparams hnodup hv hshape.1.ret_value hopen hσ hlocals
      have hstraight := lowerValue_straight _ hopen hvalue
      have hkept : ∀ τ, LocalsKept Γ σ (σ₁.terminate τ) := fun τ x _ => by
        show σ₁.locals.lookup x = _
        rw [hstraight.locals]
      exact lowerBody_cons_ok hopen (by rw [lowerStatement, hvalue]) (hkept _)
        fun hopen₁ hadded => ih hshape.2 hnodup _ hopen₁ (hσ.added hadded) (hlocals.kept (hkept _))
  | @cond Γ token c body body' ns ns' hc _ _ ihb ih =>
      intro hshape hnodup σ hopen hσ hlocals
      rw [List.forall_mem_cons] at hshape
      obtain ⟨hexpr, hstatements⟩ := hshape.1.cond_parts
      obtain ⟨o, σ₁, hvalue, htype⟩ := lowerValue_ok hlow ret hparams hnodup hc hexpr hopen hσ hlocals
      have hstraight := lowerValue_straight _ hopen hvalue
      obtain ⟨σ₂, hbody, hinner⟩ := ihb hstatements hnodup (σ₁.branch o) (branch_open σ₁ o).1
        (hσ.added hstraight.functions) (hstraight.locals ▸ hlocals)
      have hkept : LocalsKept Γ σ (σ₂.join (σ₁.blocks.length + 1)) := fun x hx => by
        rw [(join_shared _ _).2.2, hinner x hx]
        show σ₁.locals.lookup x = _
        rw [hstraight.locals]
      refine lowerBody_cons_ok hopen ?_ hkept fun hopen₁ hadded =>
        ih hshape.2 hnodup _ hopen₁ (hσ.added hadded) (hlocals.kept hkept)
      simp only [lowerStatement_cond_eq, hvalue, htype, Ty.of, ne_eq, not_true_eq_false, if_false, hbody]

end

/-! ## Whole programs -/

/-- What all functions of a module have in common. -/
structure Shared where
  globals : List Global
  functions : List Function

def State.shared (σ : State) : Shared := ⟨σ.globals, σ.functions⟩

def Module.shared (m : Module) : Shared := ⟨m.globals, m.functions⟩

/-- Constants and functions keep their numbers, and a function that has a body keeps it. -/
structure Later (m m' : Shared) : Prop where
  globals : m.globals <+: m'.globals
  numbers : ∀ x i, numberOf? m.functions x = some i → numberOf? m'.functions x = some i
  defined : ∀ (i : Nat) (f : Function), m.functions[i]? = some f → f.blocks ≠ [] →
    m'.functions[i]? = some f

/-- Function `i` of the module is `f`, and its blocks are those of the body of `s`: lowering the body
has taken the state `σ₀` to `σ₁`. -/
structure BodyCode (entry : Bytes) (program : List Node) (m : Shared) (s : Signature)
    (body : List Node) (i : Nat) (f : Function) (σ₀ σ₁ : State) : Prop where
  number : numberOf? m.functions s.name.lexeme = some i
  function : m.functions[i]? = some f
  declarations : Declarations entry program σ₀.functions
  lowered : lowerBody ⟨entry, program, f.ret, paramOperands f⟩ body σ₀.fresh = .ok σ₁
  later : Later σ₁.shared m
  blocks : f.blocks = (σ₁.finish (s.ret = some .void || s.name.lexeme = entry)).blocks

section

variable {entry : Bytes} {program : List Node}

theorem Later.refl (m : Shared) : Later m m :=
  ⟨List.prefix_refl _, fun _ _ h => h, fun _ _ h _ => h⟩

theorem Later.trans {m m' m'' : Shared} (h : Later m m') (h' : Later m' m'') : Later m m'' :=
  ⟨List.IsPrefix.trans h.globals h'.globals, fun x i hi => h'.numbers x i (h.numbers x i hi),
    fun i f hf hblocks => h'.defined i f (h.defined i f hf hblocks) hblocks⟩

theorem Later.of_added {σ σ' : State} (hglobals : σ.globals <+: σ'.globals)
    (hadded : FunctionsAdded entry program σ.functions σ'.functions) :
    Later σ.shared σ'.shared :=
  ⟨hglobals, fun _ _ hi => hadded.number hi, fun _ _ hf _ => hadded.getElem? hf⟩

/-- A function that had no body gets one. -/
theorem Later.define {σ : State} {i : Nat} {f : Function} (hf : σ.functions[i]? = some f)
    (hblocks : f.blocks = []) (hidden : Bool) : Later σ.shared (σ.define i hidden).shared := by
  refine ⟨List.prefix_refl _, fun x j hj => define_number hj, fun j g hg hbody => ?_⟩
  have hg : σ.functions[j]? = some g := hg
  have hji : i ≠ j := by
    rintro rfl
    rw [hg] at hf
    cases hf
    exact hbody hblocks
  show (σ.define i hidden).functions[j]? = some g
  rw [define_getElem? hg, if_neg hji]

theorem State.finish_blocks {σ : State} (hlt : σ.current < σ.blocks.length) (isVoid : Bool) :
    BlocksGrow σ.blocks (σ.finish isVoid).blocks := by
  unfold State.finish
  split
  · rename_i h
    simp only [Bool.and_eq_true, Bool.not_eq_true'] at h
    exact (State.open_of_not_terminated hlt h.1).terminate _
  · exact .refl _

theorem State.finish_blocks_ne_nil {σ : State} (hlt : σ.current < σ.blocks.length)
    (isVoid : Bool) : (σ.finish isVoid).blocks ≠ [] := by
  have hlen := (State.finish_blocks hlt isVoid).length_le
  exact List.length_pos_iff.1 (by omega)

theorem BodyCode.blocks_ne_nil {m : Shared} {s : Signature} {body : List Node} {i : Nat}
    {f : Function} {σ₀ σ₁ : State} (h : BodyCode entry program m s body i f σ₀ σ₁) :
    f.blocks ≠ [] := by
  rw [h.blocks]
  exact State.finish_blocks_ne_nil (lowerBody_follows σ₀.fresh_open h.lowered).inRange _

theorem BodyCode.mono {m m' : Shared} {s : Signature} {body : List Node} {i : Nat} {f : Function}
    {σ₀ σ₁ : State} (h : BodyCode entry program m s body i f σ₀ σ₁) (hlater : Later m m') :
    BodyCode entry program m' s body i f σ₀ σ₁ where
  number := hlater.numbers _ _ h.number
  function := hlater.defined i f h.function h.blocks_ne_nil
  declarations := h.declarations
  lowered := h.lowered
  later := h.later.trans hlater
  blocks := h.blocks

/-- **A function that is lowered gets the code of its body**, and those before it stay as they are. -/
theorem lowerFunction_code {s : Signature} {body : List Node} {σ σ' : State}
    (hs : lastSignature? program s.name.lexeme = some s)
    (hσ : Declarations entry program σ.functions)
    (h : lowerFunction entry program s body σ = .ok σ') :
    Later σ.shared σ'.shared ∧ ∃ i f σ₀ σ₁, BodyCode entry program σ'.shared s body i f σ₀ σ₁ ∧
      ∀ (j : Nat) (g : Function), j ≠ i → σ'.functions[j]? = some g →
        σ.functions[j]? = some g ∨ g.IsDeclaration := by
  rw [lowerFunction_eq hs] at h
  split at h
  · cases h
  rename_i i σ₁ hdeclare
  have hnumber := declare_number hσ.ne_nil hdeclare
  obtain ⟨heq, hadded⟩ := declare_added hs hdeclare
  obtain ⟨hi, ⟨f, hf, -⟩, -⟩ := numberOf?_eq_some_iff.1 hnumber
  simp only [hf] at h
  split at h
  · cases h
  rename_i hblank
  have hempty : f.blocks = [] := by simpa using hblank
  split at h
  · cases h
  rename_i σ₂ hbody
  have hfollows := lowerBody_follows σ₁.fresh_open hbody
  have hall : FunctionsAdded entry program σ.functions σ₂.functions :=
    hadded.trans hfollows.functions
  have hglobals : σ.globals <+: σ₂.globals := by
    have hfirst : σ₁.globals = σ.globals := by rw [heq]
    exact hfirst ▸ hfollows.globals
  -- From here on only the state after the body matters.
  generalize hdone : σ₂.finish (s.ret = some .void || s.name.lexeme = entry) = done at h
  cases h
  obtain ⟨hdoneGlobals, hdoneFunctions⟩ :=
    State.finish_shared σ₂ (s.ret = some .void || s.name.lexeme = entry)
  rw [hdone] at hdoneGlobals hdoneFunctions
  have hshared : done.shared = σ₂.shared := by
    rw [State.shared, hdoneGlobals, hdoneFunctions]
    rfl
  have hfdone : done.functions[i]? = some f := by
    rw [hdoneFunctions]
    exact hfollows.functions.getElem? hf
  have hdefine := hshared ▸ Later.define hfdone hempty (s.name.lexeme ≠ entry)
  refine ⟨(Later.of_added hglobals hall).trans hdefine, i, _, σ₁, σ₂,
    ⟨hdefine.numbers _ _ (hfollows.functions.number hnumber), define_getElem? hfdone,
      hσ.added hadded, ?_, hdefine, ?_⟩, fun j g hij hg => ?_⟩
  · rw [if_pos rfl]
    exact hbody
  · rw [if_pos rfl, hdone]
  · obtain ⟨g', hg', -, hkeep⟩ := of_define_getElem? hg
    rw [hkeep hij.symm]
    rw [hdoneFunctions] at hg'
    exact (hall.or_new hg').imp id And.left

/-- A function whose name is new to the module is lowered. -/
theorem lowerFunction_ok (hlow : Emittable entry program) {s : Signature}
    {body : List Node} (hmem : .func s body ∈ program) {σ : State}
    (hσ : Declarations entry program σ.functions)
    (hnew : ∀ (i : Nat) (f : Function), 0 < i → σ.functions[i]? = some f →
      f.name = s.name.lexeme → f.blocks = []) :
    ∃ σ', lowerFunction entry program s body σ = .ok σ' := by
  have hs := hlow.distinct.lastSignature?_eq hmem rfl
  obtain ⟨t, ht⟩ := Option.isSome_iff_exists.1 (hlow.signatures _ hmem s rfl).2.1
  obtain ⟨i, σ₁, hdeclare⟩ := hlow.declare_ok hs σ
  have hi := (numberOf?_eq_some_iff.1 (declare_number hσ.ne_nil hdeclare)).1
  obtain ⟨f, hf, hname, hfparams, -⟩ := hlow.declare_function hs ht hσ hdeclare
  have hadded := (declare_added hs hdeclare).2
  have hempty : f.blocks = [] := by
    rcases hadded.or_new hf with hf | ⟨hf, -⟩
    · exact hnew i f hi hf hname
    · exact hf.blocks
  have hfit : ParamsFit (paramOperands f) s :=
    paramOperands_fit hfparams (hlow.params_nodup hmem) (hlow.shown s body hmem)
  obtain ⟨σ₂, hbody, -⟩ := lowerBody_ok hlow f.ret hfit (hlow.typed s body hmem)
    (hlow.body_shape hmem) (by simpa using hlow.params_nodup hmem) σ₁.fresh σ₁.fresh_open
    (hσ.added hadded) (fun x t hx => nomatch hx)
  rw [lowerFunction_eq hs, hdeclare]
  simp only [hf, hempty, ne_eq, not_true_eq_false, if_false, hbody]
  exact ⟨_, rfl⟩

theorem BodyCode.name_eq {m : Shared} {s : Signature} {body : List Node} {i : Nat} {f : Function}
    {σ₀ σ₁ : State} (h : BodyCode entry program m s body i f σ₀ σ₁) : f.name = s.name.lexeme := by
  obtain ⟨-, ⟨g, hg, hname⟩, -⟩ := numberOf?_eq_some_iff.1 h.number
  rw [h.function] at hg
  cases hg
  exact hname

/-- Every function of a module is declared only, or has the code of one of the bodies in `ns`. -/
def Coded (entry : Bytes) (program ns : List Node) (m : Shared) : Prop :=
  ∀ (i : Nat) (f : Function), 0 < i → m.functions[i]? = some f → f.IsDeclaration ∨
    ∃ s body σ₀ σ₁, .func s body ∈ ns ∧ BodyCode entry program m s body i f σ₀ σ₁

theorem Coded.mono {ns ns' : List Node} {m : Shared} (h : Coded entry program ns m)
    (hsub : ns ⊆ ns') : Coded entry program ns' m := by
  intro i f hi hf
  rcases h i f hi hf with hdeclaration | ⟨s, body, σ₀, σ₁, hmem, hcode⟩
  · exact .inl hdeclaration
  · exact .inr ⟨s, body, σ₀, σ₁, hsub hmem, hcode⟩

theorem Coded.lowerFunction {ns : List Node} {s : Signature} {body : List Node} {σ σ' : State}
    (hcoded : Coded entry program ns σ.shared)
    (hs : lastSignature? program s.name.lexeme = some s)
    (hσ : Declarations entry program σ.functions)
    (h : lowerFunction entry program s body σ = .ok σ') :
    Coded entry program (ns ++ [.func s body]) σ'.shared := by
  obtain ⟨hlater, i, f, σ₀, σ₁, hcode, hothers⟩ := lowerFunction_code hs hσ h
  intro j g hj hg
  by_cases hji : j = i
  · subst hji
    obtain rfl : f = g := Option.some.inj (hcode.function.symm.trans hg)
    exact .inr ⟨s, body, σ₀, σ₁, by simp, hcode⟩
  · rcases hothers j g hji hg with hold | hdeclaration
    · rcases hcoded j g hj hold with hdeclaration | ⟨s', body', τ₀, τ₁, hmem, hcode'⟩
      · exact .inl hdeclaration
      · exact .inr ⟨s', body', τ₀, τ₁, List.mem_append_left _ hmem, hcode'.mono hlater⟩
    · exact .inl hdeclaration

/-- The functions with a body get their code one after the other. -/
theorem lowerAll_code (hdistinct : DistinctNames program) {ns done : List Node}
    (hns : ∀ n ∈ ns, n ∈ program) {σ σ' : State}
    (hσ : Declarations entry program σ.functions) (hcoded : Coded entry program done σ.shared)
    (h : lowerAll entry program ns σ = .ok σ') :
    Later σ.shared σ'.shared ∧ Coded entry program (done ++ ns) σ'.shared ∧
      ∀ s body, .func s body ∈ ns →
        ∃ i f σ₀ σ₁, BodyCode entry program σ'.shared s body i f σ₀ σ₁ := by
  induction ns generalizing done σ with
  | nil =>
      cases h
      rw [List.append_nil]
      exact ⟨.refl _, hcoded, by simp⟩
  | cons n rest ih =>
      rw [List.forall_mem_cons] at hns
      rw [List.append_cons]
      cases n with
      | signature s =>
          obtain ⟨hlater, hall, hcode⟩ := ih hns.2 hσ (hcoded.mono (List.subset_append_left _ _)) h
          refine ⟨hlater, hall, fun s body hmem => hcode s body ?_⟩
          exact (List.mem_cons.1 hmem).resolve_left (by simp)
      | func s body =>
          have hs := hdistinct.lastSignature?_eq hns.1 rfl
          rw [lowerAll] at h
          split at h
          · cases h
          rename_i σ₁ hfunction
          have hσ₁ := (lowerFunction_declarations hs hσ hfunction).1
          obtain ⟨hlater, i, f, σ₀, σ₂, hcode, -⟩ := lowerFunction_code hs hσ hfunction
          obtain ⟨hlater', hall, hcodes⟩ :=
            ih hns.2 hσ₁ (hcoded.lowerFunction hs hσ hfunction) h
          refine ⟨hlater.trans hlater', hall, fun s' body' hmem => ?_⟩
          rcases List.mem_cons.1 hmem with heq | hmem
          · cases heq
            exact ⟨i, f, σ₀, σ₂, hcode.mono hlater'⟩
          · exact hcodes s' body' hmem
      | _ => cases h

theorem lowerAll_ok (hlow : Emittable entry program) {ns done : List Node}
    (hsplit : done ++ ns = program) {σ : State} (hσ : Declarations entry program σ.functions)
    (hcoded : Coded entry program done σ.shared) : ∃ σ', lowerAll entry program ns σ = .ok σ' := by
  induction ns generalizing done σ with
  | nil => exact ⟨σ, rfl⟩
  | cons n rest ih =>
      have hmem : n ∈ program := by simp [← hsplit]
      rw [List.append_cons] at hsplit
      obtain ⟨s, hs⟩ := Option.isSome_iff_exists.1 (hlow.items n hmem)
      cases n with
      | signature s' =>
          obtain ⟨σ', hrest⟩ := ih hsplit hσ (hcoded.mono (List.subset_append_left _ _))
          exact ⟨σ', hrest⟩
      | func s' body =>
          cases hs
          have hlast := hlow.distinct.lastSignature?_eq hmem rfl
          obtain ⟨σ₁, hfunction⟩ := lowerFunction_ok hlow hmem hσ (by
            intro i f hi hf hname
            rcases hcoded i f hi hf with hdeclaration | ⟨s', body', σ₀, σ₁, hdone, hcode⟩
            · exact hdeclaration.blocks
            · -- A function that has its code already is another item, so it has another name.
              have hnames := hlow.distinct
              rw [DistinctNames, ← hsplit] at hnames
              simp only [List.filterMap_append, List.map_append] at hnames
              have hapart := (List.nodup_append.1 (List.nodup_append.1 hnames).1).2.2
              refine absurd (hcode.name_eq.symm.trans hname) (hapart _ ?_ _ ?_)
              · exact List.mem_map.2 ⟨s', List.mem_filterMap.2 ⟨_, hdone, rfl⟩, rfl⟩
              · simp [Node.signature?])
          have hσ₁ := (lowerFunction_declarations hlast hσ hfunction).1
          obtain ⟨σ', hrest⟩ := ih hsplit hσ₁ (hcoded.lowerFunction hlast hσ hfunction)
          exact ⟨σ', by rw [lowerAll, hfunction]; exact hrest⟩
      | _ => cases hs

theorem declareAll_ok (hlow : Emittable entry program) {ns : List Node}
    (hns : ∀ n ∈ ns, n ∈ program) (σ : State) :
    ∃ σ', declareAll entry program ns σ = .ok σ' := by
  induction ns generalizing σ with
  | nil => exact ⟨σ, rfl⟩
  | cons n rest ih =>
      rw [List.forall_mem_cons] at hns
      cases n with
      | signature s =>
          have hs := hlow.distinct.lastSignature?_eq hns.1 rfl
          obtain ⟨i, σ₁, hdeclare⟩ := hlow.declare_ok hs σ
          obtain ⟨σ', hrest⟩ := ih hns.2 σ₁
          exact ⟨σ', by simp only [declareAll, hs, Option.getD_some, hdeclare, hrest]⟩
      | _ => exact ih hns.2 σ

/-- Declaring the functions without a body gives none of them a body. -/
theorem declareAll_added (hdistinct : DistinctNames program) {ns : List Node}
    (hns : ∀ n ∈ ns, n ∈ program) {σ σ' : State} (h : declareAll entry program ns σ = .ok σ') :
    FunctionsAdded entry program σ.functions σ'.functions := by
  induction ns generalizing σ with
  | nil =>
      cases h
      exact .refl _ _ _
  | cons n rest ih =>
      rw [List.forall_mem_cons] at hns
      cases n with
      | signature s =>
          have hs := hdistinct.lastSignature?_eq hns.1 rfl
          simp only [declareAll, hs, Option.getD_some] at h
          split at h
          · cases h
          rename_i i σ₁ hdeclare
          exact (declare_added hs hdeclare).2.trans (ih hns.2 h)
      | _ => exact ih hns.2 h

/-- Before any function has its code, all of them are declared only. -/
theorem FunctionsAdded.coded {σ : State} (h : FunctionsAdded entry program [printf] σ.functions) :
    Coded entry program [] σ.shared := by
  intro i f hi hf
  obtain ⟨k, rfl⟩ : ∃ k, i = k + 1 := ⟨i - 1, by omega⟩
  rcases h.or_new hf with hold | ⟨hdeclaration, -⟩
  · cases hold
  · exact .inl hdeclaration

/-- **Every function of a module is declared only or has the code of its body**, and every body has
its code. -/
theorem lower_code (hdistinct : DistinctNames program) {sourceName : Bytes} {m : Module}
    (h : lower entry sourceName program = .ok m) :
    Coded entry program program m.shared ∧ ∀ s body, .func s body ∈ program →
      ∃ i f σ₀ σ₁, BodyCode entry program m.shared s body i f σ₀ σ₁ := by
  unfold lower at h
  split at h
  · cases h
  rename_i σ hdeclare
  split at h
  · cases h
  rename_i σ' hlower
  cases h
  have hadded := declareAll_added hdistinct (fun _ hn => hn) hdeclare
  exact (lowerAll_code hdistinct (fun _ hn => hn) (declarations_start.added hadded) hadded.coded
    hlower).2

/-- **A well-typed program is lowered, and every function with a body gets its code.** -/
theorem lower_ok (hlow : Emittable entry program) (sourceName : Bytes) :
    ∃ m, lower entry sourceName program = .ok m ∧ ∀ s body, .func s body ∈ program →
      ∃ i f σ₀ σ₁, BodyCode entry program m.shared s body i f σ₀ σ₁ := by
  obtain ⟨σ, hdeclare⟩ := declareAll_ok hlow (fun _ hn => hn) ⟨[], [printf], [], 0, []⟩
  have hadded := declareAll_added hlow.distinct (fun _ hn => hn) hdeclare
  obtain ⟨σ', hlower⟩ := lowerAll_ok hlow (List.nil_append _) (declarations_start.added hadded)
    hadded.coded
  have hm : lower entry sourceName program = .ok ⟨sourceName, σ'.globals, σ'.functions⟩ := by
    simp only [lower, hdeclare, hlower]
  exact ⟨_, hm, (lower_code hlow.distinct hm).2⟩

end

end IR

end Swiftlet
