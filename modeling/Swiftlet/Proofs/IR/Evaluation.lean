import Swiftlet.Proofs.IR.Relation

/-!
# The code of expressions

Where the run and the execution agree, the code of an expression is executed to its end, and they agree
there again.

* `ValueSim` — what is shown of every expression, with `ValueReached` for where the execution comes
  to: its operand stands for the value that the run has found.
* `CallSim` — the same of functions, for calls that nest to a given depth. It is shown elsewhere; here
  it is what an expression asks of the functions it calls.

A run evaluates an argument when the callee reads it, an execution before the call. The argument is
plain, so the value is the same. Its code is executed whether or not the run evaluates it, and so
`ValueSim` speaks of plain expressions outside of the run, too.

Principal results: `args_sim`, `call_sim` and `value_sim`.
-/

namespace Swiftlet

namespace IR

open Typing Run

/-! ## Expressions -/

/-- The execution has come to the end of the code of an expression, whose operand stands for the value
that the run has found. -/
def ValueReached (S : Scene) (Γ : Scope) (log : Log) (σ σ' : State) (o : Operand) (t : Swiftlet.Ty)
    (m' : Machine) (v : Value) (a : Activation) (printed : List (List Val)) : Prop :=
  ∃ a' printed', Steps S.module ⟨a :: S.stack, printed⟩ ⟨a' :: S.stack, printed'⟩ ∧ Keeps σ a a' ∧
    Related S Γ log σ' m' a' printed' ∧
      (t ≠ .void → ∃ w, Represents S.module t v w ∧ Stable σ' a' o w)

/-- An expression that cannot overflow: it does not divide, or it is part of a run that is in range. -/
def Scene.Safe (S : Scene) (n : Node) (m : Machine) : Prop :=
  n.isPlain = true ∨ Config.InRange S.program ⟨S.depth, S.args, .node n, m⟩

/-- The code of an expression does what a run does. A plain expression need not be part of the run. -/
def ValueSim (S : Scene) (Γ : Scope) (n : Node) (t : Swiftlet.Ty) : Prop :=
  ∀ ⦃log : Log⦄ ⦃σ σ' : State⦄ ⦃o : Operand⦄ ⦃m m' : Machine⦄ ⦃v : Value⦄ ⦃a : Activation⦄
    ⦃printed : List (List Val)⦄, Related S Γ log σ m a printed →
    lowerValue S.context n σ = .ok (o, σ') → S.Emitted σ' → S.eval n m = .ok (v, m') → S.Safe n m →
      ValueReached S Γ log σ σ' o t m' v a printed

section

variable {S : Scene} {Γ : Scope} {log : Log} {σ : State} {m : Machine} {a : Activation}
  {printed : List (List Val)}

/-- Operands have the types of their expressions. -/
theorem Related.operand_type (h : Related S Γ log σ m a printed) (hS : S.Valid) {n : Node}
    {t : Swiftlet.Ty} (ht : HasType S.program S.signature Γ n t) {P : Token → Prop}
    (hn : n.IsExpr P) {o : Operand} {σ' : State} (hlower : lowerValue S.context n σ = .ok (o, σ')) :
    o.type = Ty.of t := by
  obtain ⟨o', σ'', hlower', htype⟩ := lowerValue_ok hS.toEmittable S.function.ret hS.params h.nodup
    ht hn h.isOpen h.declarations h.localsFit
  rw [← Scene.context, hlower, Except.ok.injEq, Prod.mk.injEq] at hlower'
  rw [hlower'.1, htype]

/-- An instruction with a result. -/
theorem Related.define (h : Related S Γ log σ m a printed) (hS : S.Valid) {i : Instruction}
    (hemitted : S.Emitted (σ.emit i).2) {w : Val}
    (hx : execute S.module a S.stack printed i = some ⟨(a.define w).next :: S.stack, printed⟩)
    (t : Ty) :
    Steps S.module ⟨a :: S.stack, printed⟩ ⟨(a.define w).next :: S.stack, printed⟩ ∧
      Keeps σ a (a.define w).next ∧
      Related S Γ log (σ.emit i).2 m (a.define w).next printed ∧
      Stable (σ.emit i).2 (a.define w).next (.result σ.site t) w := by
  have hkeeps : Keeps σ a (a.define w).next := .define h.site w
  refine ⟨.of_emit h.isOpen (h.running hS) hemitted.blocks h.site hx, hkeeps, ?_, ?_⟩
  · exact h.advance (c := S.context) ⟨rfl, rfl⟩ (emit_straight h.isOpen i) hkeeps
      (next_site h.isOpen h.site) h.still h.printed
  · exact stable_result (emit_has h.isOpen) (if_pos h.site.symm)

/-- An expression whose code is empty. -/
theorem ValueReached.here {o : Operand} {t : Swiftlet.Ty} {v : Value} {m' : Machine}
    (h : Related S Γ log σ m' a printed)
    (hvalue : t ≠ .void → ∃ w, Represents S.module t v w ∧ Stable σ a o w) :
    ValueReached S Γ log σ σ o t m' v a printed :=
  ⟨a, printed, .refl, .refl σ a, h, hvalue⟩

/-- First the code before an expression, then that of the expression. -/
theorem ValueReached.after {σ₁ σ' : State} {o : Operand} {t : Swiftlet.Ty} {v : Value}
    {m' : Machine} {a₁ : Activation} {printed₁ : List (List Val)}
    (hsteps : Steps S.module ⟨a :: S.stack, printed⟩ ⟨a₁ :: S.stack, printed₁⟩)
    (hgrow : BlocksGrow σ.blocks σ₁.blocks) (hkeeps : Keeps σ a a₁)
    (h : ValueReached S Γ log σ₁ σ' o t m' v a₁ printed₁) :
    ValueReached S Γ log σ σ' o t m' v a printed := by
  obtain ⟨a', printed', hsteps', hkeeps', hrelated, hvalue⟩ := h
  exact ⟨a', printed', hsteps.trans hsteps', hkeeps.trans hgrow hkeeps', hrelated, hvalue⟩

theorem constant_site (σ : State) (name content : Bytes) :
    (σ.constant name content).2.site = σ.site := by
  unfold State.constant
  split <;> rfl

/-- A constant is added to the module, and nothing is executed. -/
theorem Related.constant (h : Related S Γ log σ m a printed) (name content : Bytes)
    (hemitted : S.Emitted (σ.constant name content).2) :
    Related S Γ log (σ.constant name content).2 m a printed ∧
      ∃ g, S.module.Holds g content ∧
        ∀ a', (σ.constant name content).1.eval a' = some (.pointer g) := by
  refine ⟨h.advance (c := S.context) ⟨rfl, rfl⟩ (constant_straight h.isOpen _ _) (.refl σ a)
    (by rw [constant_site, h.site]) h.still h.printed, ?_⟩
  obtain ⟨i, hoperand, hg, -⟩ := constant_cases σ name content
  exact ⟨i, hemitted.later.holds hg, fun a' => by rw [hoperand]; rfl⟩

theorem valueSim_string (token : Token) (v : Bytes) : ValueSim S Γ (.string token v) .string := by
  intro log σ σ' o m m' v' a printed h hlower hemitted heval hsafe
  rw [lowerValue] at hlower
  obtain ⟨rfl, rfl⟩ : (σ.stringConstant v).1 = o ∧ (σ.stringConstant v).2 = σ' := by
    rw [Except.ok.injEq] at hlower
    rw [hlower]
    exact ⟨rfl, rfl⟩
  simp only [Scene.eval, Run.eval, Except.ok.injEq, Prod.mk.injEq] at heval
  obtain ⟨rfl, rfl⟩ := heval
  obtain ⟨hrelated, g, hholds, heval⟩ := h.constant [] (v ++ [0]) hemitted
  exact ⟨a, printed, .refl, .refl σ a, hrelated, fun _ => ⟨_, .string hholds, fun a' _ => heval a'⟩⟩

theorem valueSim_ref (hS : S.Valid) {name : Token} {t : Swiftlet.Ty}
    (ht : HasType S.program S.signature Γ (.ref name) t) : ValueSim S Γ (.ref name) t := by
  intro log σ σ' o m m' v a printed h hlower hemitted heval hsafe
  rw [lowerValue] at hlower
  simp only [Scene.eval, Run.eval] at heval
  cases ht with
  | @param _ p _ hp hname htype =>
      obtain ⟨i, hi, hget⟩ := paramIndex?_of_mem (List.nodup_append.1 h.nodup).1 hp
      obtain ⟨v₀, w, hv, hw, hrep⟩ := h.params i p t hget htype
      rw [hname] at hi
      rw [Scene.context, lowerRef_param hS.params hget hname htype, Except.ok.injEq,
        Prod.mk.injEq] at hlower
      obtain ⟨rfl, rfl⟩ := hlower
      obtain ⟨m₀, hlookup, hstill, hsink⟩ :=
        lookup_param_steady (φ := S.still log) hS.args hi hv m h.still
      rw [heval, Except.ok.injEq, Prod.mk.injEq] at hlookup
      obtain ⟨rfl, rfl⟩ := hlookup
      refine .here (h.machine hstill hsink) fun _ => ⟨w, hrep, fun a' hkeeps => ?_⟩
      rw [Operand.eval, hkeeps.args, hw]
  | var hname =>
      obtain ⟨v₀, site, w, hv, hslot, hhas, hfilled, hrep⟩ := h.vars _ _ hname
      have habsent := h.stillTyped.not_param hname
      rw [Scene.context, lowerRef_var hS.params habsent hslot, Except.ok.injEq,
        Prod.mk.injEq] at hlower
      obtain ⟨rfl, rfl⟩ := hlower
      have hsteady : Steady (S.still log :: S.callers) (lookup (forceAll S.program S.args) name) v₀ :=
        lookup_var_steady habsent hv
      obtain ⟨m₀, hlookup, hstill, hsink⟩ := hsteady m h.still
      rw [heval, Except.ok.injEq, Prod.mk.injEq] at hlookup
      obtain ⟨rfl, rfl⟩ := hlookup
      have hx : execute S.module a S.stack printed (.load (Ty.of t) site) =
          some ⟨(a.define w).next :: S.stack, printed⟩ := by
        simp only [execute, hfilled, hrep.type_eq, if_true]
      obtain ⟨hsteps, hkeeps, hrelated, hstable⟩ := h.define hS hemitted hx (Ty.of t)
      exact ⟨_, _, hsteps, hkeeps, hrelated.machine hstill hsink, fun _ => ⟨w, hrep, hstable⟩⟩

/-- How an operation is evaluated. -/
theorem Scene.eval_binary {l r : Node} {op : Token} {v : Value} {m' : Machine}
    (h : S.eval (.binary l op r) m = .ok (v, m')) :
    ∃ x m₁ y, S.eval l m = .ok (x, m₁) ∧ S.eval r m₁ = .ok (y, m') ∧ operate op x y = .ok v := by
  simp only [Scene.eval, Run.eval] at h
  split at h
  · cases h
  rename_i x m₁ hx
  split at h
  · cases h
  rename_i y m₂ hy
  split at h
  · cases h
  rename_i hv
  cases h
  exact ⟨x, m₁, y, hx, hy, hv⟩

theorem Scene.Safe.binary {l r : Node} {op : Token} (h : S.Safe (.binary l op r) m) {x y : Value}
    {m₁ m₂ : Machine} (hx : S.eval l m = .ok (x, m₁)) (hy : S.eval r m₁ = .ok (y, m₂)) :
    S.Safe l m ∧ S.Safe r m₁ ∧
      (op.kind = .operator .slash → ¬(x = .int Int32.minValue ∧ y = .int (-1))) := by
  rcases h with hplain | hrange
  · simp only [Node.isPlain, Bool.and_eq_true, decide_eq_true_eq] at hplain
    exact ⟨.inl hplain.1.2, .inl hplain.2, fun hslash => absurd hslash hplain.1.1⟩
  · refine ⟨.inr (hrange.needs .left), .inr (hrange.needs (.right hx)), ?_⟩
    rintro hslash ⟨rfl, rfl⟩
    exact hrange _ .refl ⟨l, op, r, m₁, m₂, rfl, hslash, hx, hy⟩

theorem valueSim_binary (hS : S.Valid) {l r : Node} {op : Token} {p : Operator} {t : Swiftlet.Ty}
    (hop : op.kind = .operator p) (ht : t.isNumeric = true)
    (hltype : HasType S.program S.signature Γ l t) (hrtype : HasType S.program S.signature Γ r t)
    {P : Token → Prop} (hlexpr : l.IsExpr P) (hrexpr : r.IsExpr P) (hl : ValueSim S Γ l t)
    (hr : ValueSim S Γ r t) : ValueSim S Γ (.binary l op r) t := by
  intro log σ σ' o m m' v a printed h hlower hemitted heval hsafe
  obtain ⟨lo, σ₁, ro, σ₂, i, hllower, hrlower, hi, rfl, rfl⟩ := lowerValue_binary hlower
  obtain ⟨x, m₁, y, hx, hy, hv⟩ := Scene.eval_binary heval
  obtain ⟨hlsafe, hrsafe, hrange⟩ := hsafe.binary hx hy
  have hleft := lowerValue_straight l h.isOpen hllower
  have hright := lowerValue_straight r hleft.isOpen hrlower
  have hemitted₂ := hemitted.of_grows (c := S.context) (emit_straight hright.isOpen _).toGrows
  obtain ⟨a₁, printed₁, hsteps₁, hkeeps₁, h₁, hvalue₁⟩ :=
    hl h hllower (hemitted₂.of_grows hright.toGrows) hx hlsafe
  obtain ⟨a₂, printed₂, hsteps₂, hkeeps₂, h₂, hvalue₂⟩ := hr h₁ hrlower hemitted₂ hy hrsafe
  have hvoid : t ≠ .void := by
    rintro rfl
    cases ht
  obtain ⟨u, hu, hstable₁⟩ := hvalue₁ hvoid
  obtain ⟨w, hw, hstable₂⟩ := hvalue₂ hvoid
  -- Both operands have the type of the operation.
  rw [operation_eq hop ht (h.operand_type hS hltype hlexpr hllower)
    (h₁.operand_type hS hrtype hrexpr hrlower), Except.ok.injEq] at hi
  subst hi
  obtain ⟨z, hz, hrep⟩ :=
    arithmetic_eval hop ht hu hw hv fun hslash => hrange (by rw [hop, hslash])
  have hx : execute S.module a₂ S.stack printed₂ (.arithmetic (arithmeticOf t p) lo ro) =
      some ⟨(a₂.define z).next :: S.stack, printed₂⟩ := by
    simp only [execute, hstable₁ a₂ hkeeps₂, hstable₂.eval, hz, Option.map_some]
  obtain ⟨hsteps₃, hkeeps₃, h₃, hstable₃⟩ := h₂.define hS hemitted hx lo.type
  exact ⟨_, _, (hsteps₁.trans hsteps₂).trans hsteps₃,
    (hkeeps₁.trans hleft.blocks hkeeps₂).trans (hleft.trans hright).blocks hkeeps₃, h₃,
    fun _ => ⟨z, hrep, hstable₃⟩⟩

/-- **Arguments are evaluated before the call**, to the values that the run finds when it reads the
parameters. -/
theorem args_sim (hS : S.Valid) {actuals : List Node} {ts : List Swiftlet.Ty}
    (hlength : actuals.length = ts.length)
    (htypes : ∀ p ∈ actuals.zip ts, HasType S.program S.signature Γ p.1 p.2)
    {P : Token → Prop} (hexprs : ∀ n ∈ actuals, n.IsExpr P)
    (hplain : ∀ n ∈ actuals, n.isPlain = true)
    (hsim : ∀ p ∈ actuals.zip ts, ValueSim S Γ p.1 p.2) (hvoid : ∀ t ∈ ts, t ≠ .void)
    {os : List Operand} {σ' : State} (h : Related S Γ log σ m a printed)
    (hlower : lowerValues S.context actuals σ = .ok (os, σ')) (hemitted : S.Emitted σ') :
    ∃ a' printed' pairs, Steps S.module ⟨a :: S.stack, printed⟩ ⟨a' :: S.stack, printed'⟩ ∧
      Keeps σ a a' ∧ Related S Γ log σ' m a' printed' ∧
      List.Forall₂ (fun n p => Steady (S.still log :: S.callers) (S.eval n) p.1) actuals pairs ∧
      List.Forall₂ (fun t p => Represents S.module t p.1 p.2) ts pairs ∧
      ∀ a'', Keeps σ' a' a'' → os.mapM (Operand.eval a'') = some (pairs.map Prod.snd) := by
  induction actuals generalizing ts σ os a printed with
  | nil =>
      cases ts with
      | cons t ts => cases hlength
      | nil =>
      cases hlower
      exact ⟨a, printed, [], .refl, .refl _ a, h, .nil, .nil, fun _ _ => rfl⟩
  | cons n rest ih =>
      cases ts with
      | nil => cases hlength
      | cons t ts =>
      rw [List.zip_cons_cons, List.forall_mem_cons] at htypes hsim
      rw [List.forall_mem_cons] at hexprs hplain hvoid
      obtain ⟨o, σ₁, os', hn, hrest, rfl⟩ := lowerValues_cons hlower
      have hfirst := lowerValue_straight n h.isOpen hn
      have hothers := lowerValues_straight
        (fun n _ _ _ _ hopen h => lowerValue_straight n hopen h) hfirst.isOpen hrest
      obtain ⟨v, hsteady⟩ : ∃ v, Steady (S.still log :: S.callers) (S.eval n) v := by
        obtain ⟨v, -, hsteady⟩ := eval_plain_steady h.stillTyped htypes.1 hexprs.1 hplain.1
        exact ⟨v, hsteady _ _ hS.args⟩
      obtain ⟨m₁, heval, hstill, hsink⟩ := hsteady m h.still
      obtain ⟨a₁, printed₁, hsteps₁, hkeeps₁, h₁, hvalue⟩ := hsim.1 h hn
        (hemitted.of_grows hothers.toGrows) heval (.inl hplain.1)
      obtain ⟨w, hrep, hstable⟩ := hvalue hvoid.1
      obtain ⟨a₂, printed₂, pairs, hsteps₂, hkeeps₂, h₂, hvalues, hreps, heval₂⟩ :=
        ih (Nat.succ.inj hlength) htypes.2 hexprs.2 hplain.2 hsim.2 hvoid.2
          (h₁.machine h.still hsink.symm) hrest
      refine ⟨a₂, printed₂, (v, w) :: pairs, hsteps₁.trans hsteps₂,
        hkeeps₁.trans hfirst.blocks hkeeps₂, h₂, .cons hsteady hvalues, .cons hrep hreps, ?_⟩
      intro a₃ hkeeps₃
      rw [List.mapM_cons, hstable a₃ (hkeeps₂.trans hothers.blocks hkeeps₃), heval₂ a₃ hkeeps₃]
      rfl

end

/-! ## Calls -/

/-- A call has returned on both sides. -/
structure Returned (S : Scene) (m : Machine) (v : Value) (value : Option Val)
    (printed : List (List Val)) : Prop where
  still : ∃ log, MachineStill (S.still log :: S.callers) m
  printed : List.Forall₂ (PrintedAs S.module) m.sink.values printed
  value : ∀ t, S.signature.ret = some t → t ≠ .void → ∃ w, value = some w ∧ Represents S.module t v w

/-- A function that may add `k` frames to its own does in the execution what it does in a run. -/
def CallSim (k : Nat) : Prop :=
  ∀ ⦃S : Scene⦄ ⦃body : List Node⦄ ⦃σ₀ σ₁ : State⦄ ⦃m m' : Machine⦄ ⦃v : Value⦄ ⦃returned : Bool⦄
    ⦃ws : List Val⦄ ⦃printed : List (List Val)⦄, S.Valid → S.depth = k →
    .func S.signature body ∈ S.program →
    BodyCode S.entry S.program S.module.shared S.signature body S.number S.function σ₀ σ₁ →
    MachineStill (S.still [] :: S.callers) m → S.Handed ws →
    List.Forall₂ (PrintedAs S.module) m.sink.values printed →
    Config.InRange S.program ⟨k, S.args, .body body, m⟩ →
    S.runBody body m = .ok ((v, returned), m') →
    ∃ value printed',
      Steps S.module ⟨.enter S.number ws :: S.stack, printed⟩ ⟨returnTo value S.stack, printed'⟩ ∧
        Returned S m' (if returned then v else .void) value printed'

/-- A function that has code is called with what its parameters ask for. -/
theorem Compiled.scene_valid {S : Scene} (h : Compiled S.entry S.program S.module)
    {body : List Node} (hmem : .func S.signature body ∈ S.program) {σ₀ σ₁ : State}
    (hcode : BodyCode S.entry S.program S.module.shared S.signature body S.number S.function σ₀ σ₁)
    (hargs : ArgsSteady S.callers S.signature S.values (forceAll S.program S.args)) :
    S.Valid ∧ S.function.params = S.signature.params.map paramOf ∧ S.function ≠ printf := by
  obtain ⟨hpos, ⟨f, hf, hname⟩, -⟩ := numberOf?_eq_some_iff.1 hcode.number
  have hfunction : S.module.functions[S.number]? = some S.function := hcode.function
  have hf : S.module.functions[S.number]? = some f := hf
  rw [hfunction, Option.some.injEq] at hf
  subst hf
  have hdeclared := h.declarations.declared _ _ hpos hfunction
  have hlast := h.distinct.lastSignature?_eq hmem rfl
  rw [← hname] at hlast
  obtain ⟨t, ht⟩ := Option.isSome_iff_exists.1 (h.signatures _ hmem S.signature rfl).2.1
  obtain ⟨hparams, hret⟩ := h.declared hdeclared hlast ht
  refine ⟨⟨h, hfunction, ?_, ?_, hargs⟩, hparams, ?_⟩
  · exact paramOperands_fit hparams (h.params_nodup hmem) (h.shown _ _ hmem)
  · intro t' ht'
    rw [ht, Option.some.injEq] at ht'
    rw [hret, ht']
  · intro hprintf
    refine hcode.blocks_ne_nil ?_
    rw [hprintf]
    rfl

section

variable {S : Scene} {Γ : Scope}

/-- The call of a function with these arguments, when `a` executes it. -/
def Scene.call (S : Scene) (log : Log) (k : Nat) (actuals : List Node) (s : Signature)
    (values : List Value) (i : Nat) (f : Function) (a : Activation) : Scene :=
  ⟨S.entry, S.program, S.module, k, actuals.map (.mk S.depth S.args), s, values,
    S.still log :: S.callers, i, f, a :: S.stack⟩

theorem represents_types {m : Module} {ts : List Swiftlet.Ty} {pairs : List (Value × Val)}
    (h : List.Forall₂ (fun t p => Represents m t p.1 p.2) ts pairs) :
    (pairs.map Prod.snd).map Val.type = ts.map Ty.of := by
  induction h with
  | nil => rfl
  | cons hrep _ ih => rw [List.map_cons, List.map_cons, List.map_cons, ih, hrep.type_eq]

/-- The arguments of a call stand for the values of the callee's parameters. -/
theorem represents_handed {m : Module} {ts : List Swiftlet.Ty} {pairs : List (Value × Val)}
    {params : List Decl} (hparams : params.map Decl.type = ts.map some)
    (h : List.Forall₂ (fun t p => Represents m t p.1 p.2) ts pairs) {i : Nat} {p : Decl}
    {t : Swiftlet.Ty} (hp : params[i]? = some p) (ht : p.type = some t) :
    ∃ v w, (pairs.map Prod.fst)[i]? = some v ∧ (pairs.map Prod.snd)[i]? = some w ∧
      Represents m t v w := by
  have hget : ts[i]? = some t := by
    have := congrArg (·[i]?) hparams
    simp only [List.getElem?_map, hp, Option.map_some, ht] at this
    cases hts : ts[i]? with
    | none => simp [hts] at this
    | some t' => simpa [hts] using this.symm
  obtain ⟨hlt, rfl⟩ := List.getElem?_eq_some_iff.1 hget
  have hlt' : i < pairs.length := by rwa [← h.length_eq]
  refine ⟨pairs[i].1, pairs[i].2, ?_, ?_, h.get hlt hlt'⟩ <;>
    rw [List.getElem?_map, List.getElem?_eq_getElem hlt', Option.map_some]

/-- **A call runs the body of its function and comes back with its value.** -/
theorem call_sim (hS : S.Valid) {k : Nat} (hcall : CallSim k) {s : Signature}
    {body : List Node} (hmem : .func s body ∈ S.program) {t : Swiftlet.Ty} (hret : s.ret = some t)
    {log : Log} {σ : State} {m m₁ : Machine} {a : Activation} {printed : List (List Val)}
    (h : Related S Γ log σ m a printed) {i : Nat}
    (hnumber : numberOf? σ.functions s.name.lexeme = some i) {actuals : List Node}
    {ts : List Swiftlet.Ty} {pairs : List (Value × Val)} {os : List Operand}
    (hparams : s.params.map Decl.type = ts.map some)
    (hvalues : List.Forall₂ (fun n p => Steady (S.still log :: S.callers) (S.eval n) p.1) actuals
      pairs)
    (hreps : List.Forall₂ (fun t p => Represents S.module t p.1 p.2) ts pairs)
    (hos : os.mapM (Operand.eval a) = some (pairs.map Prod.snd)) {type : Ty}
    (hemitted : S.Emitted (σ.emit (.call i type os)).2)
    (hrange : Config.InRange S.program
      ⟨k, actuals.map (.mk S.depth S.args), .body body, m.push s⟩) {v : Value} {returned : Bool}
    (hbody : Run.runBody S.program (enter S.program k)
      (forceAll S.program (actuals.map (.mk S.depth S.args))) body (m.push s) =
        .ok ((v, returned), m₁)) :
    ValueReached S Γ log σ (σ.emit (.call i type os)).2 (.result σ.site type) t m₁.pop
      (if returned then v else .void) a printed := by
  obtain ⟨i', f, σ₀, σ₁, hcode⟩ := hS.code s body hmem
  have hnumber' := hemitted.later.numbers _ _ hnumber
  rw [hcode.number, Option.some.injEq] at hnumber'
  subst hnumber'
  have hargs : ArgsSteady (S.still log :: S.callers) s (pairs.map Prod.fst)
      (forceAll S.program (actuals.map (.mk S.depth S.args))) := by
    rw [← suspend_eq_forceAll]
    exact .of_call s (List.forall₂_map_right_iff.2 hvalues)
  obtain ⟨hvalid, hfparams, hprintf⟩ := Compiled.scene_valid
    (S := S.call log k actuals s (pairs.map Prod.fst) i' f a) hS.toCompiled hmem hcode hargs
  have htypes : (pairs.map Prod.snd).map Val.type = f.params.map Param.type := by
    have hfparams : f.params = s.params.map paramOf := hfparams
    have hp : s.params.map (fun p => Ty.of (p.type.getD .void)) =
        (s.params.map Decl.type).map fun o => Ty.of (o.getD .void) := by rw [List.map_map]; rfl
    rw [represents_types hreps, hfparams, List.map_map]
    show _ = s.params.map fun p => Ty.of (p.type.getD .void)
    rw [hp, hparams, List.map_map]
    rfl
  -- The call is executed, then the body.
  have hfunction : S.module.functions[i']? = some f := hcode.function
  have hprintf : f ≠ printf := hprintf
  have hx : execute S.module a S.stack printed (.call i' type os) =
      some ⟨.enter i' (pairs.map Prod.snd) :: a :: S.stack, printed⟩ := by
    simp only [execute, hfunction, hos, if_neg hprintf, if_pos htypes]
  have hstep := Steps.of_emit h.isOpen (h.running hS) hemitted.blocks h.site hx
  obtain ⟨value, printed₁, hsteps, hreturned⟩ := hcall hvalid rfl hmem hcode (h.still.push s _)
    (fun j p t hp ht => represents_handed hparams hreps hp ht) h.printed hrange hbody
  -- The call has returned.
  obtain ⟨log₁, hstill⟩ := hreturned.still
  have hkeeps : Keeps σ a (a.resume value) := .resume h.site value
  have hsite : (a.resume value).site = (σ.emit (.call i' type os)).2.site := by
    rw [← next_site h.isOpen h.site]
    cases value <;> rfl
  refine ⟨a.resume value, printed₁, hstep.trans hsteps, hkeeps, ?_, fun hvoid => ?_⟩
  · refine h.advance (c := S.context) ⟨rfl, rfl⟩ (emit_straight h.isOpen _) hkeeps hsite
      (hstill.pop (by simp)) ?_
    rw [pop_sink]
    exact hreturned.printed
  · obtain ⟨w, rfl, hrep⟩ := hreturned.value t hret hvoid
    exact ⟨w, hrep, stable_result (emit_has h.isOpen) (if_pos h.site.symm)⟩

theorem declare_site {entry : Bytes} {program : List Node} {s : Signature} {σ σ' : State} {i : Nat}
    (hs : lastSignature? program s.name.lexeme = some s) (h : declare entry s σ = .ok (i, σ')) :
    σ'.site = σ.site := by
  rw [(declare_added hs h).1]
  rfl

/-- How a call is evaluated: it takes one of the frames that may be added. -/
theorem Scene.eval_call {name : Token} {actuals : List Node} {v : Value} {m m' : Machine}
    (h : S.eval (.call name actuals) m = .ok (v, m')) :
    ∃ s body k u returned m₁, findFunction? S.program name.lexeme = some (s, body) ∧
      S.depth = k + 1 ∧
      Run.runBody S.program (enter S.program k)
        (forceAll S.program (actuals.map (.mk S.depth S.args))) body (m.push s) =
          .ok ((u, returned), m₁) ∧
      v = (if returned then u else .void) ∧ m' = m₁.pop := by
  simp only [Scene.eval, Run.eval] at h
  split at h
  · cases h
  rename_i s body hfound
  rw [suspend_eq_forceAll] at h
  cases hk : S.depth with
  | zero =>
      rw [hk] at h
      cases h
  | succ k =>
      rw [hk, enter] at h
      split at h
      · cases h
      rename_i u returned m₁ hbody
      cases h
      exact ⟨s, body, k, u, returned, m₁, hfound, rfl, hbody, rfl, rfl⟩

theorem params_ne_void (hS : S.Valid) {s : Signature}
    (hs : lastSignature? S.program s.name.lexeme = some s) {ts : List Swiftlet.Ty}
    (hparams : s.params.map Decl.type = ts.map some) : ∀ t ∈ ts, t ≠ .void := by
  intro t ht
  have hmem : some t ∈ s.params.map Decl.type := by
    rw [hparams]
    exact List.mem_map_of_mem ht
  obtain ⟨p, hp, htype⟩ := List.mem_map.1 hmem
  obtain ⟨t', ht', hvoid⟩ := hS.storable hs p hp
  rw [htype, Option.some.injEq] at ht'
  rwa [ht']

theorem valueSim_call (hS : S.Valid) (hcalls : ∀ k, S.depth = k + 1 → CallSim k) {name : Token}
    {actuals : List Node} {callee : Signature} {ts : List Swiftlet.Ty} {t : Swiftlet.Ty}
    (hcallee : IsLastItem S.program name.lexeme callee)
    (hparams : callee.params.map Decl.type = ts.map some) (hlength : actuals.length = ts.length)
    (htypes : ∀ p ∈ actuals.zip ts, HasType S.program S.signature Γ p.1 p.2)
    (hret : callee.ret = some t) {P : Token → Prop} (hexprs : ∀ n ∈ actuals, n.IsExpr P)
    (hplain : ∀ n ∈ actuals, n.isPlain = true)
    (hsim : ∀ p ∈ actuals.zip ts, ValueSim S Γ p.1 p.2) :
    ValueSim S Γ (.call name actuals) t := by
  intro log σ σ' o m m' v a printed h hlower hemitted heval hsafe
  obtain ⟨s, body, k, u, returned, m₁, hfound, hk, hbody, rfl, rfl⟩ := Scene.eval_call heval
  have hrange : Config.InRange S.program
      ⟨k, actuals.map (.mk S.depth S.args), .body body, m.push s⟩ := by
    rcases hsafe with hplain | hrange
    · cases hplain
    · rw [hk] at hrange ⊢
      exact hrange.needs (.call hfound)
  obtain ⟨s', i, σ₁, f, os, σ₂, hlast, hdeclare, -, hargs, rfl, rfl⟩ := lowerValue_call hlower
  -- The function that the run finds, the one that is lowered and the one of the type are the same.
  obtain ⟨hmem, hname⟩ := mem_of_findFunction? hfound
  have hs := hS.distinct.lastSignature?_eq hmem rfl
  obtain rfl : s = s' := by
    rw [hname] at hs
    exact Option.some.inj (hs.symm.trans hlast)
  obtain rfl : s = callee := (lastSignature?_eq_some_iff.1 hlast).unique hcallee
  have hdeclared : Straight S.context σ σ₁ := declare_straight h.isOpen hs hdeclare
  have hlowered : Straight S.context σ₁ σ₂ := lowerValues_straight
    (fun n _ _ _ _ hopen h => lowerValue_straight n hopen h) hdeclared.isOpen hargs
  have h₁ : Related S Γ log σ₁ m a printed := h.advance ⟨rfl, rfl⟩ hdeclared (.refl σ a)
    (by rw [declare_site hs hdeclare, h.site]) h.still h.printed
  obtain ⟨a₁, printed₁, pairs, hsteps, hkeeps, h₂, hvalues, hreps, hos⟩ := args_sim hS hlength htypes
    hexprs hplain hsim (params_ne_void hS hs hparams) h₁ hargs
    (hemitted.of_grows (c := S.context) (emit_straight hlowered.isOpen _).toGrows)
  have hnumber := hlowered.functions.number (declare_number h.declarations.ne_nil hdeclare)
  exact .after hsteps (hdeclared.trans hlowered).blocks
    ((Keeps.refl σ a).trans hdeclared.blocks hkeeps)
    (call_sim hS (hcalls k hk) hmem hret h₂ hnumber hparams hvalues hreps (hos a₁ (.refl σ₂ a₁))
      hemitted hrange hbody)

/-- **The code of an expression does what a run does.** -/
theorem value_sim (hS : S.Valid) (hcalls : ∀ k, S.depth = k + 1 → CallSim k) {n : Node}
    {t : Swiftlet.Ty} (h : HasType S.program S.signature Γ n t) {P : Token → Prop}
    (hn : n.IsExpr P) (hplain : ∀ a ∈ n.arguments, a.isPlain = true) : ValueSim S Γ n t := by
  induction h with
  | int | float | bool =>
      intro log σ σ' o m m' v a printed h hlower _ heval _
      rw [lowerValue, Except.ok.injEq, Prod.mk.injEq] at hlower
      obtain ⟨rfl, rfl⟩ := hlower
      simp only [Scene.eval, Run.eval, Except.ok.injEq, Prod.mk.injEq] at heval
      obtain ⟨rfl, rfl⟩ := heval
      exact .here h fun _ => ⟨_, by constructor, fun _ _ => rfl⟩
  | string token v => exact valueSim_string token v
  | param hp hname ht => exact valueSim_ref hS (.param hp hname ht)
  | var hname => exact valueSim_ref hS (.var hname)
  | binary op ht hl hr ihl ihr =>
      cases hn with
      | binary o hop _ hlexpr hrexpr =>
      rw [Node.arguments, List.forall_mem_append] at hplain
      exact valueSim_binary hS hop ht hl hr hlexpr hrexpr (ihl hlexpr hplain.1)
        (ihr hrexpr hplain.2)
  | @call name args callee ts t hcallee hparams hlength hargs hret ih =>
      cases hn with
      | call _ hexprs =>
      rw [Node.arguments, List.forall_mem_append] at hplain
      refine valueSim_call hS hcalls hcallee hparams hlength hargs hret hexprs hplain.1 ?_
      intro p hp
      have hmem := (List.of_mem_zip hp).1
      exact ih p hp (hexprs _ hmem) fun a ha =>
        hplain.2 a (arguments_subset_argumentsIn hmem ha)

end

end IR

end Swiftlet
