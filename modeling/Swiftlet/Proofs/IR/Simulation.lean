import Swiftlet.Proofs.IR.Evaluation

/-!
# The code of statements and functions

* `Ended` — where the code of a statement or of a body comes to: the function has returned, or the run
  and the execution agree in front of the next statement.
* `StatementSim`, `BodySim` — what is shown of every statement and body, one lemma for each kind of
  statement. An `if` is the only one whose code has jumps.

Principal results: `BodySim.cons`, that statements can be put together, `body_sim`, and `callSim`, by
induction on how deep calls may nest.
-/

namespace Swiftlet

namespace IR

open Typing Run

/-- Where the code of a statement or of a body comes to: it returns from the function exactly if the
run does. -/
inductive Ended (S : Scene) (Γ : Scope) (σ : State) (m : Machine) : Value → Bool → Execution → Prop
    where
  | returned {v : Value} {value : Option Val} {printed : List (List Val)}
      (h : Returned S m v value printed) : Ended S Γ σ m v true ⟨returnTo value S.stack, printed⟩
  | reached {v : Value} {a : Activation} {log : Log} {printed : List (List Val)}
      (h : Related S Γ log σ m a printed) : Ended S Γ σ m v false ⟨a :: S.stack, printed⟩

def StatementSim (S : Scene) (Γ Δ : Scope) (n : Node) : Prop :=
  ∀ ⦃log : Log⦄ ⦃σ σ' : State⦄ ⦃m m' : Machine⦄ ⦃v : Value⦄ ⦃returned : Bool⦄ ⦃a : Activation⦄
    ⦃printed : List (List Val)⦄, Related S Γ log σ m a printed →
    lowerStatement S.context n σ = .ok σ' → S.Emitted σ' →
    S.runBody [n] m = .ok ((v, returned), m') →
    Config.InRange S.program ⟨S.depth, S.args, .node n, m⟩ →
      ∃ x, Steps S.module ⟨a :: S.stack, printed⟩ x ∧ Ended S Δ σ' m' v returned x

def BodySim (S : Scene) (Γ : Scope) (ns : List Node) : Prop :=
  ∀ ⦃log : Log⦄ ⦃σ σ' : State⦄ ⦃m m' : Machine⦄ ⦃v : Value⦄ ⦃returned : Bool⦄ ⦃a : Activation⦄
    ⦃printed : List (List Val)⦄, Related S Γ log σ m a printed →
    lowerBody S.context ns σ = .ok σ' → S.Emitted σ' → S.runBody ns m = .ok ((v, returned), m') →
    Config.InRange S.program ⟨S.depth, S.args, .body ns, m⟩ →
      ∃ x, Steps S.module ⟨a :: S.stack, printed⟩ x ∧ Ended S Γ σ' m' v returned x

section

variable {S : Scene} {Γ Δ : Scope} {log : Log} {σ σ' : State} {m m' : Machine} {a : Activation}
  {printed : List (List Val)}

theorem Ended.weaken (hsub : Γ.Sublist Δ) {v : Value} {returned : Bool} {x : Execution}
    (h : Ended S Δ σ m v returned x) : Ended S Γ σ m v returned x := by
  cases h with
  | returned h => exact .returned h
  | reached h => exact .reached (h.weaken hsub)

/-- **A body is executed statement by statement**, as it is run. -/
theorem BodySim.cons (hsub : Γ.Sublist Δ) {n : Node} {rest : List Node}
    (hn : StatementSim S Γ Δ n) (hrest : BodySim S Δ rest) : BodySim S Γ (n :: rest) := by
  intro log σ σ' m m' v returned a printed h hlower hemitted hrun hrange
  obtain ⟨σ₁, hstatement, hended, hothers⟩ := lowerBody_cons hlower
  have hfirst := lowerStatement_follows S.context n σ σ₁ h.isOpen hstatement
  have hemitted₁ : S.Emitted σ₁ := by
    cases hcase : σ₁.isTerminated with
    | true => exact hended hcase ▸ hemitted
    | false =>
        have hopen := State.open_of_not_terminated hfirst.inRange hcase
        exact hemitted.of_grows (lowerBody_follows hopen (hothers hcase)).toGrows
  rw [Scene.runBody, runBody_cons] at hrun
  split at hrun
  · cases hrun
  · rename_i v₁ m₁ hsingle
    cases hrun
    obtain ⟨x, hsteps, hended⟩ := hn h hstatement hemitted₁ hsingle (hrange.needs .first)
    cases hended with
    | returned h => exact ⟨_, hsteps, .returned h⟩
  · rename_i v₁ m₁ hsingle
    obtain ⟨x, hsteps, hended⟩ := hn h hstatement hemitted₁ hsingle (hrange.needs .first)
    cases hended with
    | reached h₁ =>
        obtain ⟨y, hsteps', hended'⟩ := hrest h₁ (hothers h₁.isOpen.isTerminated_eq) hemitted hrun
          (hrange.needs (.rest hsingle))
        exact ⟨y, hsteps.trans hsteps', hended'.weaken hsub⟩

/-- A statement other than an `if` is evaluated and logged. -/
theorem Scene.runBody_single {n : Node} (hn : ∀ t c body, n ≠ .cond t c body) {v : Value}
    {returned : Bool} (h : S.runBody [n] m = .ok ((v, returned), m')) :
    ∃ u m₁, S.eval n m = .ok (u, m₁) ∧ returned = n.isReturn ∧ m' = m₁.record n u ∧
      (returned = true → v = u) := by
  rw [Scene.runBody, Run.runBody_single _ _ _ _ _ hn] at h
  split at h
  · cases h
  rename_i u m₁ heval
  cases h
  exact ⟨u, m₁, heval, rfl, rfl, fun hret => if_pos hret⟩

theorem statementSim_expr {n : Node} {t : Swiftlet.Ty} (hn : ValueSim S Γ n t) {P : Token → Prop}
    (hexpr : n.IsExpr P) : StatementSim S Γ Γ n := by
  intro log σ σ' m m' v returned a printed h hlower hemitted hrun hrange
  rw [lowerStatement_expr hexpr] at hlower
  cases hvalue : lowerValue S.context n σ with
  | error e =>
      rw [hvalue] at hlower
      cases hlower
  | ok r =>
  rw [hvalue] at hlower
  cases hlower
  obtain ⟨u, m₁, heval, rfl, rfl, -⟩ := Scene.runBody_single (by cases hexpr <;> simp) hrun
  obtain ⟨a', printed', hsteps, -, hrelated, -⟩ := hn h hvalue hemitted heval (.inr hrange)
  have hreturn : n.isReturn = false := by cases hexpr <;> rfl
  rw [hreturn]
  exact ⟨_, hsteps, .reached (hrelated.record (by cases hexpr <;> simp) u)⟩

/-- A variable gets its slot, and the slot its value. -/
theorem Related.bind (h : Related S Γ log σ m a printed) (hS : S.Valid) {o : Operand} {w : Val}
    {t : Swiftlet.Ty} {v : Value} (hrep : Represents S.module t v w) (hstable : Stable σ a o w)
    (htype : o.type = Ty.of t) {d : Decl}
    (hnew : d.name.lexeme ∉ namesOf S.signature.params ++ Γ.names)
    (hemitted : S.Emitted (σ.bind d.name.lexeme o)) (n : Node) :
    ∃ a', Steps S.module ⟨a :: S.stack, printed⟩ ⟨a' :: S.stack, printed⟩ ∧
      Related S ((d.name.lexeme, t) :: Γ) ((.assign d n, v) :: log) (σ.bind d.name.lexeme o)
        (m.record (.assign d n) v) a' printed := by
  have hnot : ¬σ.Has σ.site := σ.not_has_site
  have halloca := emit_straight (c := S.context) h.isOpen (.alloca o.type)
  have hstore := emit_straight (c := S.context) halloca.isOpen (.store o σ.site)
  -- The slot is made.
  have hkeeps₁ : Keeps σ a (a.fill a.site none).next := .fill (h.site ▸ hnot) none
  have hsite₁ : (a.fill a.site none).next.site = (σ.emit (.alloca o.type)).2.site :=
    next_site h.isOpen h.site
  have hsteps₁ : Steps S.module ⟨a :: S.stack, printed⟩
      ⟨(a.fill a.site none).next :: S.stack, printed⟩ :=
    .of_emit h.isOpen (h.running hS) (hstore.blocks.trans hemitted.blocks) h.site rfl
  generalize hfirst : (a.fill a.site none).next = a₁ at hkeeps₁ hsite₁ hsteps₁
  have hslot : a₁.slots σ.site = some none := by
    rw [← hfirst]
    exact if_pos h.site.symm
  -- It is filled.
  have hx : execute S.module a₁ S.stack printed (.store o σ.site) =
      some ⟨(a₁.fill σ.site (some w)).next :: S.stack, printed⟩ := by
    simp only [execute, hstable a₁ hkeeps₁, hslot]
  have hf₁ : S.module.functions[a₁.function]? = some S.function := by
    rw [hkeeps₁.function, h.running hS]
  have hsteps₂ := Steps.of_emit halloca.isOpen hf₁ hemitted.blocks hsite₁ hx
  have hkeeps : Keeps σ a (a₁.fill σ.site (some w)).next :=
    hkeeps₁.trans (.refl _) (.fill hnot (some w))
  refine ⟨_, hsteps₁.trans hsteps₂, ?_⟩
  rw [List.mem_append, not_or] at hnew
  exact
    { isOpen := hstore.isOpen
      declarations := h.declarations
      nodup := nodup_params_cons.2 ⟨hnew.1, hnew.2, h.nodup⟩
      still := h.still.record _ v
      function := hkeeps.function.trans h.function
      site := next_site halloca.isOpen hsite₁
      params := by
        rw [hkeeps.args]
        exact h.params
      vars := by
        intro y u hy
        rcases List.mem_cons.1 hy with heq | hy
        · cases heq
          refine ⟨v, σ.site, w, if_pos rfl, ?_, (emit_has h.isOpen).grow hstore.blocks, if_pos rfl,
            hrep⟩
          rw [State.bind, lookup_cons_of_new, if_pos rfl, htype]
        · have hne : y ≠ d.name.lexeme := by
            rintro rfl
            exact hnew.2 (List.mem_map.2 ⟨_, hy, rfl⟩)
          obtain ⟨v', site, w', hv', hlookup, hhas, hslot', hrep'⟩ := h.vars y u hy
          refine ⟨v', site, w', ?_, ?_, hhas.grow (halloca.trans hstore).blocks,
            (hkeeps.slots site hhas).trans hslot', hrep'⟩
          · rw [latestBinding?, if_neg (Ne.symm hne), hv']
          · rw [State.bind, lookup_cons_of_new, if_neg hne]
            exact hlookup
      printed := h.printed }

theorem statementSim_assign (hS : S.Valid) {d : Decl} {n : Node} {t : Swiftlet.Ty}
    (ht : HasType S.program S.signature Γ n t) {P : Token → Prop} (hexpr : n.IsExpr P)
    (hn : ValueSim S Γ n t) (hvoid : t ≠ .void)
    (hnew : d.name.lexeme ∉ namesOf S.signature.params ++ Γ.names) :
    StatementSim S Γ ((d.name.lexeme, t) :: Γ) (.assign d n) := by
  intro log σ σ' m m' v returned a printed h hlower hemitted hrun hrange
  rw [lowerStatement_assign] at hlower
  cases hvalue : lowerValue S.context n σ with
  | error e =>
      rw [hvalue] at hlower
      cases hlower
  | ok r =>
  obtain ⟨o, σ₁⟩ := r
  rw [hvalue] at hlower
  cases hlower
  have hstraight := lowerValue_straight n h.isOpen hvalue
  obtain ⟨u, m₁, heval, rfl, rfl, -⟩ := Scene.runBody_single (by simp) hrun
  have halloca := emit_straight (c := S.context) hstraight.isOpen (.alloca o.type)
  have hstore := halloca.trans (emit_straight halloca.isOpen (.store o σ₁.site))
  have hemitted₁ : S.Emitted σ₁ :=
    ⟨hstore.blocks.trans hemitted.blocks, hemitted.later⟩
  obtain ⟨a₁, printed₁, hsteps₁, -, h₁, hvalue₁⟩ := hn h hvalue hemitted₁ heval
    (.inr (hrange.needs .assign))
  obtain ⟨w, hrep, hstable⟩ := hvalue₁ hvoid
  obtain ⟨a₂, hsteps₂, h₂⟩ := h₁.bind hS hrep hstable (h.operand_type hS ht hexpr hvalue) hnew
    hemitted n
  exact ⟨_, hsteps₁.trans hsteps₂, .reached h₂⟩

/-- A return is executed. -/
theorem Related.ret (h : Related S Γ log σ m a printed) (hS : S.Valid) {value : Option Operand}
    {u : Option Val} (hemitted : S.Emitted (σ.terminate (.ret value)))
    (hx : transfer S.function.ret a S.stack printed (.ret value) =
      some ⟨returnTo u S.stack, printed⟩) :
    Steps S.module ⟨a :: S.stack, printed⟩ ⟨returnTo u S.stack, printed⟩ :=
  .of_terminate h.isOpen (h.running hS) hemitted.blocks h.site hx

theorem statementSim_ret (hS : S.Valid) {token : Token} {n : Node} {t : Swiftlet.Ty}
    (ht : HasType S.program S.signature Γ n t) (hret : S.signature.ret = some t)
    {P : Token → Prop} (hexpr : n.IsExpr P) (hn : ValueSim S Γ n t) :
    StatementSim S Γ Γ (.ret token n) := by
  intro log σ σ' m m' v returned a printed h hlower hemitted hrun hrange
  rw [lowerStatement] at hlower
  split at hlower
  · cases hlower
  rename_i o σ₁ hvalue
  cases hlower
  have hstraight := lowerValue_straight n h.isOpen hvalue
  have htype := h.operand_type hS ht hexpr hvalue
  obtain ⟨u, m₁, heval, rfl, rfl, hv⟩ := Scene.runBody_single (by simp) hrun
  obtain rfl := hv rfl
  obtain ⟨a₁, printed₁, hsteps₁, -, h₁, hvalue₁⟩ := hn h hvalue
    (hemitted.of_grows (c := S.context) (terminate_follows hstraight.isOpen _).toGrows) heval
    (.inr (hrange.needs .ret))
  have hfret : S.function.ret = Ty.of t := hS.ret t hret
  have hstill : ∃ log, MachineStill (S.still log :: S.callers) (m₁.record (.ret token n) v) :=
    ⟨_, h₁.still.record _ _⟩
  by_cases hvoid : t = .void
  · subst hvoid
    rw [htype, if_pos (.inl rfl)] at hemitted
    refine ⟨_, hsteps₁.trans (h₁.ret hS (u := none) hemitted (by simp [transfer, hfret, Ty.of])),
      .returned ⟨hstill, h₁.printed, ?_⟩⟩
    intro t' ht' hvoid'
    rw [hret, Option.some.injEq] at ht'
    exact absurd ht'.symm hvoid'
  · obtain ⟨w, hrep, hstable⟩ := hvalue₁ hvoid
    have hne : ¬(o.type = .void ∨ S.context.ret = .void) := by
      rw [htype, show S.context.ret = Ty.of t from hfret, or_self, Ty.of_eq_void]
      exact hvoid
    rw [if_neg hne] at hemitted
    refine ⟨_, hsteps₁.trans (h₁.ret hS (u := some w) hemitted ?_),
      .returned ⟨hstill, h₁.printed, ?_⟩⟩
    · simp only [transfer, hstable.eval, hrep.type_eq, hfret, if_true]
    · intro t' ht' _
      rw [hret, Option.some.injEq] at ht'
      subst ht'
      exact ⟨w, rfl, hrep⟩

/-- A value as `printf` takes it. -/
theorem Related.widen (h : Related S Γ log σ m a printed) (hS : S.Valid) {o : Operand} {w : Val}
    {t : Swiftlet.Ty} {v : Value} (hrep : Represents S.module t v w) (hstable : Stable σ a o w)
    (htype : o.type = Ty.of t) (hemitted : S.Emitted (σ.widen o).2) :
    ∃ a' w', Steps S.module ⟨a :: S.stack, printed⟩ ⟨a' :: S.stack, printed⟩ ∧
      Related S Γ log (σ.widen o).2 m a' printed ∧ HandedAs S.module v w' ∧
      Stable (σ.widen o).2 a' (σ.widen o).1 w' := by
  by_cases hbool : t = .bool
  · subst hbool
    cases hrep with
    | bool b =>
    have htype : o.type = .i1 := htype
    rw [State.widen, if_pos htype] at hemitted ⊢
    have hx : execute S.module a S.stack printed (.zext o) =
        some ⟨(a.define (.i32 (if b then 1 else 0))).next :: S.stack, printed⟩ := by
      simp only [execute, hstable.eval]
    obtain ⟨hsteps, -, hrelated, hstable'⟩ := h.define hS hemitted hx .i32
    exact ⟨_, _, hsteps, hrelated, .bool b, hstable'⟩
  · have hne : ¬o.type = .i1 := by
      rw [htype]
      cases t <;> simp_all [Ty.of]
    rw [State.widen, if_neg hne]
    refine ⟨a, w, .refl, h, ?_, hstable⟩
    cases hrep with
    | int v => exact .int v
    | float v => exact .float v
    | bool v => exact absurd rfl hbool
    | string hholds => exact .string hholds

theorem write_values {s s' : Sink} {v : Value} (h : s.write v = some s') :
    s'.values = v :: s.values := by
  unfold Sink.write at h
  split at h <;> cases h <;> rfl

/-- How a `print` is evaluated: its value is written. -/
theorem Scene.eval_print {token : Token} {n : Node} {more : List Node} {u : Value}
    (h : S.eval (.print token (n :: more)) m = .ok (u, m')) :
    ∃ x m₁ sink, S.eval n m = .ok (x, m₁) ∧ sink.values = x :: m₁.sink.values ∧
      m' = { m₁ with sink := sink } := by
  simp only [Scene.eval, Run.eval] at h
  split at h
  · cases h
  rename_i x m₁ hx
  unfold emit at h
  split at h
  · split at h
    · rename_i sink hsink
      cases h
      exact ⟨x, m₁, sink, hx, write_values hsink, rfl⟩
    · cases h
  · cases h

theorem statementSim_print (hS : S.Valid) {token : Token} {n : Node} {more : List Node}
    {t : Swiftlet.Ty} (ht : HasType S.program S.signature Γ n t) (hvoid : t ≠ .void)
    {P : Token → Prop} (hexpr : n.IsExpr P) (hn : ValueSim S Γ n t) :
    StatementSim S Γ Γ (.print token (n :: more)) := by
  intro log σ σ' m m' v returned a printed h hlower hemitted hrun hrange
  rw [lowerStatement] at hlower
  split at hlower
  · cases hlower
  rename_i o σ₁ hvalue
  have hstraight := lowerValue_straight n h.isOpen hvalue
  have htype := h.operand_type hS ht hexpr hvalue
  obtain ⟨name, text, hformat⟩ := format?_of_ne_void hvoid
  rw [lowerPrint_eq token σ₁ (by rw [htype]; exact hformat)] at hlower
  cases hlower
  have hwiden := widen_straight (c := S.context) (v := o) hstraight.isOpen
  have hconstant := constant_straight (c := S.context) hwiden.isOpen name (text ++ [0])
  have hcall := emit_straight (c := S.context) hconstant.isOpen
    (.call 0 .i32 [((σ₁.widen o).2.constant name (text ++ [0])).1, (σ₁.widen o).1])
  have hemitted₃ := hemitted.of_grows hcall.toGrows
  have hemitted₂ := hemitted₃.of_grows hconstant.toGrows
  obtain ⟨u, m₁, heval, rfl, rfl, -⟩ := Scene.runBody_single (by simp) hrun
  obtain ⟨x, m₂, sink, hx, hsink, rfl⟩ := Scene.eval_print heval
  obtain ⟨a₁, printed₁, hsteps₁, -, h₁, hvalue₁⟩ := hn h hvalue (hemitted₂.of_grows hwiden.toGrows)
    hx (.inr (hrange.needs .printed))
  obtain ⟨w, hrep, hstable⟩ := hvalue₁ hvoid
  obtain ⟨a₂, w', hsteps₂, h₂, hhanded, hstable₂⟩ := h₁.widen hS hrep hstable htype hemitted₂
  obtain ⟨h₃, g, hholds, hg⟩ := h₂.constant name (text ++ [0]) hemitted₃
  have hx : execute S.module a₂ S.stack printed₁
      (.call 0 .i32 [((σ₁.widen o).2.constant name (text ++ [0])).1, (σ₁.widen o).1]) =
        some ⟨a₂.next :: S.stack, [.pointer g, w'] :: printed₁⟩ := by
    simp [execute, hS.declarations.printf, hg, hstable₂.eval]
  have hsteps₃ := Steps.of_emit h₃.isOpen (h₃.running hS) hemitted.blocks h₃.site hx
  have hprinted : List.Forall₂ (PrintedAs S.module) sink.values ([.pointer g, w'] :: printed₁) := by
    rw [hsink]
    exact .cons ⟨t, name, text, g, w', hrep.type?, hformat, hholds, hhanded, rfl⟩ h₃.printed
  have hstill : MachineStill (S.still log :: S.callers) { m₂ with sink := sink } := h₃.still
  have h₄ := h₃.advance (c := S.context) ⟨rfl, rfl⟩ hcall (Keeps.resume h₃.site none)
    (next_site h₃.isOpen h₃.site) hstill hprinted
  exact ⟨_, (hsteps₁.trans hsteps₂).trans hsteps₃, .reached (h₄.record (by simp) _)⟩

/-- The execution goes on in a block that is still empty. -/
theorem Related.goto (h : Related S Γ log σ m a printed) (hopen : σ'.Open)
    (hdeclarations : Declarations S.entry S.program σ'.functions) (hkept : LocalsKept Γ σ σ')
    (hgrow : BlocksGrow σ.blocks σ'.blocks) {target : Nat} (hsite : σ'.site = ⟨target, 0⟩) :
    Related S Γ log σ' m (a.jump target) printed where
  isOpen := hopen
  declarations := hdeclarations
  nodup := h.nodup
  still := h.still
  function := h.function
  site := hsite.symm
  params := h.params
  vars := by
    intro x t hx
    obtain ⟨v, site, w, hv, hlookup, hhas, hslot, hrep⟩ := h.vars x t hx
    refine ⟨v, site, w, hv, ?_, hhas.grow hgrow, hslot, hrep⟩
    rw [hkept x (List.mem_map.2 ⟨_, hx, rfl⟩), hlookup]
  printed := h.printed

/-- An `if` whose condition holds is what its body is. -/
theorem Scene.runBody_cond {token : Token} {c : Node} {body : List Node} {v : Value}
    {returned : Bool} (h : S.runBody [.cond token c body] m = .ok ((v, returned), m')) :
    ∃ b m₁, S.eval c m = .ok (.bool b, m₁) ∧
      (b = false ∧ returned = false ∧ m' = m₁.record (.cond token c body) .void ∨
        b = true ∧ ∃ u m₂, S.runBody body m₁ = .ok ((u, returned), m₂) ∧
          m' = m₂.record (.cond token c body) u ∧ (returned = true → v = u)) := by
  rw [Scene.runBody, Run.runBody_cond, branch] at h
  cases heval : S.eval c m with
  | error e =>
      rw [Scene.eval] at heval
      rw [heval] at h
      cases h
  | ok r =>
      obtain ⟨u, m₁⟩ := r
      rw [Scene.eval] at heval
      rw [heval] at h
      cases u with
      | bool b =>
          refine ⟨b, m₁, rfl, ?_⟩
          cases b with
          | false =>
              cases h
              exact .inl ⟨rfl, rfl, rfl⟩
          | true =>
              refine .inr ⟨rfl, ?_⟩
              simp only at h
              split at h
              · cases h
              · rename_i hbody
                cases h
                exact ⟨_, _, hbody, rfl, fun _ => rfl⟩
              · rename_i hbody
                cases h
                exact ⟨_, _, hbody, rfl, by simp⟩
      | _ => cases h

theorem Returned.record {v : Value} {value : Option Val} (h : Returned S m v value printed) (n : Node)
    (u : Value) : Returned S (m.record n u) v value printed := by
  obtain ⟨log, hstill⟩ := h.still
  exact ⟨⟨_, hstill.record n u⟩, h.printed, h.value⟩

/-- The branch at the start of an `if`. -/
theorem Related.condBr (h : Related S Γ log σ m a printed) (hS : S.Valid) {o : Operand} {b : Bool}
    (hstable : Stable σ a o (.i1 b)) (hblocks : BlocksGrow (σ.branch o).blocks S.function.blocks) :
    Steps S.module ⟨a :: S.stack, printed⟩
      ⟨a.jump (if b then σ.blocks.length else σ.blocks.length + 1) :: S.stack, printed⟩ :=
  .of_terminate h.isOpen (h.running hS) ((branch_blocks σ o).trans hblocks) h.site
    (by simp only [transfer, hstable.eval])

/-- The jump at the end of an `if`'s block. -/
theorem Related.br (h : Related S Γ log σ m a printed) (hS : S.Valid) {merge : Nat}
    (hblocks : BlocksGrow (σ.join merge).blocks S.function.blocks) :
    Steps S.module ⟨a :: S.stack, printed⟩ ⟨a.jump merge :: S.stack, printed⟩ := by
  rw [State.join, h.isOpen.isTerminated_eq] at hblocks
  exact .of_terminate h.isOpen (h.running hS) hblocks h.site rfl

theorem statementSim_cond (hS : S.Valid) {token : Token} {c : Node} {body : List Node}
    (hc : ValueSim S Γ c .bool) (htyped : BodyTyped S.program S.signature Γ body body)
    {P : Token → Prop} (hshape : ∀ n ∈ body, n.IsStatement P) (hbody : BodySim S Γ body) :
    StatementSim S Γ Γ (.cond token c body) := by
  intro log σ σ' m m' v returned a printed h hlower hemitted hrun hrange
  obtain ⟨o, σ₁, σ₂, hvalue, hinner, rfl⟩ := lowerStatement_cond hlower
  have hstraight := lowerValue_straight c h.isOpen hvalue
  obtain ⟨hopen, hthen⟩ := branch_open σ₁ o
  have hfollows := lowerBody_follows hopen hinner
  obtain ⟨hjoin, hmerge⟩ := join_follows hstraight.isOpen hfollows.toGrows hfollows.inRange
  obtain ⟨hglobals, hfunctions, hlocals⟩ := join_shared σ₂ (σ₁.blocks.length + 1)
  have hjoined := join_blocks hfollows.inRange (σ₁.blocks.length + 1)
  have hemitted₂ : S.Emitted σ₂ := by
    have hlater := hemitted.later
    rw [State.shared, hglobals, hfunctions] at hlater
    exact ⟨hjoined.trans hemitted.blocks, hlater⟩
  -- The condition is evaluated.
  obtain ⟨b, m₁, heval, hcases⟩ := Scene.runBody_cond hrun
  obtain ⟨a₁, printed₁, hsteps₁, -, h₁, hvalue₁⟩ := hc h hvalue (hemitted.of_grows hjoin.toGrows)
    heval (.inr (hrange.needs .condition))
  obtain ⟨w, hrep, hstable⟩ := hvalue₁ (by simp)
  cases hrep
  have hsteps₂ := hsteps₁.trans (h₁.condBr hS hstable (hfollows.blocks.trans hemitted₂.blocks))
  have hdeclarations := h₁.declarations.added hjoin.functions
  rcases hcases with ⟨rfl, rfl, rfl⟩ | ⟨rfl, u, m₂, hrun', rfl, hv⟩
  · -- The code of the body is passed over; it has not changed where variables are.
    obtain ⟨σ₂', hinner', hkept⟩ := lowerBody_ok hS.toEmittable S.function.ret hS.params htyped hshape
      h.nodup (σ₁.branch o) hopen h₁.declarations h₁.localsFit
    rw [← Scene.context, hinner, Except.ok.injEq] at hinner'
    subst hinner'
    have hkept : LocalsKept Γ σ₁ (σ₂.join (σ₁.blocks.length + 1)) := fun x hx => by
      rw [hlocals, hkept x hx]
      rfl
    have h₂ := h₁.goto hjoin.isOpen hdeclarations hkept hjoin.blocks hmerge
    exact ⟨_, hsteps₂, .reached (h₂.record (by simp) _)⟩
  · have hgrows : Grows S.context σ₁ (σ₁.branch o) := branch_grows hstraight.isOpen o
    have h₂ : Related S Γ log (σ₁.branch o) m₁ (a₁.jump σ₁.blocks.length) printed₁ :=
      h₁.goto hopen h₁.declarations (fun _ _ => rfl) hgrows.blocks hthen
    obtain ⟨x, hsteps₃, hended⟩ := hbody h₂ hinner hemitted₂ hrun' (hrange.needs (.branch heval))
    cases hended with
    | returned hreturned =>
        rw [hv rfl]
        exact ⟨_, hsteps₂.trans hsteps₃, .returned (hreturned.record _ _)⟩
    | reached h₃ =>
        have h₄ := h₃.goto hjoin.isOpen hdeclarations (fun x _ => by rw [hlocals]) hjoined hmerge
        exact ⟨_, (hsteps₂.trans hsteps₃).trans (h₃.br hS hemitted.blocks),
          .reached (h₄.record (by simp) _)⟩

/-- **The code of a body does what a run does.** -/
theorem body_sim (hS : S.Valid) (hcalls : ∀ k, S.depth = k + 1 → CallSim k) {ns ns' : List Node}
    (h : BodyTyped S.program S.signature Γ ns ns') {P : Token → Prop}
    (hshape : ∀ n ∈ ns', n.IsStatement P) (hplain : ∀ a ∈ argumentsIn ns', a.isPlain = true) :
    BodySim S Γ ns' := by
  induction h with
  | nil Γ =>
      intro log σ σ' m m' v returned a printed h hlower _ hrun _
      cases hlower
      rw [Scene.runBody, Run.runBody] at hrun
      cases hrun
      exact ⟨_, .refl, .reached h⟩
  | expr he _ ih =>
      rw [List.forall_mem_cons] at hshape
      rw [argumentsIn, List.forall_mem_append] at hplain
      have hexpr := he.isExpr hshape.1
      exact .cons (List.Sublist.refl _)
        (statementSim_expr (value_sim hS hcalls he hexpr hplain.1) hexpr) (ih hshape.2 hplain.2)
  | assign hv hvoid _ hnew _ ih =>
      rw [List.forall_mem_cons] at hshape
      rw [argumentsIn, Node.arguments, List.forall_mem_append] at hplain
      have hexpr := hshape.1.assign_value
      exact .cons (List.sublist_cons_self _ _)
        (statementSim_assign hS hv hexpr (value_sim hS hcalls hv hexpr hplain.1) hvoid hnew)
        (ih hshape.2 hplain.2)
  | @print Γ token a more t ns ns' ha hvoid _ ih =>
      rw [List.forall_mem_cons] at hshape
      rw [argumentsIn, Node.arguments, argumentsIn, List.forall_mem_append,
        List.forall_mem_append] at hplain
      have hexpr := hshape.1.print_args a List.mem_cons_self
      exact .cons (List.Sublist.refl _)
        (statementSim_print hS ha hvoid hexpr (value_sim hS hcalls ha hexpr hplain.1.1))
        (ih hshape.2 hplain.2)
  | ret _ hv hret _ ih =>
      rw [List.forall_mem_cons] at hshape
      rw [argumentsIn, Node.arguments, List.forall_mem_append] at hplain
      have hexpr := hshape.1.ret_value
      exact .cons (List.Sublist.refl _)
        (statementSim_ret hS hv hret hexpr (value_sim hS hcalls hv hexpr hplain.1))
        (ih hshape.2 hplain.2)
  | cond _ hc hbody _ ihb ih =>
      rw [List.forall_mem_cons] at hshape
      rw [argumentsIn, Node.arguments, List.forall_mem_append, List.forall_mem_append] at hplain
      obtain ⟨hexpr, hstatements⟩ := hshape.1.cond_parts
      exact .cons (List.Sublist.refl _)
        (statementSim_cond hS (value_sim hS hcalls hc hexpr hplain.1.1) hbody.resolved
          hstatements (ihb hstatements hplain.1.2))
        (ih hshape.2 hplain.2)

end

/-! ## Functions -/

theorem finish_of_open {σ : State} (hopen : σ.Open) : σ.finish true = σ.terminate (.ret none) := by
  rw [State.finish, hopen.isTerminated_eq]
  rfl

/-- A function, given that the functions it calls do what they do in a run. -/
theorem function_sim {k : Nat} (hcalls : ∀ k', k = k' + 1 → CallSim k') : CallSim k := by
  intro S body σ₀ σ₁ m m' v returned ws printed hS hk hmem hcode hstill hhanded hprinted hrange hrun
  subst hk
  obtain ⟨t, ht⟩ := Option.isSome_iff_exists.1 (hS.signatures _ hmem S.signature rfl).2.1
  have hfollows := lowerBody_follows σ₀.fresh_open hcode.lowered
  have hstart : Related S [] [] σ₀.fresh m (.enter S.number ws) printed :=
    { isOpen := σ₀.fresh_open
      declarations := hcode.declarations
      nodup := by simpa using hS.params_nodup hmem
      still := hstill
      function := rfl
      site := rfl
      params := hhanded
      vars := fun x t hx => nomatch hx
      printed := hprinted }
  have hemitted : S.Emitted σ₁ :=
    ⟨hcode.blocks ▸ State.finish_blocks hfollows.inRange _, hcode.later⟩
  obtain ⟨x, hsteps, hended⟩ := body_sim hS hcalls (hS.typed _ _ hmem) (hS.body_shape hmem)
    (fun a ha => hS.plain a (arguments_subset_argumentsIn hmem ha)) hstart hcode.lowered hemitted
    hrun hrange
  cases hended with
  | returned h => exact ⟨_, _, hsteps, h⟩
  | @reached a log printed' h =>
      -- The end of the body: only a function that returns nothing gets there.
      have hvoid : t = .void := by
        by_contra hne
        obtain ⟨n, hn, hreturn⟩ := hS.complete.returns _ _ hmem (by simpa [ht] using hne)
        have hended := hfollows.isTerminated
        rw [h.isOpen.isTerminated_eq, List.any_eq_true.2 ⟨n, hn, hreturn⟩] at hended
        cases hended
      subst hvoid
      have hblocks : S.function.blocks = (σ₁.terminate (.ret none)).blocks := by
        rw [hcode.blocks, ht, ← finish_of_open h.isOpen]
        rfl
      have hfret : S.function.ret = .void := hS.ret _ ht
      have hemitted' : S.Emitted (σ₁.terminate (.ret none)) := ⟨hblocks ▸ .refl _, hcode.later⟩
      refine ⟨none, printed', hsteps.trans (h.ret hS hemitted' (by simp [transfer, hfret])),
        ⟨⟨log, h.still⟩, h.printed, ?_⟩⟩
      intro t' ht' hne
      rw [ht, Option.some.injEq] at ht'
      exact absurd ht'.symm hne

/-- **A function does in the execution what it does in a run**, however deep calls may nest. -/
theorem callSim (k : Nat) : CallSim k := by
  induction k with
  | zero => exact function_sim fun k hk => by omega
  | succ k ih => exact function_sim fun k' hk' => Nat.succ.inj hk' ▸ ih

end IR

end Swiftlet
