import Swiftlet.Proofs.Run.Stepping
import Swiftlet.Proofs.Typing.Complete

/-!
# Runs of parsed programs

In a parsed program an `if` is always a statement. What is evaluated for a value, an argument above all,
is never one, and the statements of a body are only ever run for the body of a function.

* `Awaits` — what can be left to do where a result comes. Above what is left of a body there is another
  body or a call, but no operation, no `print` and no argument that is waited for.
* `State.IsParsed` — a state in the run of a parsed program.

Principal result: `State.IsParsed.step`.
-/

namespace Swiftlet

namespace Run

section

variable {P : Token → Prop} {program : List Node} {s s' : State} {ps : List Pending}

/-- What can be left to do where a result comes. If the flag is set, the result may be a returned one:
only bodies have such results. -/
inductive Awaits (P : Token → Prop) : Bool → List Pending → Prop where
  | nil {b : Bool} : Awaits P b []
  | leave {b : Bool} {ps : List Pending} (h : Awaits P false ps) : Awaits P b (.leave :: ps)
  | log {b : Bool} {n : Node} {rest : List Node} {ps : List Pending}
      (hrest : ∀ m ∈ rest, m.IsStatement P) (h : Awaits P true ps) : Awaits P b (.log n rest :: ps)
  | right {op : Token} {n : Node} {ps : List Pending} (hn : n.IsExpr P) (h : Awaits P false ps) :
      Awaits P false (.right op n :: ps)
  | operate {op : Token} {v : Value} {ps : List Pending} (h : Awaits P false ps) :
      Awaits P false (.operate op v :: ps)
  | emit {t : Token} {ps : List Pending} (h : Awaits P false ps) : Awaits P false (.emit t :: ps)
  | branch {t : Token} {body : List Node} {n : Node} {rest : List Node} {ps : List Pending}
      (hbody : ∀ m ∈ body, m.IsStatement P) (h : Awaits P true (.log n rest :: ps)) :
      Awaits P false (.branch t body :: .log n rest :: ps)
  | cache {x : Bytes} {callee : Activation} {ps : List Pending}
      (hcallee : ∀ n ∈ callee.actuals, n.IsExpr P) (h : Awaits P false ps) :
      Awaits P false (.cache x callee :: ps)

/-- Whether the result of a control may be a returned one. -/
def Control.mayReturn : Control → Bool
  | .exec _ => true
  | .result _ returned => returned
  | .eval _ | .failed _ => false

/-- What is evaluated is not an `if`, and what is run are statements. -/
def Control.IsParsed (P : Token → Prop) : Control → Prop
  | .eval n => n.IsStatement P ∧ ∀ t c body, n ≠ .cond t c body
  | .exec body => ∀ n ∈ body, n.IsStatement P
  | .result .. | .failed _ => True

/-- A state in the run of a parsed program. -/
structure State.IsParsed (P : Token → Prop) (s : State) : Prop where
  control : s.control.IsParsed P
  pending : Awaits P s.control.mayReturn s.pending
  active : ∀ n ∈ s.active.actuals, n.IsExpr P
  callers : ∀ a ∈ s.callers, ∀ n ∈ a.actuals, n.IsExpr P

/-- Where a returned result may come, any other may come too. -/
theorem Awaits.plain {b : Bool} (h : Awaits P b ps) : Awaits P false ps := by
  cases h with
  | nil => exact .nil
  | leave h => exact .leave h
  | log hrest h => exact .log hrest h
  | right hn h => exact .right hn h
  | operate h => exact .operate h
  | emit h => exact .emit h
  | branch hbody h => exact .branch hbody h
  | cache hcallee h => exact .cache hcallee h

theorem Control.isParsed_eval {n : Node} (h : n.IsExpr P) : (Control.eval n).IsParsed P := by
  refine ⟨.expr h, ?_⟩
  rintro t c body rfl
  cases h

theorem State.give_pop (s : State) (v : Value) : s.pop.give v = (s.give v).pop := by
  obtain ⟨c, active, callers, sink, ps⟩ := s
  cases callers <;> rfl

namespace State.IsParsed

theorem give (h : s.IsParsed P) (hps : Awaits P false s.pending) (v : Value) :
    (s.give v).IsParsed P :=
  ⟨trivial, hps, h.active, h.callers⟩

theorem fail (h : s.IsParsed P) (hps : Awaits P false s.pending) (e : Failure) :
    (s.fail e).IsParsed P :=
  ⟨trivial, hps, h.active, h.callers⟩

theorem lookup (h : s.IsParsed P) (name : Token) : (s.lookup name).IsParsed P := by
  have hps := h.pending.plain
  unfold State.lookup
  split
  · exact h.give hps _
  · split
    · rename_i i caller callers _ hcallers
      split
      · exact h.fail hps _
      · rename_i n hn
        have hothers := h.callers
        rw [hcallers, List.forall_mem_cons] at hothers
        exact ⟨Control.isParsed_eval (h.active n (List.mem_of_getElem? hn)), .cache h.active hps,
          hothers.1, hothers.2⟩
    · split
      · exact h.give hps _
      · exact h.fail hps _

theorem enter (h : s.IsParsed P) (sig : Signature) {body actuals : List Node}
    (hbody : ∀ n ∈ body, n.IsStatement P) (hactuals : ∀ n ∈ actuals, n.IsExpr P) :
    (s.enter sig body actuals).IsParsed P := by
  unfold State.enter
  split
  · exact h.fail h.pending.plain _
  · exact ⟨hbody, .leave h.pending.plain, hactuals, List.forall_mem_cons.2 ⟨h.active, h.callers⟩⟩

theorem eval (hprogram : ∀ n ∈ program, n.IsStatement P) (h : s.IsParsed P) {n : Node}
    (hcontrol : s.control = .eval n) : (s.eval program n).IsParsed P := by
  have hps := h.pending.plain
  obtain ⟨hn, hcond⟩ : n.IsStatement P ∧ ∀ t c body, n ≠ .cond t c body := by
    have hparsed := h.control
    rwa [hcontrol] at hparsed
  cases n with
  | int | float | string | bool => exact h.give hps _
  | decl | signature | func => exact h.fail hps _
  | ref name => exact h.lookup name
  | cond t c body => exact absurd rfl (hcond t c body)
  | assign d v => exact ⟨Control.isParsed_eval hn.assign_value, hps, h.active, h.callers⟩
  | ret t v => exact ⟨Control.isParsed_eval hn.ret_value, hps, h.active, h.callers⟩
  | binary l op r =>
      cases hn with
      | expr he =>
          cases he with
          | binary _ _ _ hl hr =>
              exact ⟨Control.isParsed_eval hl, .right hr hps, h.active, h.callers⟩
  | print t args =>
      cases args with
      | nil => exact h.fail hps _
      | cons a more =>
          exact ⟨Control.isParsed_eval (hn.print_args a List.mem_cons_self), .emit hps, h.active,
            h.callers⟩
  | call name args =>
      simp only [State.eval]
      split
      · exact h.fail hps _
      · rename_i sig body hfound
        have hbody := (hprogram _ (mem_of_findFunction? hfound).1).func_body
        cases hn with
        | expr he =>
            cases he with
            | call _ hargs => exact h.enter sig hbody hargs

theorem exec (h : s.IsParsed P) {body : List Node} (hcontrol : s.control = .exec body) :
    (s.exec body).IsParsed P := by
  obtain ⟨c, active, callers, sink, ps⟩ := s
  cases hcontrol
  obtain ⟨hbody, hps, hactive, hcallers⟩ := h
  cases body with
  | nil => exact ⟨trivial, hps.plain, hactive, hcallers⟩
  | cons n rest =>
      obtain ⟨hn, hrest⟩ := List.forall_mem_cons.1 hbody
      by_cases hcond : ∃ t c body, n = .cond t c body
      · obtain ⟨t, c, body, rfl⟩ := hcond
        exact ⟨Control.isParsed_eval hn.cond_parts.1, .branch hn.cond_parts.2 (.log hrest hps),
          hactive, hcallers⟩
      · have hcond : ∀ t c body, n ≠ .cond t c body := fun t c body h => hcond ⟨t, c, body, h⟩
        rw [State.exec_cons hcond]
        exact ⟨⟨hn, hcond⟩, .log hrest hps, hactive, hcallers⟩

theorem pop (h : s.IsParsed P) : s.pop.IsParsed P := by
  obtain ⟨control, active, callers, sink, pending⟩ := s
  cases callers with
  | nil => exact h
  | cons caller callers =>
      obtain ⟨hcaller, hothers⟩ := List.forall_mem_cons.1 h.callers
      exact ⟨h.control, h.pending, hcaller, hothers⟩

theorem proceed (h : s.IsParsed P) {v : Value} {returned : Bool} {p : Pending}
    (hcontrol : s.control = .result v returned) (hpending : s.pending = p :: ps) :
    ({ s with pending := ps }.proceed v returned p).IsParsed P := by
  obtain ⟨c, active, callers, sink, pending⟩ := s
  cases hcontrol
  cases hpending
  obtain ⟨-, hps, hactive, hcallers⟩ := h
  cases hps with
  | leave hps =>
      rw [State.proceed, State.give_pop]
      exact pop ⟨trivial, hps, hactive, hcallers⟩
  | log hrest hps =>
      simp only [State.proceed]
      split
      · exact ⟨trivial, hps, hactive, hcallers⟩
      · exact ⟨hrest, hps, hactive, hcallers⟩
  | right hn hps => exact ⟨Control.isParsed_eval hn, .operate hps, hactive, hcallers⟩
  | operate hps =>
      simp only [State.proceed]
      split <;> exact ⟨trivial, hps, hactive, hcallers⟩
  | emit hps =>
      simp only [State.proceed]
      split
      · split <;> exact ⟨trivial, hps, hactive, hcallers⟩
      · exact ⟨trivial, hps, hactive, hcallers⟩
  | branch hbody hps =>
      simp only [State.proceed]
      split
      · exact ⟨hbody, hps, hactive, hcallers⟩
      · exact ⟨trivial, hps.plain, hactive, hcallers⟩
      · exact ⟨trivial, hps.plain, hactive, hcallers⟩
  | cache hcallee hps =>
      exact ⟨trivial, hps, hcallee, List.forall_mem_cons.2 ⟨hactive, hcallers⟩⟩

theorem unwind (h : s.IsParsed P) {e : Failure} {p : Pending} (hcontrol : s.control = .failed e)
    (hpending : s.pending = p :: ps) : ({ s with pending := ps }.unwind p).IsParsed P := by
  obtain ⟨c, active, callers, sink, pending⟩ := s
  cases hcontrol
  cases hpending
  obtain ⟨-, hps, hactive, hcallers⟩ := h
  cases hps with
  | leave hps => exact pop ⟨trivial, hps, hactive, hcallers⟩
  | log _ hps | right _ hps | operate hps | emit hps | branch _ hps =>
      exact ⟨trivial, hps.plain, hactive, hcallers⟩
  | cache hcallee hps =>
      exact ⟨trivial, hps, hcallee, List.forall_mem_cons.2 ⟨hactive, hcallers⟩⟩

/-- **A step of a parsed program leads from such a state to another.** -/
theorem step (hprogram : ∀ n ∈ program, n.IsStatement P) (h : s.IsParsed P)
    (hstep : step program s = .running s') : s'.IsParsed P := by
  unfold Run.step at hstep
  split at hstep
  · rename_i hcontrol
    cases hstep
    exact h.eval hprogram hcontrol
  · rename_i hcontrol
    cases hstep
    exact h.exec hcontrol
  · rename_i hcontrol hpending
    cases hstep
    exact h.proceed hcontrol hpending
  · cases hstep
  · rename_i hcontrol hpending
    cases hstep
    exact h.unwind hcontrol hpending
  · cases hstep

end State.IsParsed

end

end Run

end Swiftlet
