import Swiftlet.Proofs.Run.Arguments

/-!
# Completed statements

The report of a run has the log of the entry function. Much goes on between two statements of its body:
calls, calls of the entry function itself among them, and arguments that are evaluated back in its
frame.

* `State.completes?` — the statement that a step completes in the activation without callers, which is
  the one that the run began with; `completions` are those of so many steps.
* `State.bottom` — this activation, whatever else is going on.
* `Completes` — the steps from one state to another complete so many statements.

Principal results: `bottom_step`, that this activation logs what it completes and nothing else is logged
there, and `Completes.log_eq` for any number of steps.
-/

namespace Swiftlet

namespace Run

/-- The way to a statement: how many statements come behind it in its body, then the same of the `if`
that has this body, and so on to the body of the function. -/
abbrev Path := List Nat

/-- The path to the body that runs. -/
def path : List Pending → Path
  | .log _ rest :: ps => rest.length :: path ps
  | .leave :: _ | .cache .. :: _ | [] => []
  | _ :: ps => path ps

/-- A statement of the entry function that has been completed, and its value. -/
structure Completion where
  path : Path
  node : Node
  value : Value

namespace Completion

def statement (c : Completion) : Path × Node := (c.path, c.node)

/-- What is logged. -/
def entry (c : Completion) : Node × Value := (c.node, c.value)

end Completion

/-- The statement that the next step completes, if it is one of the activation without callers. -/
def State.completes? (s : State) : Option Completion :=
  match s.callers, s.control, s.pending with
  | [], .result v _, .log n rest :: ps => some ⟨rest.length :: path ps, n, v⟩
  | _, _, _ => none

/-- The statements that so many steps complete. -/
def completions (program : List Node) : Nat → Stage → List Completion
  | 0, _ => []
  | _ + 1, .ended _ => []
  | k + 1, .running s => s.completes?.toList ++ completions program k (step program s)

/-- The activation that a run began with. -/
def State.bottom (s : State) : Activation := s.callers.getLastD s.active

section

variable {program : List Node} {s s' : State}

theorem bottom_lookup (name : Token) : (s.lookup name).bottom = s.bottom := by
  unfold State.lookup
  split
  · rfl
  · split
    · rename_i i caller callers _ hcallers
      split
      · rfl
      · rw [State.bottom, State.bottom, hcallers, List.getLastD_cons]
    · split <;> rfl

theorem bottom_eval (n : Node) : (s.eval program n).bottom = s.bottom := by
  cases n with
  | ref name => exact bottom_lookup name
  | call name actuals =>
      simp only [State.eval]
      split
      · rfl
      · unfold State.enter
        split
        · rfl
        · exact List.getLastD_cons
  | print t args => cases args <;> rfl
  | _ => rfl

theorem bottom_exec (body : List Node) : (s.exec body).bottom = s.bottom := by
  unfold State.exec
  split <;> rfl

theorem bottom_pop (s : State) : s.pop.bottom = s.bottom := by
  obtain ⟨c, active, callers, sink, ps⟩ := s
  cases callers with
  | nil => rfl
  | cons caller callers => exact List.getLastD_cons.symm

theorem bottom_resume (a : Activation) (s : State) : (s.resume a).bottom = s.bottom :=
  List.getLastD_cons

theorem bottom_proceed {p : Pending} (hp : ∀ n rest, p ≠ .log n rest) (v : Value) (returned : Bool) :
    (s.proceed v returned p).bottom = s.bottom := by
  cases p with
  | log n rest => exact absurd rfl (hp n rest)
  | right | discard => rfl
  | operate | branch =>
      simp only [State.proceed]
      split <;> rfl
  | emit =>
      simp only [State.proceed]
      split
      · split <;> rfl
      · rfl
  | leave => exact bottom_pop s
  | cache name callee => exact bottom_resume _ s

theorem bottom_unwind (p : Pending) : (s.unwind p).bottom = s.bottom := by
  cases p with
  | leave => exact bottom_pop s
  | cache name callee => exact bottom_resume _ s
  | _ => rfl

theorem completes?_eq_none {p : Pending} {ps : List Pending} (hpending : s.pending = p :: ps)
    (hp : ∀ n rest, p ≠ .log n rest) : s.completes? = none := by
  unfold State.completes?
  split
  · rename_i v r n rest qs _ _ hlog
    cases hpending.symm.trans hlog
    exact absurd rfl (hp n rest)
  · rfl

/-- **The entry function's log has the completed statements and nothing else.** A step adds the
statement that it completes, if any. -/
theorem bottom_step (hstep : step program s = .running s') :
    s'.bottom.frame.log = s.completes?.toList.map Completion.entry ++ s.bottom.frame.log := by
  unfold step at hstep
  split at hstep
  · rename_i n hcontrol
    cases hstep
    simp [bottom_eval, State.completes?, hcontrol]
  · rename_i body hcontrol
    cases hstep
    simp [bottom_exec, State.completes?, hcontrol]
  · rename_i v returned p ps hcontrol hpending
    cases hstep
    by_cases hp : ∃ n rest, p = .log n rest
    · obtain ⟨n, rest, rfl⟩ := hp
      obtain ⟨c, active, callers, sink, pending⟩ := s
      cases hcontrol
      cases hpending
      simp only [State.proceed]
      -- where there are callers, it is not their log that the statement goes to
      cases callers <;> split <;> rfl
    · have hother : ∀ n rest, p ≠ .log n rest := fun n rest h => hp ⟨n, rest, h⟩
      rw [bottom_proceed hother, completes?_eq_none hpending hother]
      rfl
  · cases hstep
  · rename_i e p ps hcontrol hpending
    cases hstep
    rw [bottom_unwind]
    simp [State.completes?, hcontrol, State.bottom]
  · cases hstep

/-! ## Whole runs -/

/-- The steps from one state to another complete the statements `done`. -/
inductive Completes (program : List Node) : State → List Completion → State → Prop where
  | refl (s : State) : Completes program s [] s
  | step {s s₁ s' : State} {done : List Completion} (hstep : step program s = .running s₁)
      (h : Completes program s₁ done s') : Completes program s (s.completes?.toList ++ done) s'

theorem completes_of_running {k : Nat} (h : after program k (.running s) = .running s') :
    Completes program s (completions program k (.running s)) s' := by
  induction k generalizing s with
  | zero =>
      cases h
      exact .refl _
  | succ k ih =>
      rw [after] at h
      rw [completions]
      cases hstep : Run.step program s with
      | ended r =>
          rw [hstep, after_ended] at h
          cases h
      | running s₁ =>
          rw [hstep] at h
          exact .step hstep (ih h)

theorem completions_ended (program : List Node) (k : Nat) (r : Report) :
    completions program k (.ended r) = [] := by
  cases k <;> rfl

/-- A run ends where nothing is left to do. -/
theorem pending_of_ended {r : Report} (h : step program s = .ended r) : s.pending = [] := by
  unfold step at h
  split at h
  all_goals first | assumption | cases h

/-- The report is about the activation that the run began with. -/
theorem report_of_ended {r : Report} (hs : s.Balanced) (h : step program s = .ended r) :
    r.log = s.bottom.frame.log.reverse ∧ r.sink = s.sink ∧
      ∀ e, r.result = .error e ↔ s.control = .failed e := by
  have hcallers : s.callers = [] := by
    unfold State.Balanced State.callsInProgress State.argumentsInProgress at hs
    rw [pending_of_ended h] at hs
    exact List.eq_nil_of_length_eq_zero hs.symm
  have hbottom : s.bottom = s.active := by rw [State.bottom, hcallers]; rfl
  rw [hbottom]
  unfold step at h
  split at h
  all_goals cases h
  all_goals
    rename_i hcontrol _
    simp [State.report, hcontrol, eq_comm]

theorem completes_of_ended {k : Nat} {r : Report} (h : after program k (.running s) = .ended r) :
    ∃ s', Completes program s (completions program k (.running s)) s' ∧
      Run.step program s' = .ended r := by
  induction k generalizing s with
  | zero => cases h
  | succ k ih =>
      rw [after] at h
      rw [completions]
      cases hstep : Run.step program s with
      | ended r' =>
          rw [hstep, after_ended] at h
          cases h
          have hnone : s.completes? = none := by
            simp [State.completes?, pending_of_ended hstep]
          refine ⟨s, ?_, hstep⟩
          rw [hnone, completions_ended]
          exact .refl s
      | running s₁ =>
          rw [hstep] at h
          obtain ⟨s', hcompletes, hend⟩ := ih h
          exact ⟨s', .step hstep hcompletes, hend⟩

namespace Completes

variable {done : List Completion}

/-- **What has been completed has been logged.** -/
theorem log_eq (h : Completes program s done s') :
    s'.bottom.frame.log = (done.map Completion.entry).reverse ++ s.bottom.frame.log := by
  induction h with
  | refl => rfl
  | @step s s₁ s' done hstep _ ih =>
      rw [ih, bottom_step hstep]
      cases s.completes? <;> simp

theorem balanced (h : Completes program s done s') (hnested : s.IsNested) (hs : s.Balanced) :
    s'.Balanced := by
  induction h with
  | refl => exact hs
  | step hstep _ ih => exact ih (hnested.step hstep) ((move_of_step hnested hstep).balanced hs)

theorem failed {e : Failure} (h : Completes program s done s') (hs : s.control = .failed e) :
    s'.control = .failed e := by
  induction h with
  | refl => exact hs
  | step hstep _ ih => exact ih (failed_of_step hs hstep)

end Completes

end

end Run

end Swiftlet
