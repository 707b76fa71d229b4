import Swiftlet.Proofs.Run.Visits

/-!
# Running step by step

A machine with an explicit stack that makes one small step at a time. Nothing in it bounds the number
of steps: a call compares the depth of the running frame with `maxCallDepth`, and an argument is
evaluated in the frame of the caller, from where calls can be made again.

* `Activation` — a frame with the unevaluated arguments of its call and its depth.
* `State` — what is being evaluated, the running activation, the chain of its callers, the output, and
  what is left to do, innermost first. A callee that waits for an argument is part of what is left.
* `step` — the next stage of a state, a state or the report of the run; every state has one.
* `after` — the stage after a number of steps; `Steps` — from one stage to another in some number.
* `Comes` and `Reaches` — the steps from a state come to an outcome of evaluation, whatever is left to
  do then, in the same calls.
* `Linked` — each depth in a chain of activations is the number of activations behind it and at most
  `maxCallDepth`; `State.IsNested` says so of every chain in a state.

Principal results: `eval_reaches`, `runBody_reaches` and `enter_reaches`, that the steps come to what
evaluation comes to, `steps_run`, that they end with the report of the run, and `State.IsNested.step`.
-/

namespace Swiftlet

namespace Run

/-! ## The machine -/

/-- One active call: its frame, its arguments, which are not evaluated, and its depth. -/
structure Activation where
  frame : Frame
  actuals : List Node
  depth : Nat

inductive Control where
  | eval (n : Node)
  | exec (body : List Node)
  /-- The flag says whether a `return` was reached. -/
  | result (v : Value) (returned : Bool)
  | failed (e : Failure)

/-- What to do with a result. -/
inductive Pending where
  | right (op : Token) (operand : Node)
  | operate (op : Token) (left : Value)
  | emit (token : Token)
  | branch (token : Token) (body : List Node)
  /-- The result of an `if` that stands for a value. -/
  | discard
  /-- Log the statement `n`, then run the rest of its body. -/
  | log (n : Node) (rest : List Node)
  /-- Go back to the caller. -/
  | leave
  /-- Go back to a callee that reads its parameter `name`. -/
  | cache (name : Bytes) (callee : Activation)

structure State where
  control : Control
  active : Activation
  callers : List Activation
  sink : Sink
  pending : List Pending

/-- A run that goes on, or its report. -/
inductive Stage where
  | running (s : State)
  | ended (r : Report)

namespace State

def give (s : State) (v : Value) : State := { s with control := .result v false }

def fail (s : State) (e : Failure) : State := { s with control := .failed e }

/-- The caller's activation on top again. -/
def pop (s : State) : State :=
  match s.callers with
  | [] => s
  | a :: rest => { s with active := a, callers := rest }

/-- The activation `a` on top again. -/
def resume (a : Activation) (s : State) : State :=
  { s with active := a, callers := s.active :: s.callers }

/-- One more statement in the running frame's log. -/
def record (s : State) (n : Node) (v : Value) : State :=
  { s with active.frame.log := (n, v) :: s.active.frame.log }

/-- The value of a name, or the argument to evaluate in the caller's frame for it. -/
def lookup (name : Token) (s : State) : State :=
  match s.active.frame.cache.lookup name.lexeme with
  | some v => s.give v
  | none =>
    match s.active.frame.signature.paramIndex? name.lexeme, s.callers with
    | some i, caller :: callers =>
      match s.active.actuals[i]? with
      | none => s.fail (.breach (.missingArgument name.lexeme) name)
      | some n => ⟨.eval n, caller, callers, s.sink, .cache name.lexeme s.active :: s.pending⟩
    | _, _ =>
      match latestBinding? name.lexeme s.active.frame.log with
      | some v => s.give v
      | none => s.fail (.breach (.noValue name.lexeme) name)

/-- A new activation on top, unless there are too many. -/
def enter (sig : Signature) (body actuals : List Node) (s : State) : State :=
  if s.active.depth + 1 > maxCallDepth then s.fail .callDepth
  else ⟨.exec body, ⟨⟨sig, [], []⟩, actuals, s.active.depth + 1⟩, s.active :: s.callers, s.sink,
    .leave :: s.pending⟩

/-- The first step in the evaluation of a node. -/
def eval (program : List Node) (s : State) : Node → State
  | .int _ v => s.give (.int v)
  | .float _ v => s.give (.float v.toFloat)
  | .string _ v => s.give (.string v)
  | .bool _ v => s.give (.bool v)
  | .assign _ value => { s with control := .eval value }
  | .ret _ value => { s with control := .eval value }
  | .ref name => s.lookup name
  | .binary left op right => { s with control := .eval left, pending := .right op right :: s.pending }
  | .print token [] => s.fail (.breach .emptyPrint token)
  | .print token (arg :: _) => { s with control := .eval arg, pending := .emit token :: s.pending }
  | .call name actuals =>
    match findFunction? program name.lexeme with
    | none => s.fail (.breach (.noBody name.lexeme) name)
    | some (sig, body) => s.enter sig body actuals
  | .cond token condition body =>
    { s with control := .eval condition, pending := .branch token body :: .discard :: s.pending }
  | .decl d => s.fail (.breach (.notEvaluable (Node.decl d).kindName) d.name)
  | .signature sig => s.fail (.breach (.notEvaluable (Node.signature sig).kindName) sig.name)
  | .func sig body => s.fail (.breach (.notEvaluable (Node.func sig body).kindName) sig.name)

/-- The first step in a body. -/
def exec (s : State) : List Node → State
  | [] => s.give .void
  | .cond token condition body :: rest =>
    { s with
      control := .eval condition
      pending := .branch token body :: .log (.cond token condition body) rest :: s.pending }
  | n :: rest => { s with control := .eval n, pending := .log n rest :: s.pending }

/-- What is done with a result. -/
def proceed (s : State) (v : Value) (returned : Bool) : Pending → State
  | .right op operand =>
    { s with control := .eval operand, pending := .operate op v :: s.pending }
  | .operate op left =>
    match operate op left v with
    | .error e => s.fail e
    | .ok w => s.give w
  | .emit token =>
    if v.isValid then
      match s.sink.write v with
      | some sink => { s.give .void with sink := sink }
      | none => s.fail .write
    else s.fail (.breach .invalidPrint token)
  | .branch token body =>
    match v with
    | .bool true => { s with control := .exec body }
    | .bool false => s.give .void
    | v => s.fail (.breach (.condition v.kindName) token)
  | .discard => s.give v
  | .log n rest =>
    if returned || n.isReturn then { s.record n v with control := .result v true }
    else { s.record n v with control := .exec rest }
  | .leave => s.pop.give (if returned then v else .void)
  | .cache name callee =>
    (s.resume { callee with frame.cache := (name, v) :: callee.frame.cache }).give v

/-- What is done about a failure: the frames are left. -/
def unwind (s : State) : Pending → State
  | .leave => s.pop
  | .cache _ callee => s.resume callee
  | _ => s

/-- The report of a run that is over. -/
def report (s : State) (result : Except Failure Value) : Report :=
  ⟨result, s.sink, s.active.frame.log.reverse⟩

end State

/-- The next stage of a run. -/
def step (program : List Node) (s : State) : Stage :=
  match s.control, s.pending with
  | .eval n, _ => .running (s.eval program n)
  | .exec body, _ => .running (s.exec body)
  | .result v returned, p :: rest => .running ({ s with pending := rest }.proceed v returned p)
  | .result v _, [] => .ended (s.report (.ok v))
  | .failed _, p :: rest => .running ({ s with pending := rest }.unwind p)
  | .failed e, [] => .ended (s.report (.error e))

/-- The first stage of a run of the entry function. -/
def start (entry : Bytes) (program : List Node) (sink : Sink) : Stage :=
  match findFunction? program entry with
  | none => .ended ⟨.error (.breach (.noEntry entry) (Token.bare Pos.zero)), sink, []⟩
  | some (s, body) => .running ⟨.exec body, ⟨⟨s, [], []⟩, [], 0⟩, [], sink, []⟩

/-- The stage after a number of steps; a run that is over makes none. -/
def after (program : List Node) : Nat → Stage → Stage
  | 0, x => x
  | _ + 1, .ended r => .ended r
  | n + 1, .running s => after program n (step program s)

def Steps (program : List Node) (x y : Stage) : Prop := ∃ n, after program n x = y

@[simp] theorem after_ended (program : List Node) (n : Nat) (r : Report) :
    after program n (.ended r) = .ended r := by
  cases n <;> rfl

theorem after_add (program : List Node) (k n : Nat) (x : Stage) :
    after program (k + n) x = after program n (after program k x) := by
  induction k generalizing x with
  | zero => rw [Nat.zero_add, after]
  | succ k ih =>
      cases x with
      | ended r => simp
      | running s =>
          rw [Nat.succ_add, after, after]
          exact ih (step program s)

theorem Steps.trans {program : List Node} {x y z : Stage} (h : Steps program x y)
    (h' : Steps program y z) : Steps program x z := by
  obtain ⟨k, rfl⟩ := h
  obtain ⟨n, rfl⟩ := h'
  exact ⟨k + n, after_add program k n x⟩

theorem Steps.of_step {program : List Node} {s : State} {x y : Stage}
    (hstep : step program s = x) (h : Steps program x y) : Steps program (.running s) y := by
  obtain ⟨n, rfl⟩ := h
  exact ⟨n + 1, by rw [after, hstep]⟩

/-- What every step keeps is kept by any number of steps. -/
theorem after_keeps {program : List Node} {I : State → Prop}
    (hstep : ∀ s s', I s → step program s = .running s' → I s') {s s' : State} (h : I s) {n : Nat}
    (hafter : after program n (.running s) = .running s') : I s' := by
  induction n generalizing s with
  | zero =>
      cases hafter
      exact h
  | succ n ih =>
      rw [after] at hafter
      cases hnext : step program s with
      | ended r =>
          rw [hnext, after_ended] at hafter
          cases hafter
      | running next =>
          rw [hnext] at hafter
          exact ih (hstep s next h hnext) hafter

/-! ## Steps and evaluation -/

/-- What stays the same of an activation for as long as it lives. -/
def Activation.call (a : Activation) : List Node × Nat := (a.actuals, a.depth)

namespace State

/-- The machine of a state. -/
def machine (s : State) : Machine := ⟨s.active.frame, s.callers.map Activation.frame, s.sink⟩

def calls (s : State) : List (List Node × Nat) := (s.active :: s.callers).map Activation.call

end State

/-- The steps from a state come to the control `c` and the machine `m`, with `calls` in progress and
`ps` left to do. -/
def Comes (program : List Node) (s : State) (calls : List (List Node × Nat)) (ps : List Pending)
    (c : Control) (m : Machine) : Prop :=
  ∃ s', Steps program (.running s) (.running s') ∧ s'.control = c ∧ s'.pending = ps ∧
    s'.machine = m ∧ s'.calls = calls

/-- The value of a node is not one that is returned. -/
def plain (v : Value) : Value × Bool := (v, false)

/-- The steps from a state come to an outcome; `flag` says of its value whether it is returned. -/
def Reaches {α : Type} (program : List Node) (flag : α → Value × Bool) (s : State)
    (calls : List (List Node × Nat)) (ps : List Pending) : Outcome α → Prop
  | .ok (a, m) => Comes program s calls ps (.result (flag a).1 (flag a).2) m
  | .error (e, m) => Comes program s calls ps (.failed e) m

/-- Wherever `calls` are in progress, the evaluation of `n` comes to what `f` gives. -/
def Evaluates (program : List Node) (calls : List (List Node × Nat)) (n : Node) (f : Argument) :
    Prop :=
  ∀ s : State, s.calls = calls → Reaches program plain (s.eval program n) calls s.pending (f s.machine)

/-- Wherever `calls` are in progress, the body comes to what `g` gives. -/
def Executes (program : List Node) (calls : List (List Node × Nat)) (body : List Node)
    (g : Machine → Outcome (Value × Bool)) : Prop :=
  ∀ s : State, s.calls = calls → Reaches program id (s.exec body) calls s.pending (g s.machine)

/-- The arguments of the innermost call are evaluated where the other calls are in progress. -/
def Forces (program : List Node) : List (List Node × Nat) → List Argument → Prop
  | [], _ => False
  | (actuals, _) :: calls, args =>
    ∃ f : Node → Argument, args = actuals.map f ∧ ∀ n ∈ actuals, Evaluates program calls n (f n)

/-- One more call comes to what `enter` gives. -/
def Enters (program : List Node) (calls : List (List Node × Nat)) (enter : Enter) : Prop :=
  ∀ (s : State) (sig : Signature) (body actuals : List Node) (f : Node → Argument),
    s.calls = calls → (∀ n ∈ actuals, Evaluates program calls n (f n)) →
      Reaches program plain (s.enter sig body actuals) calls s.pending
        (enter sig body (actuals.map f) s.machine)

section

variable {program : List Node} {s s' : State} {calls : List (List Node × Nat)} {p : Pending}
  {ps : List Pending} {m : Machine} {α β : Type} {flag : α → Value × Bool} {flag' : β → Value × Bool}

theorem Comes.refl (hcalls : s.calls = calls) :
    Comes program s calls s.pending s.control s.machine :=
  ⟨s, ⟨0, rfl⟩, rfl, rfl, rfl, hcalls⟩

theorem Comes.of_step {c : Control} (hstep : step program s = .running s')
    (h : Comes program s' calls ps c m) : Comes program s calls ps c m := by
  obtain ⟨last, hsteps, hlast⟩ := h
  exact ⟨last, .of_step hstep hsteps, hlast⟩

/-- Steps one after the other. -/
theorem Comes.trans {c c' : Control} {m' : Machine} {calls' : List (List Node × Nat)}
    {ps' : List Pending} (h : Comes program s calls ps c m)
    (hnext : ∀ s', s'.control = c → s'.pending = ps → s'.machine = m → s'.calls = calls →
      Comes program s' calls' ps' c' m') : Comes program s calls' ps' c' m' := by
  obtain ⟨mid, hsteps, hc, hps, hm, hcalls⟩ := h
  obtain ⟨last, hsteps', hlast⟩ := hnext mid hc hps hm hcalls
  exact ⟨last, hsteps.trans hsteps', hlast⟩

theorem Comes.reaches {c : Control} {calls' : List (List Node × Nat)} {ps' : List Pending}
    {o : Outcome α} (h : Comes program s calls ps c m)
    (hnext : ∀ s', s'.control = c → s'.pending = ps → s'.machine = m → s'.calls = calls →
      Reaches program flag s' calls' ps' o) : Reaches program flag s calls' ps' o := by
  rcases o with ⟨e, m⟩ | ⟨a, m⟩
  · exact h.trans hnext
  · exact h.trans hnext

theorem Reaches.of_step {o : Outcome α} (hstep : step program s = .running s')
    (h : Reaches program flag s' calls ps o) : Reaches program flag s calls ps o := by
  rcases o with ⟨e, m⟩ | ⟨a, m⟩
  · exact Comes.of_step hstep h
  · exact Comes.of_step hstep h

theorem Evaluates.reaches {n : Node} {f : Argument} (h : Evaluates program calls n f)
    (hcontrol : s.control = .eval n) (hcalls : s.calls = calls) :
    Reaches program plain s calls s.pending (f s.machine) :=
  .of_step (by simp only [step, hcontrol]) (h s hcalls)

theorem Executes.reaches {body : List Node} {g : Machine → Outcome (Value × Bool)}
    (h : Executes program calls body g) (hcontrol : s.control = .exec body)
    (hcalls : s.calls = calls) :
    Reaches program id s calls s.pending (g s.machine) :=
  .of_step (by simp only [step, hcontrol]) (h s hcalls)

/-- What is left to do stays in the running frame. -/
def Pending.IsLocal : Pending → Prop
  | .leave | .cache .. => False
  | _ => True

theorem State.unwind_of_isLocal (hp : p.IsLocal) (s : State) : s.unwind p = s := by
  cases p with
  | leave | cache => cases hp
  | _ => rfl

/-- **What is left to do is done with the result**, and a failure passes by it. -/
theorem Reaches.bind {o : Outcome α} {o' : Outcome β}
    (h : Reaches program flag s calls (p :: ps) o) (hp : p.IsLocal)
    (herror : ∀ e, o = .error e → o' = .error e)
    (hok : ∀ (a : α) (s' : State), o = .ok (a, s'.machine) → s'.pending = ps → s'.calls = calls →
      Reaches program flag' (s'.proceed (flag a).1 (flag a).2 p) calls ps o') :
    Reaches program flag' s calls ps o' := by
  rcases o with ⟨e, m⟩ | ⟨a, m⟩
  · rw [herror _ rfl]
    refine Comes.reaches h fun s' hc hps hm hcalls => ?_
    have hstep : step program s' = .running { s' with pending := ps } := by
      simp only [step, hc, hps, State.unwind_of_isLocal hp]
    exact Comes.of_step hstep ⟨_, ⟨0, rfl⟩, hc, rfl, hm, hcalls⟩
  · refine Comes.reaches h fun s' hc hps hm hcalls => ?_
    subst hm
    have hstep : step program s' =
        .running ({ s' with pending := ps }.proceed (flag a).1 (flag a).2 p) := by
      simp only [step, hc, hps]
    exact .of_step hstep (hok a { s' with pending := ps } rfl rfl hcalls)

/-- A result on the spot. -/
theorem Reaches.give (hcalls : s.calls = calls) (v : Value) :
    Reaches program plain (s.give v) calls s.pending (.ok (v, s.machine)) :=
  Comes.refl (s := s.give v) hcalls

theorem Reaches.fail (hcalls : s.calls = calls) (e : Failure) :
    Reaches program flag (s.fail e) calls s.pending (.error (e, s.machine)) :=
  Comes.refl (s := s.fail e) hcalls

/-- An argument is evaluated in the frame of the caller, and the callee goes on with its value. -/
theorem forced_reaches {f : Argument} {n : Node} (hf : Evaluates program calls n f)
    {callee caller : Activation} {callers : List Activation}
    (hcalls : (caller :: callers).map Activation.call = calls) {name : Bytes} {sink : Sink} :
    Reaches program plain ⟨.eval n, caller, callers, sink, .cache name callee :: ps⟩
      (callee.call :: calls) ps
      (match f ⟨caller.frame, callers.map Activation.frame, sink⟩ with
        | .error (e, outer) => .error (e, outer.resume callee.frame)
        | .ok (v, outer) =>
          .ok (v, outer.resume { callee.frame with cache := (name, v) :: callee.frame.cache })) := by
  have harg : Reaches program plain ⟨.eval n, caller, callers, sink, .cache name callee :: ps⟩ calls
      (.cache name callee :: ps) (f ⟨caller.frame, callers.map Activation.frame, sink⟩) :=
    hf.reaches rfl hcalls
  generalize f ⟨caller.frame, callers.map Activation.frame, sink⟩ = o at harg ⊢
  rcases o with ⟨e, outer⟩ | ⟨v, outer⟩
  · refine Comes.reaches harg fun s' hc hps hm hcalls => ?_
    subst hm hcalls
    have hstep : step program s' = .running ({ s' with pending := ps }.resume callee) := by
      simp only [step, hc, hps, State.unwind]
    exact Comes.of_step hstep ⟨_, ⟨0, rfl⟩, hc, rfl, rfl, rfl⟩
  · refine Comes.reaches harg fun s' hc hps hm hcalls => ?_
    subst hm hcalls
    have hstep : step program s' = .running (({ s' with pending := ps }.resume
        { callee with frame.cache := (name, v) :: callee.frame.cache }).give v) := by
      simp only [step, hc, hps, State.proceed, plain]
    exact Comes.of_step hstep ⟨_, ⟨0, rfl⟩, rfl, rfl, rfl, rfl⟩

theorem lookup_reaches {args : List Argument} (hargs : Forces program s.calls args) (name : Token) :
    Reaches program plain (s.lookup name) s.calls s.pending (lookup args name s.machine) := by
  obtain ⟨c, ⟨⟨sig, known, log⟩, actuals, depth⟩, callers, sink, ps⟩ := s
  obtain ⟨f, rfl, hf⟩ := hargs
  simp only [State.lookup, lookup, State.machine]
  cases known.lookup name.lexeme with
  | some v => exact Reaches.give rfl v
  | none =>
      cases sig.paramIndex? name.lexeme with
      | none =>
          cases latestBinding? name.lexeme log with
          | some v => exact Reaches.give rfl v
          | none => exact Reaches.fail rfl _
      | some i =>
          cases callers with
          | nil =>
              cases latestBinding? name.lexeme log with
              | some v => exact Reaches.give rfl v
              | none => exact Reaches.fail rfl _
          | cons caller callers =>
              simp only [List.map_cons, List.getElem?_map]
              cases hn : actuals[i]? with
              | none => exact Reaches.fail rfl _
              | some n =>
                  exact forced_reaches (hf n (List.mem_of_getElem? hn)) rfl

theorem emit_reaches (hcalls : s.calls = calls) (token : Token) (v : Value) :
    Reaches program plain (s.proceed v false (.emit token)) calls s.pending
      (emit token v s.machine) := by
  simp only [State.proceed, emit, State.machine]
  cases v.isValid with
  | false => exact .fail hcalls _
  | true =>
      cases s.sink.write v with
      | none => exact .fail hcalls _
      | some sink => exact Comes.refl (s := { s.give .void with sink := sink }) hcalls

/-- A statement is logged, and the rest of its body follows if it does not return. -/
theorem log_reaches {rest : List Node} {g : Machine → Outcome (Value × Bool)}
    (hg : Executes program calls rest g) (hcalls : s.calls = calls) (n : Node) (v : Value)
    (returned : Bool) :
    Reaches program id (s.proceed v returned (.log n rest)) calls s.pending
      (if returned || n.isReturn then .ok ((v, true), s.machine.record n v)
        else g (s.machine.record n v)) := by
  simp only [State.proceed]
  split
  · exact Comes.refl (s := { s.record n v with control := .result v true }) hcalls
  · exact hg.reaches rfl hcalls

theorem State.exec_cons {n : Node} (hn : ∀ t c body, n ≠ .cond t c body) (rest : List Node)
    (s : State) :
    s.exec (n :: rest) = { s with control := .eval n, pending := .log n rest :: s.pending } := by
  rw [State.exec]
  exact hn

theorem branch_reaches {token : Token} {condition : Node} {f : Argument} {body : List Node}
    {g : Machine → Outcome (Value × Bool)} (hf : Evaluates program calls condition f)
    (hg : Executes program calls body g) (hcontrol : s.control = .eval condition)
    (hpending : s.pending = .branch token body :: ps) (hcalls : s.calls = calls) :
    Reaches program id s calls ps (branch token f g s.machine) := by
  have hcondition : Reaches program plain s calls (.branch token body :: ps) (f s.machine) :=
    hpending ▸ hf.reaches hcontrol hcalls
  unfold branch
  refine hcondition.bind trivial (fun e he => by simp only [he]) fun v s' hv hps hcalls' => ?_
  subst hps
  simp only [hv]
  cases v with
  | bool b =>
      cases b with
      | true => exact hg.reaches rfl hcalls'
      | false => exact Comes.refl (s := s'.give .void) hcalls'
  | _ => exact .fail hcalls' _

mutual

/-- **The steps of a node come to its value.** The recursion is on the syntax: the body of a function
that is called is left to `henter`, and the arguments of the call, which may be evaluated at any later
time, are parts of the node. -/
theorem eval_reaches {enter : Enter} {args : List Argument} (henter : Enters program calls enter)
    (hargs : Forces program calls args) (n : Node) :
    Evaluates program calls n (eval program enter args n) := by
  intro s hcalls
  cases n with
  | int | float | string | bool =>
      rw [eval]
      exact .give hcalls _
  | assign d value | ret t value =>
      rw [eval]
      exact (eval_reaches henter hargs value).reaches rfl hcalls
  | ref name =>
      subst hcalls
      rw [eval]
      exact lookup_reaches hargs name
  | binary left op right =>
      rw [eval]
      have hleft : Reaches program plain (s.eval program (.binary left op right)) calls
          (.right op right :: s.pending) (eval program enter args left s.machine) :=
        (eval_reaches henter hargs left).reaches rfl hcalls
      refine hleft.bind trivial (fun e he => by simp only [he]) fun l s' hl hps hcalls' => ?_
      simp only [hl]
      have hright : Reaches program plain (s'.proceed l false (.right op right)) calls
          (.operate op l :: s.pending) (eval program enter args right s'.machine) :=
        hps ▸ (eval_reaches henter hargs right).reaches rfl hcalls'
      refine hright.bind trivial (fun e he => by simp only [he]) fun r s'' hr hps' hcalls'' => ?_
      simp only [hr, State.proceed, plain, ← hps']
      cases operate op l r with
      | error e => exact .fail hcalls'' e
      | ok v => exact .give hcalls'' v
  | print t actuals =>
      cases actuals with
      | nil =>
          rw [eval]
          exact .fail hcalls _
      | cons arg more =>
          rw [eval]
          have harg : Reaches program plain (s.eval program (.print t (arg :: more))) calls
              (.emit t :: s.pending) (eval program enter args arg s.machine) :=
            (eval_reaches henter hargs arg).reaches rfl hcalls
          refine harg.bind trivial (fun e he => by simp only [he]) fun v s' hv hps hcalls' => ?_
          simp only [hv]
          exact hps ▸ emit_reaches hcalls' t v
  | call name actuals =>
      rw [eval]
      simp only [State.eval]
      cases findFunction? program name.lexeme with
      | none => exact .fail hcalls _
      | some found =>
          -- The arguments are evaluated in this frame, whenever that may be.
          simp only [suspend_eq_map]
          exact henter s found.1 found.2 actuals _ hcalls fun n hn => eval_reaches henter hargs n
  | cond t c body =>
      rw [eval]
      have hbranch : Reaches program id (s.eval program (.cond t c body)) calls
          (.discard :: s.pending)
          (branch t (eval program enter args c) (runBody program enter args body) s.machine) :=
        branch_reaches (eval_reaches henter hargs c) (runBody_reaches henter hargs body)
          rfl rfl hcalls
      refine hbranch.bind trivial (fun e he => by simp only [he]) fun a s' ha hps hcalls' => ?_
      simp only [ha]
      exact hps ▸ .give hcalls' a.1
  | decl | signature | func =>
      rw [eval]
      exact .fail hcalls _
termination_by sizeOf n

/-- **The steps of a body come to what running it comes to.** -/
theorem runBody_reaches {enter : Enter} {args : List Argument} (henter : Enters program calls enter)
    (hargs : Forces program calls args) (body : List Node) :
    Executes program calls body (runBody program enter args body) := by
  intro s hcalls
  match body with
  | [] =>
      rw [runBody]
      exact Comes.refl (s := s.give .void) hcalls
  | n :: rest =>
      have hrest := runBody_reaches henter hargs rest
      by_cases hn : ∃ t c body, n = .cond t c body
      · obtain ⟨t, c, body, rfl⟩ := hn
        rw [runBody]
        have hbranch : Reaches program id (s.exec (.cond t c body :: rest)) calls
            (.log (.cond t c body) rest :: s.pending)
            (branch t (eval program enter args c) (runBody program enter args body) s.machine) :=
          branch_reaches (eval_reaches henter hargs c) (runBody_reaches henter hargs body)
            rfl rfl hcalls
        refine hbranch.bind trivial (fun e he => by simp only [he]) fun a s' ha hps hcalls' => ?_
        have hlog := log_reaches hrest hcalls' (.cond t c body) a.1 a.2
        simp only [ha]
        rw [← hps]
        obtain ⟨v, returned⟩ := a
        cases returned <;> exact hlog
      · have hne : ∀ t c body, n ≠ .cond t c body := fun t c body h => hn ⟨t, c, body, h⟩
        have hvalue : Reaches program plain (s.exec (n :: rest)) calls (.log n rest :: s.pending)
            (eval program enter args n s.machine) := by
          rw [State.exec_cons hne]
          exact (eval_reaches henter hargs n).reaches rfl hcalls
        rw [runBody]
        · refine hvalue.bind trivial (fun e he => by simp only [he]) fun v s' hv hps hcalls' => ?_
          have hlog := log_reaches hrest hcalls' n v false
          rw [Bool.false_or] at hlog
          simp only [hv]
          exact hps ▸ hlog
        · exact hne
termination_by sizeOf body

end

@[simp] theorem State.control_pop (s : State) : s.pop.control = s.control := by
  obtain ⟨c, active, callers, sink, ps⟩ := s
  cases callers <;> rfl

@[simp] theorem State.pending_pop (s : State) : s.pop.pending = s.pending := by
  obtain ⟨c, active, callers, sink, ps⟩ := s
  cases callers <;> rfl

theorem State.machine_pop (s : State) : s.pop.machine = s.machine.pop := by
  obtain ⟨c, active, callers, sink, ps⟩ := s
  cases callers <;> rfl

theorem State.active_depth {actuals : List Node} {depth : Nat}
    (h : s.calls = (actuals, depth) :: calls) : s.active.depth = depth := by
  cases h
  rfl

theorem State.calls_pop {call call' : List Node × Nat} {calls : List (List Node × Nat)}
    (h : s.calls = call :: call' :: calls) : s.pop.calls = call' :: calls := by
  obtain ⟨c, active, callers, sink, ps⟩ := s
  cases callers with
  | nil => cases h
  | cons caller callers =>
      cases h
      rfl

/-- A body that is run to its end in the frame of a callee gives the value of the call. -/
theorem leave_reaches {call call' : List Node × Nat} {o : Outcome (Value × Bool)} :
    Reaches program id s (call :: call' :: calls) (.leave :: ps) o →
    Reaches program plain s (call' :: calls) ps
      (match o with
        | .error (e, m) => .error (e, m.pop)
        | .ok ((v, returned), m) => .ok (if returned then v else .void, m.pop)) := by
  intro h
  rcases o with ⟨e, m⟩ | ⟨⟨v, returned⟩, m⟩
  · refine Comes.reaches h fun s' hc hps hm hcalls => ?_
    subst hm
    have hstep : step program s' = .running ({ s' with pending := ps }.pop) := by
      simp only [step, hc, hps, State.unwind]
    refine Comes.of_step hstep ⟨_, ⟨0, rfl⟩, ?_, ?_, ?_, ?_⟩
    · rw [State.control_pop, hc]
    · rw [State.pending_pop]
    · exact State.machine_pop { s' with pending := ps }
    · exact State.calls_pop hcalls
  · refine Comes.reaches h fun s' hc hps hm hcalls => ?_
    subst hm
    have hstep : step program s' = .running
        ({ s' with pending := ps }.pop.give (if returned then v else .void)) := by
      simp only [step, hc, hps, State.proceed, id]
    refine Comes.of_step hstep ⟨_, ⟨0, rfl⟩, rfl, ?_, ?_, ?_⟩
    · exact State.pending_pop { s' with pending := ps }
    · exact State.machine_pop { s' with pending := ps }
    · exact State.calls_pop hcalls

/-- **A call comes to what `enter` gives**: the depth of the running frame and the number of frames
that may still be added make up `maxCallDepth`. -/
theorem enter_reaches {depth k : Nat} {actuals : List Node} (hdepth : depth + k = maxCallDepth) :
    Enters program ((actuals, depth) :: calls) (enter program k) := by
  induction k generalizing depth actuals calls with
  | zero =>
      intro s sig body actuals' f hcalls hf
      have hactive := State.active_depth hcalls
      have hfull : s.active.depth + 1 > maxCallDepth := by omega
      rw [enter, State.enter, if_pos hfull]
      exact .fail hcalls _
  | succ k ih =>
      intro s sig body actuals' f hcalls hf
      have hactive := State.active_depth hcalls
      have hroom : ¬s.active.depth + 1 > maxCallDepth := by omega
      rw [enter, State.enter, if_neg hroom, hactive]
      have henter : Enters program ((actuals', depth + 1) :: (actuals, depth) :: calls)
          (enter program k) := ih (by omega)
      have hargs : Forces program ((actuals', depth + 1) :: (actuals, depth) :: calls)
          (actuals'.map f) := ⟨f, rfl, hf⟩
      exact leave_reaches ((runBody_reaches henter hargs body).reaches rfl (congrArg _ hcalls))

/-- **The steps of a run come to its report.** -/
theorem steps_run (entry : Bytes) (program : List Node) (sink : Sink) :
    Steps program (start entry program sink) (.ended (run entry program sink)) := by
  unfold start run
  cases findFunction? program entry with
  | none => exact ⟨0, rfl⟩
  | some found =>
      obtain ⟨sig, body⟩ := found
      have henter : Enters program [([], 0)] (enter program maxCallDepth) :=
        enter_reaches (Nat.zero_add _)
      have hargs : Forces program [([], 0)] [] := ⟨fun _ m => .ok (.void, m), rfl, by simp⟩
      have hbody : Reaches program id ⟨.exec body, ⟨⟨sig, [], []⟩, [], 0⟩, [], sink, []⟩ [([], 0)] []
          (runBody program (enter program maxCallDepth) [] body ⟨⟨sig, [], []⟩, [], sink⟩) :=
        (runBody_reaches henter hargs body).reaches rfl rfl
      dsimp only
      generalize runBody program (enter program maxCallDepth) [] body ⟨⟨sig, [], []⟩, [], sink⟩ = o
        at hbody ⊢
      rcases o with ⟨e, m⟩ | ⟨⟨v, returned⟩, m⟩
      · obtain ⟨s', hsteps, hc, hps, rfl, -⟩ := hbody
        have hstep : step program s' = .ended (s'.report (.error e)) := by
          simp only [step, hc, hps]
        exact hsteps.trans (.of_step hstep ⟨0, rfl⟩)
      · obtain ⟨s', hsteps, hc, hps, rfl, -⟩ := hbody
        have hstep : step program s' = .ended (s'.report (.ok v)) := by
          simp only [step, hc, hps, id]
        exact hsteps.trans (.of_step hstep ⟨0, rfl⟩)

end

/-! ## Depths -/

/-- Each depth is the number of those behind it, and none is more than `maxCallDepth`. -/
def Linked : List Nat → Prop
  | [] => True
  | depth :: depths => depth = depths.length ∧ depth ≤ maxCallDepth ∧ Linked depths

/-- The depths of the running activation and its callers when this has been done. -/
def Pending.depthsAfter (depths : List Nat) : Pending → List Nat
  | .leave => depths.tail
  | .cache _ callee => callee.depth :: depths
  | _ => depths

/-- All activations are linked, those that come back on top later too. -/
def Nested : List Nat → List Pending → Prop
  | depths, [] => depths ≠ [] ∧ Linked depths
  | depths, p :: ps => depths ≠ [] ∧ Linked depths ∧ Nested (p.depthsAfter depths) ps

namespace State

def depths (s : State) : List Nat := (s.active :: s.callers).map Activation.depth

/-- The depths of a state are in order. -/
def IsNested (s : State) : Prop := Nested s.depths s.pending

end State

theorem Nested.ne_nil {depths : List Nat} {ps : List Pending} (h : Nested depths ps) :
    depths ≠ [] := by
  cases ps <;> exact h.1

theorem Nested.linked {depths : List Nat} {ps : List Pending} (h : Nested depths ps) :
    Linked depths := by
  cases ps with
  | nil => exact h.2
  | cons p ps => exact h.2.1

theorem Nested.cons {depths : List Nat} {ps : List Pending} {p : Pending} (hp : p.IsLocal)
    (h : Nested depths ps) : Nested depths (p :: ps) := by
  refine ⟨h.ne_nil, h.linked, ?_⟩
  cases p with
  | leave | cache => cases hp
  | _ => exact h

namespace State

variable {program : List Node} {s : State}

theorem IsNested.lookup (h : s.IsNested) (name : Token) : (s.lookup name).IsNested := by
  obtain ⟨c, active, callers, sink, ps⟩ := s
  unfold State.lookup
  split
  · exact h
  · split
    · rename_i i caller callers _ hcallers
      cases hcallers
      split
      · exact h
      · exact ⟨List.cons_ne_nil _ _, h.linked.2.2, h⟩
    · split <;> exact h

theorem IsNested.enter (h : s.IsNested) (sig : Signature) (body actuals : List Node) :
    (s.enter sig body actuals).IsNested := by
  unfold State.enter
  split
  · exact h
  · rename_i hroom
    have hdepth : s.active.depth = s.callers.length := by
      simpa using h.linked.1
    refine ⟨List.cons_ne_nil _ _, ⟨?_, Nat.le_of_not_lt hroom, h.linked⟩, h⟩
    simp [hdepth]

theorem IsNested.eval (h : s.IsNested) (n : Node) : (s.eval program n).IsNested := by
  cases n with
  | ref name => exact h.lookup name
  | binary => exact h.cons trivial
  | cond =>
      have hdiscard : Nested s.depths (.discard :: s.pending) := h.cons trivial
      exact hdiscard.cons trivial
  | print t actuals =>
      cases actuals with
      | nil => exact h
      | cons arg more => exact h.cons trivial
  | call name actuals =>
      simp only [State.eval]
      split
      · exact h
      · exact h.enter _ _ _
  | _ => exact h

theorem IsNested.exec (h : s.IsNested) (body : List Node) : (s.exec body).IsNested := by
  unfold State.exec
  split
  · exact h
  · rename_i t c body rest
    have hlog : Nested s.depths (.log (.cond t c body) rest :: s.pending) := h.cons trivial
    exact hlog.cons trivial
  · exact h.cons trivial

theorem IsNested.pop {ps : List Pending} (h : Nested s.depths (.leave :: ps)) :
    ({ s with pending := ps }.pop).IsNested := by
  obtain ⟨c, active, callers, sink, ps'⟩ := s
  cases callers with
  | nil => exact absurd rfl h.2.2.ne_nil
  | cons caller callers => exact h.2.2

theorem IsNested.proceed {p : Pending} {ps : List Pending} (h : Nested s.depths (p :: ps)) (v : Value)
    (returned : Bool) : ({ s with pending := ps }.proceed v returned p).IsNested := by
  cases p with
  | right op operand => exact h.2.2.cons trivial
  | operate op left =>
      simp only [State.proceed]
      split <;> exact h.2.2
  | emit t =>
      simp only [State.proceed]
      split
      · split <;> exact h.2.2
      · exact h.2.2
  | branch t body =>
      simp only [State.proceed]
      split <;> exact h.2.2
  | discard => exact h.2.2
  | log n rest =>
      simp only [State.proceed]
      split <;> exact h.2.2
  | leave => exact pop h
  | cache name callee => exact h.2.2

theorem IsNested.unwind {p : Pending} {ps : List Pending} (h : Nested s.depths (p :: ps)) :
    ({ s with pending := ps }.unwind p).IsNested := by
  cases p with
  | leave => exact pop h
  | _ => exact h.2.2

/-- **A step keeps the depths in order.** -/
theorem IsNested.step {s' : State} (h : s.IsNested) (hstep : step program s = .running s') :
    s'.IsNested := by
  unfold Run.step at hstep
  split at hstep
  · cases hstep
    exact h.eval _
  · cases hstep
    exact h.exec _
  · rename_i v returned p ps _ hpending
    cases hstep
    unfold IsNested at h
    rw [hpending] at h
    exact proceed h v returned
  · cases hstep
  · rename_i e p ps _ hpending
    cases hstep
    unfold IsNested at h
    rw [hpending] at h
    exact unwind h
  · cases hstep

/-- **Steps keep the depths in order.** -/
theorem IsNested.after {s' : State} (h : s.IsNested) {n : Nat}
    (hafter : after program n (.running s) = .running s') : s'.IsNested :=
  after_keeps (fun _ _ => IsNested.step) h hafter

end State

theorem Linked.of_suffix {depth : Nat} {behind depths : List Nat} (h : Linked depths)
    (hsuffix : depth :: behind <:+ depths) : depth = behind.length ∧ depth ≤ maxCallDepth := by
  induction depths with
  | nil => cases List.suffix_nil.1 hsuffix
  | cons d depths ih =>
      rcases List.suffix_cons_iff.1 hsuffix with heq | hsuffix
      · cases heq
        exact ⟨h.1, h.2.1⟩
      · exact ih h.2.2 hsuffix

/-- **Every run ends.** After finitely many steps it has come to its report, and until then the depth
of each activation in progress is the length of the chain of its callers and at most `maxCallDepth`. -/
theorem run_ends (entry : Bytes) (program : List Node) (sink : Sink) :
    ∃ n, after program n (start entry program sink) = .ended (run entry program sink) ∧
      ∀ k s, after program k (start entry program sink) = .running s → k < n ∧
        ∀ a chain, a :: chain <:+ s.active :: s.callers →
          a.depth = chain.length ∧ a.depth ≤ maxCallDepth := by
  obtain ⟨n, hn⟩ := steps_run entry program sink
  refine ⟨n, hn, fun k s hk => ⟨?_, fun a chain hsuffix => ?_⟩⟩
  · refine Nat.lt_of_not_le fun hle => ?_
    obtain ⟨more, rfl⟩ := Nat.exists_eq_add_of_le hle
    rw [after_add, hn, after_ended] at hk
    cases hk
  · have hnested : s.IsNested := by
      unfold start at hk
      split at hk
      · rw [after_ended] at hk
        cases hk
      · refine State.IsNested.after ?_ hk
        exact ⟨List.cons_ne_nil _ _, rfl, Nat.zero_le _, trivial⟩
    have hlinked := hnested.linked.of_suffix (hsuffix.map Activation.depth)
    simpa using hlinked

end Run

end Swiftlet
