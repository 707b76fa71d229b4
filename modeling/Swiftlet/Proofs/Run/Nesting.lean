import Swiftlet.Proofs.Run.Steady
import Swiftlet.Proofs.Run.Stepping

/-!
# How deeply calls nest

`maxCallDepth` bounds the depth of a frame, which is the number of its callers. A callee that reads an
argument waits while the argument is evaluated one frame up. A call made from there has the smaller
depth, although the callee that waits is still in progress.

* `State.callsInProgress` — the calls that have been entered and not left.
* `State.argumentsInProgress` — the arguments that are being evaluated for a callee that waits.
* `State.code` — what is still to be evaluated in the running frame; `outer` is what is left to do
  behind it.
* `Move` — what a step can do: go on in the running frame, enter a function, go up to the caller for an
  argument, and come back from either.
* `State.Balanced` and `State.Orderly` — what every step keeps. The second is about programs in which no
  argument contains a call.
* `PassesOn` — an expression has the value of another, and its evaluation comes to that of the other in
  the same frame with so many more calls in progress.

Principal results: `move_of_step` and `callsInProgress_eq`. That calls can nest deeper than `maxCallDepth`
is `calls_nest_deeper`.
-/

namespace Swiftlet

theorem callsIn_append (ns ms : List Node) : callsIn (ns ++ ms) = callsIn ns ++ callsIn ms := by
  induction ns with
  | nil => rfl
  | cons n ns ih => rw [List.cons_append, callsIn, callsIn, ih, List.append_assoc]

theorem argumentsIn_append (ns ms : List Node) :
    argumentsIn (ns ++ ms) = argumentsIn ns ++ argumentsIn ms := by
  induction ns with
  | nil => rfl
  | cons n ns ih => rw [List.cons_append, argumentsIn, argumentsIn, ih, List.append_assoc]

mutual

/-- Without calls there are no arguments. -/
theorem Node.arguments_of_calls : ∀ {n : Node}, n.calls = [] → n.arguments = []
  | .assign _ v, h | .ret _ v, h => by
    rw [Node.calls] at h
    rw [Node.arguments, Node.arguments_of_calls h]
  | .binary l _ r, h => by
    rw [Node.calls, List.append_eq_nil_iff] at h
    rw [Node.arguments, Node.arguments_of_calls h.1, Node.arguments_of_calls h.2, List.append_nil]
  | .call .., h => by cases h
  | .func _ body, h | .print _ body, h => by
    rw [Node.calls] at h
    rw [Node.arguments, argumentsIn_of_calls h]
  | .cond _ c body, h => by
    rw [Node.calls, List.append_eq_nil_iff] at h
    rw [Node.arguments, Node.arguments_of_calls h.1, argumentsIn_of_calls h.2, List.append_nil]
  | .int .., _ | .float .., _ | .bool .., _ | .string .., _ | .decl _, _ | .ref _, _
  | .signature _, _ => rfl

theorem argumentsIn_of_calls : ∀ {ns : List Node}, callsIn ns = [] → argumentsIn ns = []
  | [], _ => rfl
  | n :: ns, h => by
    rw [callsIn, List.append_eq_nil_iff] at h
    rw [argumentsIn, Node.arguments_of_calls h.1, argumentsIn_of_calls h.2, List.append_nil]

end

/-- No argument of a call contains a call. -/
def CallFreeArguments (program : List Node) : Prop := ∀ a ∈ argumentsIn program, a.calls = []

namespace Run

/-! ## Calls and arguments in progress -/

namespace Pending

def isCall : Pending → Bool
  | .leave => true
  | _ => false

def isArgument : Pending → Bool
  | .cache .. => true
  | _ => false

end Pending

/-- How many calls are left. -/
def entered (ps : List Pending) : Nat := ps.countP Pending.isCall

/-- How many arguments are waited for. -/
def forced (ps : List Pending) : Nat := ps.countP Pending.isArgument

namespace State

/-- The calls that have been entered and not left, those made for the sake of an argument included. -/
def callsInProgress (s : State) : Nat := entered s.pending

/-- The arguments that are being evaluated for a callee that waits. -/
def argumentsInProgress (s : State) : Nat := forced s.pending

end State

@[simp] theorem entered_leave (ps : List Pending) : entered (.leave :: ps) = entered ps + 1 :=
  List.countP_cons_of_pos rfl

@[simp] theorem entered_cache (x : Bytes) (a : Activation) (ps : List Pending) :
    entered (.cache x a :: ps) = entered ps :=
  List.countP_cons_of_neg Bool.false_ne_true

@[simp] theorem forced_leave (ps : List Pending) : forced (.leave :: ps) = forced ps :=
  List.countP_cons_of_neg Bool.false_ne_true

@[simp] theorem forced_cache (x : Bytes) (a : Activation) (ps : List Pending) :
    forced (.cache x a :: ps) = forced ps + 1 :=
  List.countP_cons_of_pos rfl

/-! ## The running frame and what is behind it -/

/-- What is left to do behind the running frame. -/
def outer : List Pending → List Pending
  | [] => []
  | .leave :: ps => .leave :: ps
  | .cache x a :: ps => .cache x a :: ps
  | _ :: ps => outer ps

/-- What is left to evaluate in the running frame. -/
def localCode : List Pending → List Node
  | .right _ operand :: ps => operand :: localCode ps
  | .branch _ body :: ps => body ++ localCode ps
  | .log _ rest :: ps => rest ++ localCode ps
  | .operate .. :: ps | .emit _ :: ps | .discard :: ps => localCode ps
  | .leave :: _ | .cache .. :: _ | [] => []

def Control.code : Control → List Node
  | .eval n => [n]
  | .exec body => body
  | .result .. | .failed _ => []

/-- All that is still to be evaluated in the running frame. -/
def State.code (s : State) : List Node := s.control.code ++ localCode s.pending

theorem outer_cons {p : Pending} (hp : p.IsLocal) (ps : List Pending) :
    outer (p :: ps) = outer ps := by
  cases p with
  | leave | cache => cases hp
  | _ => rfl

theorem countP_outer {f : Pending → Bool} (hf : ∀ p : Pending, p.IsLocal → f p = false)
    (ps : List Pending) : (outer ps).countP f = ps.countP f := by
  induction ps with
  | nil => rfl
  | cons p ps ih =>
      by_cases hp : p.IsLocal
      · rw [outer_cons hp, ih, List.countP_cons_of_neg (by simp [hf p hp])]
      · cases p with
        | leave | cache => rfl
        | _ => exact absurd trivial hp

theorem entered_outer (ps : List Pending) : entered (outer ps) = entered ps := by
  refine countP_outer (fun p hp => ?_) ps
  cases p with
  | leave => cases hp
  | _ => rfl

theorem forced_outer (ps : List Pending) : forced (outer ps) = forced ps := by
  refine countP_outer (fun p hp => ?_) ps
  cases p with
  | cache => cases hp
  | _ => rfl

/-! ## What a step can do -/

/-- The code `code'` calls no more and with no other arguments than `code` does. -/
structure Covers (code code' : List Node) : Prop where
  calls : callsIn code' ⊆ callsIn code
  arguments : argumentsIn code' ⊆ argumentsIn code

namespace Activation

/-- All of an activation but the log of its frame. -/
def core (a : Activation) : (List Node × Nat) × Signature × List (Bytes × Value) :=
  (a.call, a.frame.signature, a.frame.cache)

/-- The value of a parameter is known from now on. -/
def store (name : Bytes) (v : Value) (a : Activation) : Activation :=
  { a with frame.cache := (name, v) :: a.frame.cache }

end Activation

/-- From `s` to `s'` in the running frame. -/
structure State.Within (s s' : State) : Prop where
  core : s'.active.core = s.active.core
  callers : s'.callers = s.callers
  outer : outer s'.pending = outer s.pending
  code : Covers s.code s'.code

/-- What one step does. -/
inductive Move (program : List Node) (s s' : State) : Prop where
  | within (h : s.Within s')
  | enter {name : Bytes} {actuals : List Node} {sig : Signature} {body : List Node}
      (hname : name ∈ callsIn s.code) (hactuals : actuals ⊆ argumentsIn s.code)
      (hfound : findFunction? program name = some (sig, body))
      (hroom : s.active.depth + 1 ≤ maxCallDepth)
      (h : s' = ⟨.exec body, ⟨⟨sig, [], []⟩, actuals, s.active.depth + 1⟩, s.active :: s.callers,
        s.sink, .leave :: s.pending⟩)
  | force {name : Token} {i : Nat} {n : Node} {caller : Activation} {callers : List Activation}
      (hcontrol : s.control = .eval (.ref name))
      (hnew : s.active.frame.cache.lookup name.lexeme = none)
      (hindex : s.active.frame.signature.paramIndex? name.lexeme = some i)
      (hn : s.active.actuals[i]? = some n) (hcallers : s.callers = caller :: callers)
      (h : s' = ⟨.eval n, caller, callers, s.sink, .cache name.lexeme s.active :: s.pending⟩)
  | leave (hpending : s.pending = .leave :: s'.pending)
      (hcallers : s.callers = s'.active :: s'.callers) (hcode : s'.control.code = [])
  | resume {name : Bytes} {callee : Activation} (hpending : s.pending = .cache name callee :: s'.pending)
      (hactive : (∃ v, s'.control = .result v false ∧ s'.active = callee.store name v) ∨
        (∃ e, s'.control = .failed e) ∧ s'.active = callee)
      (hcallers : s'.callers = s.active :: s.callers)

theorem Covers.refl (code : List Node) : Covers code code :=
  ⟨List.Subset.refl _, List.Subset.refl _⟩

theorem Covers.tail (ns code : List Node) : Covers (ns ++ code) code := by
  constructor
  · rw [callsIn_append]
    exact List.subset_append_right _ _
  · rw [argumentsIn_append]
    exact List.subset_append_right _ _

/-- The parts of a node call no more than the node does. -/
theorem Covers.parts {n : Node} (parts : List Node) (hcalls : callsIn parts ⊆ n.calls)
    (harguments : argumentsIn parts ⊆ n.arguments) (code : List Node) :
    Covers (n :: code) (parts ++ code) := by
  constructor
  · rw [callsIn_append, callsIn, List.append_subset]
    exact ⟨List.subset_append_of_subset_left _ hcalls, List.subset_append_right _ _⟩
  · rw [argumentsIn_append, argumentsIn, List.append_subset]
    exact ⟨List.subset_append_of_subset_left _ harguments, List.subset_append_right _ _⟩

section

variable {program : List Node} {s : State}

/-- A result or a failure takes the place of what was to be evaluated. -/
theorem Move.done {n : Node} {c : Control} (hcontrol : s.control = .eval n) (hc : c.code = []) :
    Move program s { s with control := c } := by
  refine .within ⟨rfl, rfl, rfl, ?_⟩
  have hcode : s.code = [n] ++ localCode s.pending := by rw [State.code, hcontrol]; rfl
  have hcode' : State.code { s with control := c } = localCode s.pending := by
    rw [State.code, hc]; rfl
  rw [hcode, hcode']
  exact .tail _ _

theorem move_lookup {name : Token} (hcontrol : s.control = .eval (.ref name)) :
    Move program s (s.lookup name) := by
  unfold State.lookup
  split
  · exact .done hcontrol rfl
  · split
    · rename_i hnew _ _ i caller callers hindex hcallers
      split
      · exact .done hcontrol rfl
      · rename_i n hn
        exact .force hcontrol hnew hindex hn hcallers rfl
    · split
      · exact .done hcontrol rfl
      · exact .done hcontrol rfl

theorem move_call {name : Token} {actuals : List Node}
    (hcontrol : s.control = .eval (.call name actuals)) :
    Move program s (s.eval program (.call name actuals)) := by
  have hcode : s.code = .call name actuals :: localCode s.pending := by
    rw [State.code, hcontrol]; rfl
  simp only [State.eval]
  split
  · exact .done hcontrol rfl
  · rename_i sig body hfound
    unfold State.enter
    split
    · exact .done hcontrol rfl
    · rename_i hroom
      refine .enter ?_ ?_ hfound (Nat.le_of_not_lt hroom) rfl
      · simp [hcode, callsIn, Node.calls]
      · rw [hcode, argumentsIn, Node.arguments, List.append_assoc]
        exact List.subset_append_left _ _

theorem move_eval {n : Node} (hcontrol : s.control = .eval n) :
    Move program s (s.eval program n) := by
  cases n with
  | int | float | string | bool | decl | signature | func => exact .done hcontrol rfl
  | ref name => exact move_lookup hcontrol
  | call name actuals => exact move_call hcontrol
  | assign d v | ret t v =>
      obtain ⟨c, active, callers, sink, ps⟩ := s
      cases hcontrol
      exact .within ⟨rfl, rfl, rfl, .parts [v] (by simp [callsIn, Node.calls])
        (by simp [argumentsIn, Node.arguments]) _⟩
  | binary l op r =>
      obtain ⟨c, active, callers, sink, ps⟩ := s
      cases hcontrol
      exact .within ⟨rfl, rfl, rfl, .parts [l, r] (by simp [callsIn, Node.calls])
        (by simp [argumentsIn, Node.arguments]) _⟩
  | cond t c body =>
      obtain ⟨c, active, callers, sink, ps⟩ := s
      cases hcontrol
      exact .within ⟨rfl, rfl, rfl, .parts (c :: body) (by simp [callsIn, Node.calls])
        (by simp [argumentsIn, Node.arguments]) _⟩
  | print t args =>
      cases args with
      | nil => exact .done hcontrol rfl
      | cons arg more =>
          obtain ⟨c, active, callers, sink, ps⟩ := s
          cases hcontrol
          exact .within ⟨rfl, rfl, rfl, .parts [arg] (by simp [callsIn, Node.calls])
            (by simp [argumentsIn, Node.arguments]) _⟩

theorem move_exec {body : List Node} (hcontrol : s.control = .exec body) :
    Move program s (s.exec body) := by
  obtain ⟨c, active, callers, sink, ps⟩ := s
  cases hcontrol
  cases body with
  | nil => exact .within ⟨rfl, rfl, rfl, .refl _⟩
  | cons n rest =>
      by_cases hn : ∃ t c body, n = .cond t c body
      · obtain ⟨t, c, body, rfl⟩ := hn
        exact .within ⟨rfl, rfl, rfl, .parts (c :: body) (by simp [callsIn, Node.calls])
          (by simp [argumentsIn, Node.arguments]) _⟩
      · rw [State.exec_cons fun t c body h => hn ⟨t, c, body, h⟩]
        exact .within ⟨rfl, rfl, rfl, .refl _⟩

/-- There is a caller to go back to. -/
theorem exists_caller {ps : List Pending} (hs : s.IsNested) (hpending : s.pending = .leave :: ps) :
    ∃ caller callers, s.callers = caller :: callers := by
  unfold State.IsNested at hs
  rw [hpending] at hs
  have hne : s.depths.tail ≠ [] := hs.2.2.ne_nil
  cases hcallers : s.callers with
  | nil => simp [State.depths, hcallers] at hne
  | cons caller callers => exact ⟨caller, callers, rfl⟩

theorem move_proceed {v : Value} {returned : Bool} {p : Pending} {ps : List Pending}
    (hs : s.IsNested) (hcontrol : s.control = .result v returned) (hpending : s.pending = p :: ps) :
    Move program s ({ s with pending := ps }.proceed v returned p) := by
  have hcaller : s.pending = .leave :: ps → ∃ caller callers, s.callers = caller :: callers :=
    exists_caller hs
  obtain ⟨c, active, callers, sink, pending⟩ := s
  cases hcontrol
  cases hpending
  cases p with
  | right op operand => exact .within ⟨rfl, rfl, rfl, .refl _⟩
  | operate op left =>
      simp only [State.proceed]
      split <;> exact .within ⟨rfl, rfl, rfl, .refl _⟩
  | emit t =>
      simp only [State.proceed]
      split
      · split <;> exact .within ⟨rfl, rfl, rfl, .refl _⟩
      · exact .within ⟨rfl, rfl, rfl, .refl _⟩
  | branch t body =>
      simp only [State.proceed]
      split
      · exact .within ⟨rfl, rfl, rfl, .refl _⟩
      · exact .within ⟨rfl, rfl, rfl, .tail body _⟩
      · exact .within ⟨rfl, rfl, rfl, .tail body _⟩
  | discard => exact .within ⟨rfl, rfl, rfl, .refl _⟩
  | log n rest =>
      simp only [State.proceed]
      split
      · exact .within ⟨rfl, rfl, rfl, .tail rest _⟩
      · exact .within ⟨rfl, rfl, rfl, .refl _⟩
  | leave =>
      obtain ⟨caller, callers, rfl⟩ := hcaller rfl
      exact .leave rfl rfl rfl
  | cache name callee => exact .resume rfl (.inl ⟨v, rfl, rfl⟩) rfl

theorem move_unwind {e : Failure} {p : Pending} {ps : List Pending} (hs : s.IsNested)
    (hcontrol : s.control = .failed e) (hpending : s.pending = p :: ps) :
    Move program s ({ s with pending := ps }.unwind p) := by
  have hcaller : s.pending = .leave :: ps → ∃ caller callers, s.callers = caller :: callers :=
    exists_caller hs
  obtain ⟨c, active, callers, sink, pending⟩ := s
  cases hcontrol
  cases hpending
  cases p with
  | right op operand => exact .within ⟨rfl, rfl, rfl, .tail [operand] _⟩
  | operate | emit | discard => exact .within ⟨rfl, rfl, rfl, .refl _⟩
  | branch t body => exact .within ⟨rfl, rfl, rfl, .tail body _⟩
  | log n rest => exact .within ⟨rfl, rfl, rfl, .tail rest _⟩
  | leave =>
      obtain ⟨caller, callers, rfl⟩ := hcaller rfl
      exact .leave rfl rfl rfl
  | cache name callee => exact .resume rfl (.inr ⟨⟨e, rfl⟩, rfl⟩) rfl

/-- **What one step does.** -/
theorem move_of_step {s' : State} (hs : s.IsNested) (hstep : step program s = .running s') :
    Move program s s' := by
  unfold step at hstep
  split at hstep
  · rename_i hcontrol
    cases hstep
    exact move_eval hcontrol
  · rename_i hcontrol
    cases hstep
    exact move_exec hcontrol
  · rename_i hcontrol hpending
    cases hstep
    exact move_proceed hs hcontrol hpending
  · cases hstep
  · rename_i hcontrol hpending
    cases hstep
    exact move_unwind hs hcontrol hpending
  · cases hstep

/-! ## What every step keeps -/

/-- A call in progress is one of the callers of the running frame, the running frame itself, or waits
for an argument. -/
def State.Balanced (s : State) : Prop :=
  s.callsInProgress = s.callers.length + s.argumentsInProgress

theorem Move.balanced {s' : State} (h : Move program s s') (hs : s.Balanced) : s'.Balanced := by
  unfold State.Balanced State.callsInProgress State.argumentsInProgress at hs ⊢
  cases h with
  | within h =>
      rw [h.callers, ← entered_outer, ← forced_outer, h.outer, entered_outer, forced_outer]
      exact hs
  | enter _ _ _ _ h =>
      subst h
      simp only [entered_leave, forced_leave, List.length_cons]
      omega
  | force _ _ _ _ hcallers h =>
      subst h
      rw [hcallers, List.length_cons] at hs
      simp only [entered_cache, forced_cache]
      omega
  | leave hpending hcallers _ =>
      rw [hpending, hcallers, List.length_cons, entered_leave, forced_leave] at hs
      omega
  | resume hpending _ hcallers =>
      rw [hpending, entered_cache, forced_cache] at hs
      rw [hcallers, List.length_cons]
      omega

/-- Code with no call in an argument; while an argument is waited for, it is without calls itself. -/
structure Quiet (code : List Node) (ps : List Pending) : Prop where
  arguments : ∀ a ∈ argumentsIn code, a.calls = []
  calls : 0 < forced ps → callsIn code = []

def Activation.CallFree (a : Activation) : Prop := ∀ n ∈ a.actuals, n.calls = []

/-- What is left to do behind the running frame is quiet, and no call is made while an argument is
waited for. -/
inductive Waiting : List Pending → Prop where
  | nil {ps : List Pending} (hps : outer ps = []) : Waiting ps
  | leave {ps qs : List Pending} (hps : outer ps = .leave :: qs) (hnone : forced qs = 0)
      (hcode : Quiet (localCode qs) qs) (hrest : Waiting qs) : Waiting ps
  | cache {ps qs : List Pending} {x : Bytes} {callee : Activation}
      (hps : outer ps = .cache x callee :: qs) (hcallee : callee.CallFree)
      (hcode : Quiet (localCode qs) qs) (hrest : Waiting qs) : Waiting ps

/-- A state of a program in which no argument contains a call. -/
structure State.Orderly (s : State) : Prop where
  few : s.callsInProgress ≤ maxCallDepth
  code : Quiet s.code s.pending
  active : s.active.CallFree
  callers : ∀ a ∈ s.callers, a.CallFree
  waiting : Waiting s.pending

theorem Quiet.covers {code code' : List Node} {ps ps' : List Pending} (h : Quiet code ps)
    (hcode : Covers code code') (hps : forced ps' = forced ps) : Quiet code' ps' := by
  refine ⟨fun a ha => h.arguments a (hcode.arguments ha), fun hpos => ?_⟩
  have hnil := h.calls (hps ▸ hpos)
  exact List.subset_nil.1 (hnil ▸ hcode.calls)

theorem Waiting.congr {ps ps' : List Pending} (h : Waiting ps) (hps : outer ps' = outer ps) :
    Waiting ps' := by
  cases h with
  | nil h => exact .nil (hps.trans h)
  | leave h hnone hcode hrest => exact .leave (hps.trans h) hnone hcode hrest
  | cache h hcallee hcode hrest => exact .cache (hps.trans h) hcallee hcode hrest

theorem Activation.CallFree.congr {a a' : Activation} (h : a.CallFree) (hcall : a'.call = a.call) :
    a'.CallFree := by
  have hactuals : a'.actuals = a.actuals := congrArg Prod.fst hcall
  intro n hn
  exact h n (hactuals ▸ hn)

theorem State.Orderly.rest (hs : s.Orderly) : Quiet (localCode s.pending) s.pending :=
  hs.code.covers (.tail _ _) rfl

theorem State.IsNested.depth_eq (hs : s.IsNested) : s.active.depth = s.callers.length := by
  simpa using hs.linked.1

/-- A function is entered only where no argument is waited for, so that the calls in progress are the
callers and the running frame. -/
theorem State.Orderly.enter (hfree : CallFreeArguments program) (hs : s.Orderly) (hnested : s.IsNested)
    (hbalanced : s.Balanced) {name : Bytes} {actuals : List Node} {sig : Signature} {body : List Node}
    (hname : name ∈ callsIn s.code) (hactuals : actuals ⊆ argumentsIn s.code)
    (hfound : findFunction? program name = some (sig, body))
    (hroom : s.active.depth + 1 ≤ maxCallDepth) :
    State.Orderly ⟨.exec body, ⟨⟨sig, [], []⟩, actuals, s.active.depth + 1⟩, s.active :: s.callers,
      s.sink, .leave :: s.pending⟩ := by
  have hnone : forced s.pending = 0 := by
    by_contra hsome
    rw [hs.code.calls (Nat.pos_of_ne_zero hsome)] at hname
    cases hname
  have hbody : argumentsIn body ⊆ argumentsIn program :=
    arguments_subset_argumentsIn (mem_of_findFunction? hfound).1
  refine ⟨?_, ⟨fun a ha => ?_, fun hpos => ?_⟩, fun n hn => hs.code.arguments n (hactuals hn), ?_,
    .leave rfl hnone hs.rest hs.waiting⟩
  · unfold State.Balanced State.argumentsInProgress at hbalanced
    have hdepth := hnested.depth_eq
    show entered (.leave :: s.pending) ≤ maxCallDepth
    rw [entered_leave]
    unfold State.callsInProgress at hbalanced
    omega
  · have ha : a ∈ argumentsIn (body ++ []) := ha
    rw [List.append_nil] at ha
    exact hfree a (hbody ha)
  · rw [forced_leave, hnone] at hpos
    cases hpos
  · exact List.forall_mem_cons.2 ⟨hs.active, hs.callers⟩

/-- An argument makes no calls. -/
theorem State.Orderly.force (hs : s.Orderly) {name : Bytes} {n : Node} {caller : Activation}
    {callers : List Activation} (hn : n ∈ s.active.actuals) (hcallers : s.callers = caller :: callers) :
    State.Orderly ⟨.eval n, caller, callers, s.sink, .cache name s.active :: s.pending⟩ := by
  have hcalls : n.calls = [] := hs.active n hn
  have hothers := hs.callers
  rw [hcallers, List.forall_mem_cons] at hothers
  refine ⟨?_, ⟨?_, fun _ => ?_⟩, hothers.1, hothers.2, .cache rfl hs.active hs.rest hs.waiting⟩
  · show entered (.cache name s.active :: s.pending) ≤ maxCallDepth
    rw [entered_cache]
    exact hs.few
  · show ∀ a ∈ n.arguments ++ [], a.calls = []
    simp [Node.arguments_of_calls hcalls]
  · show n.calls ++ [] = []
    simp [hcalls]

/-- **Without calls in arguments, calls nest no deeper than the frames.** -/
theorem Move.orderly {s' : State} (hfree : CallFreeArguments program) (h : Move program s s')
    (hs : s.Orderly) (hnested : s.IsNested) (hbalanced : s.Balanced) : s'.Orderly := by
  cases h with
  | within h =>
      have hentered : entered s'.pending = entered s.pending := by
        rw [← entered_outer, h.outer, entered_outer]
      have hforced : forced s'.pending = forced s.pending := by
        rw [← forced_outer, h.outer, forced_outer]
      exact ⟨Nat.le_trans (Nat.le_of_eq hentered) hs.few, hs.code.covers h.code hforced,
        hs.active.congr (congrArg Prod.fst h.core),
        h.callers ▸ hs.callers, hs.waiting.congr h.outer⟩
  | enter hname hactuals hfound hroom h =>
      subst h
      exact hs.enter hfree hnested hbalanced hname hactuals hfound hroom
  | force _ _ _ hn hcallers h =>
      subst h
      exact hs.force (List.mem_of_getElem? hn) hcallers
  | leave hpending hcallers hcode =>
      obtain ⟨hfew, -, -, hothers, hwaiting⟩ := hs
      rw [State.callsInProgress, hpending, entered_leave] at hfew
      rw [hcallers, List.forall_mem_cons] at hothers
      rw [hpending] at hwaiting
      cases hwaiting with
      | nil hps => cases hps
      | cache hps => cases hps
      | leave hps _ hquiet hrest =>
          cases hps
          refine ⟨Nat.le_of_succ_le hfew, ?_, hothers.1, hothers.2, hrest⟩
          rw [State.code, hcode]
          exact hquiet
  | @resume name callee hpending hactive hcallers =>
      have hcall : s'.active.call = callee.call ∧ s'.control.code = [] := by
        obtain ⟨v, hcontrol, hactive⟩ | ⟨⟨e, hcontrol⟩, hactive⟩ := hactive
        · rw [hcontrol, hactive]
          exact ⟨rfl, rfl⟩
        · rw [hcontrol, hactive]
          exact ⟨rfl, rfl⟩
      obtain ⟨hfew, -, hactive, hothers, hwaiting⟩ := hs
      rw [State.callsInProgress, hpending, entered_cache] at hfew
      rw [hpending] at hwaiting
      cases hwaiting with
      | nil hps => cases hps
      | leave hps => cases hps
      | cache hps hcallee hquiet hrest =>
          cases hps
          refine ⟨hfew, ?_, hcallee.congr hcall.1, ?_, hrest⟩
          · rw [State.code, hcall.2]
            exact hquiet
          · rw [hcallers]
            exact List.forall_mem_cons.2 ⟨hactive, hothers⟩

/-! ## Whole runs -/

/-- A run begins without calls. -/
theorem start_running {entry : Bytes} {sink : Sink} (h : start entry program sink = .running s) :
    s.IsNested ∧ s.Balanced ∧ (CallFreeArguments program → s.Orderly) := by
  unfold start at h
  split at h
  · cases h
  · rename_i sig body hfound
    cases h
    refine ⟨⟨List.cons_ne_nil _ _, rfl, Nat.zero_le _, trivial⟩, rfl, fun hfree => ?_⟩
    have hbody : argumentsIn body ⊆ argumentsIn program :=
      arguments_subset_argumentsIn (mem_of_findFunction? hfound).1
    refine ⟨Nat.zero_le _, ⟨fun a ha => ?_, fun hpos => ?_⟩, by simp [Activation.CallFree], by simp,
      .nil rfl⟩
    · have ha : a ∈ argumentsIn (body ++ []) := ha
      rw [List.append_nil] at ha
      exact hfree a (hbody ha)
    · cases hpos

theorem run_keeps {entry : Bytes} {sink : Sink} {k : Nat}
    (h : after program k (start entry program sink) = .running s) :
    s.IsNested ∧ s.Balanced ∧ (CallFreeArguments program → s.Orderly) := by
  cases hstart : start entry program sink with
  | ended r =>
      rw [hstart, after_ended] at h
      cases h
  | running first =>
      rw [hstart] at h
      refine after_keeps (I := fun s => s.IsNested ∧ s.Balanced ∧
        (CallFreeArguments program → s.Orderly)) ?_ (start_running hstart) h
      rintro s s' ⟨hnested, hbalanced, horderly⟩ hstep
      have hmove := move_of_step hnested hstep
      exact ⟨hnested.step hstep, hmove.balanced hbalanced,
        fun hfree => hmove.orderly hfree (horderly hfree) hnested hbalanced⟩

/-- **How many calls are in progress.** At every moment of a run these are as many as the running frame
is deep, and one more for each argument that is being evaluated. So there are no more than
`maxCallDepth` of them if no argument contains a call. -/
theorem callsInProgress_eq {entry : Bytes} {sink : Sink} {k : Nat}
    (h : after program k (start entry program sink) = .running s) :
    s.callsInProgress = s.active.depth + s.argumentsInProgress ∧ s.active.depth ≤ maxCallDepth ∧
      (CallFreeArguments program → s.callsInProgress ≤ maxCallDepth) := by
  obtain ⟨hnested, hbalanced, horderly⟩ := run_keeps h
  refine ⟨?_, hnested.linked.2.1, fun hfree => (horderly hfree).few⟩
  rw [hnested.depth_eq]
  exact hbalanced

open Parsing in
/-- A moment at which two calls are in progress and both wait for an argument. -/
theorem callsInProgress_halving :
    CallFreeArguments (halving (some .int) (some .string)) ∧
      ∃ s, after (halving (some .int) (some .string)) 41
          (start defaultEntry (halving (some .int) (some .string)) ⟨[], none⟩) = .running s ∧
        s.callsInProgress = 2 ∧ s.argumentsInProgress = 2 ∧ s.active.depth = 0 ∧
        s.callsInProgress ≤ maxCallDepth := by
  have hfree : CallFreeArguments (halving (some .int) (some .string)) := by
    intro a ha
    have hplain : a.calls ∈ (argumentsIn (halving (some .int) (some .string))).map Node.calls :=
      List.mem_map_of_mem ha
    have hcalls : (argumentsIn (halving (some .int) (some .string))).map Node.calls =
        [[], [], [], []] := by rfl
    simpa [hcalls] using hplain
  obtain ⟨s, hs, hcalls, harguments⟩ : ∃ s, after (halving (some .int) (some .string)) 41
      (start defaultEntry (halving (some .int) (some .string)) ⟨[], none⟩) = .running s ∧
      s.callsInProgress = 2 ∧ s.argumentsInProgress = 2 := ⟨_, by rfl, by rfl, by rfl⟩
  obtain ⟨heq, -, hle⟩ := callsInProgress_eq hs
  exact ⟨hfree, s, hs, hcalls, harguments, by omega, hle hfree⟩

/-! ## Calls that pass their argument on -/

/-- In frames with room for `height` more calls, `n` has the value of `n'`, and when its evaluation comes
to `n'`, there are `count` more calls in progress in the same frame. -/
structure PassesOn (program : List Node) (height count : Nat) (n n' : Node) : Prop where
  descends : ∀ s : State, s.control = .eval n → s.active.depth + height ≤ maxCallDepth →
    ∃ s', Steps program (.running s) (.running s') ∧ s'.control = .eval n' ∧ s'.active = s.active ∧
      s'.callers = s.callers ∧ s'.callsInProgress = s.callsInProgress + count
  value : ∀ (k : Nat) (φs : List Still) (args : List Argument) (v : Value), height ≤ k → φs ≠ [] →
    Steady φs (eval program (enter program k) args n') v →
      Steady φs (eval program (enter program k) args n) v

theorem PassesOn.refl (height : Nat) (n : Node) : PassesOn program height 0 n n :=
  ⟨fun s hcontrol _ => ⟨s, ⟨0, rfl⟩, hcontrol, rfl, rfl, rfl⟩, fun _ _ _ _ _ _ hv => hv⟩

theorem PassesOn.trans {height c c' : Nat} {n n' n'' : Node} (h : PassesOn program height c n n')
    (h' : PassesOn program height c' n' n'') : PassesOn program height (c + c') n n'' := by
  refine ⟨fun s hcontrol hroom => ?_, fun k φs args v hk hne hv =>
    h.value k φs args v hk hne (h'.value k φs args v hk hne hv)⟩
  obtain ⟨s₁, hsteps, hcontrol₁, hactive, hcallers, hcount⟩ := h.descends s hcontrol hroom
  obtain ⟨s₂, hsteps', hcontrol₂, hactive', hcallers', hcount'⟩ :=
    h'.descends s₁ hcontrol₁ (hactive ▸ hroom)
  refine ⟨s₂, hsteps.trans hsteps', hcontrol₂, hactive'.trans hactive, hcallers'.trans hcallers, ?_⟩
  omega

/-- The value of an expression over the parameter is that of the argument. -/
theorem PassesOn.steady_enter {height c k : Nat} {sig : Signature} {t x : Token} {e : Node}
    (hparam : sig.paramIndex? x.lexeme = some 0) (h : PassesOn program height c e (.ref x))
    (hk : height ≤ k) {φs : List Still} (hne : φs ≠ []) {arg : Argument} {v : Value}
    (harg : Steady φs arg v) : Steady φs (enter program (k + 1) sig [.ret t e] [arg]) v := by
  intro m hm
  have hargs : ArgsSteady φs sig [v] [arg] := by
    refine ⟨fun hnil => absurd hnil hne, fun i w hw => ?_⟩
    cases i with
    | zero =>
        cases hw
        exact ⟨arg, rfl, harg⟩
    | succ i => cases hw
  have hx : Steady (⟨sig, [v], []⟩ :: φs) (eval program (enter program k) [arg] (.ref x)) v := by
    intro m hm
    rw [eval]
    exact lookup_param_steady hargs hparam rfl m hm
  obtain ⟨m', heval, hm', hsink⟩ :=
    h.value k _ [arg] v hk (List.cons_ne_nil _ _) hx (m.push sig) (hm.push sig [v])
  refine ⟨(m'.record (.ret t e) v).pop, ?_, (hm'.record (.ret t e) v).pop hne, ?_⟩
  · rw [enter, runBody_single _ _ _ _ _ (by simp), eval, heval]
    rfl
  · rw [pop_sink]
    exact hsink

/-- A call of a function that returns the value of an expression over its parameter. -/
theorem PassesOn.call {height c : Nat} {sig : Signature} {name t x : Token} {e : Node}
    (hfound : findFunction? program name.lexeme = some (sig, [.ret t e]))
    (hparam : sig.paramIndex? x.lexeme = some 0) (h : PassesOn program height c e (.ref x)) (n : Node) :
    PassesOn program (height + 1) (c + 1) (.call name [n]) n := by
  refine ⟨fun s hcontrol hroom => ?_, fun k φs args v hk hne hv => ?_⟩
  · -- Into the function, down to its parameter, and back up to this frame for the argument.
    obtain ⟨control, active, callers, sink, ps⟩ := s
    cases hcontrol
    let callee : Activation := ⟨⟨sig, [], []⟩, [n], active.depth + 1⟩
    let s₁ : State := ⟨.eval e, callee, active :: callers, sink, .log (.ret t e) [] :: .leave :: ps⟩
    have hroom' : ¬active.depth + 1 > maxCallDepth := by
      have : active.depth + (height + 1) ≤ maxCallDepth := hroom
      omega
    have hinto : Steps program (.running ⟨.eval (.call name [n]), active, callers, sink, ps⟩)
        (.running s₁) := by
      refine ⟨3, ?_⟩
      have hcall : step program ⟨.eval (.call name [n]), active, callers, sink, ps⟩ =
          .running ⟨.exec [.ret t e], callee, active :: callers, sink, .leave :: ps⟩ := by
        simp only [step, State.eval, hfound, State.enter, if_neg hroom']
        rfl
      rw [after, hcall]
      rfl
    obtain ⟨s₂, hsteps, hcontrol₂, hactive₂, hcallers₂, hcount₂⟩ := h.descends s₁ rfl (by
      show active.depth + 1 + height ≤ maxCallDepth
      have : active.depth + (height + 1) ≤ maxCallDepth := hroom
      omega)
    refine ⟨⟨.eval n, active, callers, s₂.sink, .cache x.lexeme callee :: s₂.pending⟩,
      hinto.trans (hsteps.trans ⟨1, ?_⟩), rfl, rfl, rfl, ?_⟩
    · obtain ⟨control₂, active₂, callers₂, sink₂, ps₂⟩ := s₂
      cases hcontrol₂
      cases hactive₂
      cases hcallers₂
      have hstep : (⟨.eval (.ref x), callee, active :: callers, sink₂, ps₂⟩ : State).lookup x =
          ⟨.eval n, active, callers, sink₂, .cache x.lexeme callee :: ps₂⟩ := by
        simp [State.lookup, callee, hparam]
      exact congrArg Stage.running hstep
    · simp only [State.callsInProgress] at hcount₂ ⊢
      rw [entered_cache, hcount₂]
      have hbelow : entered s₁.pending = entered ps + 1 := by
        show entered (.log (.ret t e) [] :: .leave :: ps) = entered ps + 1
        rw [entered, List.countP_cons_of_neg Bool.false_ne_true]
        exact entered_leave ps
      omega
  · obtain ⟨k, rfl⟩ : ∃ k', k = k' + 1 := ⟨k - 1, by omega⟩
    intro m hm
    rw [eval, hfound]
    simp only [suspend_eq_map, List.map_cons, List.map_nil]
    exact h.steady_enter hparam (Nat.le_of_succ_le_succ hk) hne hv m hm

/-- `n` inside `k` calls of a function. -/
def wrapped (name : Token) (n : Node) : Nat → Node
  | 0 => n
  | k + 1 => .call name [wrapped name n k]

theorem PassesOn.wrapped {height c : Nat} {name : Token}
    (h : ∀ n, PassesOn program height c (.call name [n]) n) (n : Node) (k : Nat) :
    PassesOn program height (k * c) (wrapped name n k) n := by
  induction k with
  | zero =>
      rw [Nat.zero_mul]
      exact .refl height n
  | succ k ih =>
      rw [Nat.succ_mul, Nat.add_comm]
      exact (h (Run.wrapped name n k)).trans ih

/-- The run of a program that prints such an expression comes to its innermost argument. -/
theorem PassesOn.reached {entry : Bytes} {sink : Sink} {height c : Nat} {sig : Signature} {t : Token}
    {n n' : Node} (hfound : findFunction? program entry = some (sig, [.print t [n]]))
    (h : PassesOn program height c n n') (hroom : height ≤ maxCallDepth) :
    ∃ k s, after program k (start entry program sink) = .running s ∧ s.callsInProgress = c := by
  let s₀ : State := ⟨.eval n, ⟨⟨sig, [], []⟩, [], 0⟩, [], sink, [.emit t, .log (.print t [n]) []]⟩
  have hstart : after program 2 (start entry program sink) = .running s₀ := by
    rw [start, hfound]
    rfl
  obtain ⟨s, ⟨k, hk⟩, -, -, -, hcount⟩ := h.descends s₀ rfl (by simpa [s₀] using hroom)
  refine ⟨2 + k, s, ?_, ?_⟩
  · rw [after_add, hstart, hk]
  · have hnone : s₀.callsInProgress = 0 := rfl
    omega

/-- It goes on to its end if the argument is a number. -/
theorem PassesOn.run_eq {entry : Bytes} {sink sink' : Sink} {height c : Nat} {sig : Signature}
    {t lit : Token} {n : Node} {i : Int32}
    (hfound : findFunction? program entry = some (sig, [.print t [n]]))
    (h : PassesOn program height c n (.int lit i)) (hroom : height ≤ maxCallDepth)
    (hsink : sink.write (.int i) = some sink') :
    (run entry program sink).result = .ok .void ∧ (run entry program sink).sink = sink' := by
  let φs : List Still := [⟨sig, [], []⟩]
  have hlit : Steady φs (eval program (enter program maxCallDepth) [] (.int lit i)) (.int i) :=
    fun m hm => ⟨m, rfl, hm, rfl⟩
  have hfirst : MachineStill φs ⟨⟨sig, [], []⟩, [], sink⟩ :=
    .cons ⟨rfl, fun _ _ hnone => (by cases hnone), rfl⟩ .nil
  obtain ⟨m, heval, -, hm⟩ := h.value maxCallDepth φs [] (.int i) hroom (List.cons_ne_nil _ _) hlit _ hfirst
  have hwrite : m.sink.write (.int i) = some sink' := hm ▸ hsink
  have hprint : eval program (enter program maxCallDepth) [] (.print t [n])
      ⟨⟨sig, [], []⟩, [], sink⟩ = .ok (.void, { m with sink := sink' }) := by
    simp only [eval, heval, emit, Value.isValid, hwrite, if_true]
  rw [run, hfound]
  simp only [runBody_single _ _ _ (.print t [n]) _ (by simp), hprint]
  exact ⟨rfl, rfl⟩

end

end Run

namespace Parsing

/-- `value` as a function of the number `x`. -/
def passing (name : String) (value : Node) : Node :=
  .func ⟨named name, [⟨false, named "x", some .int⟩], some .int⟩
    [.ret (fixed (.keyword .returning)) value]

def passingWords (name : String) (value : List String) : List String :=
  ["func", name, "(", "x", ":", "Int", ")", "->", "Int", "\x7b", "return"] ++ value ++ ["\x7d"]

/-- The number `x` inside four calls of a function. -/
def fourfold (name : String) : Node := Run.wrapped (named name) (.ref (named "x")) 4

def fourfoldWords (name : String) : List String :=
  [name, "(", name, "(", name, "(", name, "(", "x", ")", ")", ")", ")"]

/-- Functions, and the functions that they call. -/
def storeys : List (String × String) :=
  [("b", "a"), ("c", "b"), ("d", "c"), ("e", "d"), ("f", "e"), ("g", "f"), ("h", "g")]

/-- The tokens of a program with eight functions, each of which calls the one before it four times over:
```
func main() { print(h(1)) }
func a(x: Int) -> Int { return x }
func b(x: Int) -> Int { return a(a(a(a(x)))) }
func c(x: Int) -> Int { return b(b(b(b(x)))) }
```
and so on. -/
def nestingTokens : List Token :=
  spelled (["func", "main", "(", ")", "\x7b", "print", "(", "h", "(", "1", ")", ")", "\x7d"] ++
    passingWords "a" ["x"] ++ storeys.flatMap fun (f, g) => passingWords f (fourfoldWords g))

def nesting : List Node :=
  .func ⟨named "main", [], some .void⟩
      [.print (fixed (.keyword .printing)) [.call (named "h") [.int ⟨.int, utf8 "1", Pos.start⟩ 1]]] ::
    passing "a" (.ref (named "x")) :: storeys.map fun (f, g) => passing f (fourfold g)

end Parsing

namespace Run

open Parsing

/-- The next function of `nesting` makes four times as many calls, and one. -/
theorem passesOn_storey {f g : String} {height c : Nat}
    (hfound : findFunction? nesting (utf8 f) = some (⟨named f, [⟨false, named "x", some .int⟩],
      some .int⟩, [.ret (fixed (.keyword .returning)) (fourfold g)]))
    (h : ∀ n, PassesOn nesting height c (.call (named g) [n]) n) (n : Node) :
    PassesOn nesting (height + 1) (4 * c + 1) (.call (named f) [n]) n :=
  .call hfound (by rfl) (.wrapped h (.ref (named "x")) 4) n

theorem passesOn_nesting (n : Node) : PassesOn nesting 8 21845 (.call (named "h") [n]) n := by
  have ha : ∀ n, PassesOn nesting 1 1 (.call (named "a") [n]) n :=
    PassesOn.call (by rfl) (by rfl) (.refl 0 (.ref (named "x")))
  have hb := passesOn_storey (f := "b") (by rfl) ha
  have hc := passesOn_storey (f := "c") (by rfl) hb
  have hd := passesOn_storey (f := "d") (by rfl) hc
  have he := passesOn_storey (f := "e") (by rfl) hd
  have hf := passesOn_storey (f := "f") (by rfl) he
  have hg := passesOn_storey (f := "g") (by rfl) hf
  exact passesOn_storey (f := "h") (by rfl) hg n

set_option maxRecDepth 2000 in
theorem parse_nestingTokens : parse nestingTokens = .ok nesting := by rfl

/-- Calls can nest deeper than `maxCallDepth`, in frames that are at most eight deep, and the run goes on
to its end. -/
theorem calls_nest_deeper :
    parse nestingTokens = .ok nesting ∧ Typing.analyze defaultEntry nesting = .ok nesting ∧
      (∃ k s, after nesting k (start defaultEntry nesting ⟨[], none⟩) = .running s ∧
        s.callsInProgress = 21845 ∧ maxCallDepth < s.callsInProgress) ∧
      (run defaultEntry nesting ⟨[], none⟩).result = .ok .void := by
  have hmain : findFunction? nesting defaultEntry = some (⟨named "main", [], some .void⟩,
      [.print (fixed (.keyword .printing)) [.call (named "h") [.int ⟨.int, utf8 "1", Pos.start⟩ 1]]]) := by
    rfl
  have h := passesOn_nesting (.int ⟨.int, utf8 "1", Pos.start⟩ 1)
  refine ⟨parse_nestingTokens, by rfl, ?_, (h.run_eq hmain (by decide) rfl).1⟩
  obtain ⟨k, s, hs, hcount⟩ := h.reached hmain (by decide)
  exact ⟨k, s, hs, hcount, hcount ▸ by decide⟩

end Run

end Swiftlet
