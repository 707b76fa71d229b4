import Swiftlet.Proofs.Run.Typed

/-!
# Arguments that can wait

An argument is evaluated in its caller's frame when the callee first reads it. Literals, names, sums,
differences and products come to the same value whenever that is: while the callee runs, its caller
logs nothing, and what a frame knows of its parameters does not change.

* `Node.isPlain` — such an expression; `PlainArguments` says that a program has no other arguments.
* `Still` — what stays the same in a frame that waits: its function, the values of its parameters,
  read or not, and its log. `MachineStill` says it of all frames of a machine.
* `Steady` — an argument comes to the same value in every machine with the same still frames, writes
  nothing and leaves the frames as they are.

Principal results: `lookup_param_steady`, `lookup_var_steady` and `eval_plain_steady`.
-/

namespace Swiftlet

open Typing

/-- Literals, names, and sums, differences and products of such. -/
def Node.isPlain : Node → Bool
  | .int .. | .float .. | .bool .. | .string .. | .ref _ => true
  | .binary left op right => op.kind ≠ .operator .slash && left.isPlain && right.isPlain
  | _ => false

mutual

/-- The arguments of the calls in a node. -/
def Node.arguments : Node → List Node
  | .assign _ value => value.arguments
  | .binary left _ right => left.arguments ++ right.arguments
  | .call _ args => args ++ argumentsIn args
  | .func _ body => argumentsIn body
  | .cond _ condition body => condition.arguments ++ argumentsIn body
  | .ret _ value => value.arguments
  | .print _ args => argumentsIn args
  | _ => []

/-- The arguments of the calls in a list of nodes. -/
def argumentsIn : List Node → List Node
  | [] => []
  | n :: rest => n.arguments ++ argumentsIn rest

end

/-- Every argument of a call is plain. -/
def PlainArguments (program : List Node) : Prop := ∀ a ∈ argumentsIn program, a.isPlain = true

theorem arguments_subset_argumentsIn {n : Node} {ns : List Node} (h : n ∈ ns) :
    n.arguments ⊆ argumentsIn ns := by
  induction h with
  | head => exact List.subset_append_left _ _
  | tail _ _ ih => exact List.Subset.trans ih (List.subset_append_right _ _)

section

variable {program : List Node} {s : Signature} {Γ : Scope}

theorem Typing.BodyTyped.argumentsIn_eq {ns ns' : List Node} (h : BodyTyped program s Γ ns ns') :
    argumentsIn ns' = argumentsIn ns := by
  induction h with
  | nil Γ => rfl
  | expr _ _ ih => rw [argumentsIn, argumentsIn, ih]
  | assign _ _ _ _ _ ih =>
      rw [argumentsIn, argumentsIn, ih, Node.arguments, Node.arguments]
  | print _ _ _ _ _ ih => rw [argumentsIn, argumentsIn, ih]
  | ret _ _ _ _ ih => rw [argumentsIn, argumentsIn, ih]
  | cond _ _ _ _ ihb ih =>
      rw [argumentsIn, argumentsIn, ih, Node.arguments, Node.arguments, ihb]

theorem Typing.argumentsIn_of_items {ns ns' : List Node}
    (h : List.Forall₂ (ItemTyped program) ns ns') : argumentsIn ns' = argumentsIn ns := by
  induction h with
  | nil => rfl
  | cons hitem _ ih =>
      rw [argumentsIn, argumentsIn, ih]
      cases hitem with
      | signature _ => rfl
      | func _ _ hbody => rw [Node.arguments, Node.arguments, hbody.argumentsIn_eq]

theorem PlainArguments.resolved {entry : Bytes} {tree : List Node} (hp : PlainArguments program)
    (h : WellTyped entry program tree) : PlainArguments tree := by
  intro a ha
  rw [argumentsIn_of_items h.items] at ha
  exact hp a ha

end

namespace Run

/-! ## Frames that wait -/

/-- A frame as long as nothing is logged in it. -/
structure Still where
  signature : Signature
  /-- The values of the parameters, whether or not they have been read. -/
  values : List Value
  log : Log

structure FrameStill (φ : Still) (f : Frame) : Prop where
  signature : f.signature = φ.signature
  cache : ∀ x v, f.cache.lookup x = some v →
    ∃ i, φ.signature.paramIndex? x = some i ∧ φ.values[i]? = some v
  log : f.log = φ.log

def MachineStill (φs : List Still) (m : Machine) : Prop :=
  List.Forall₂ FrameStill φs (m.frame :: m.callers)

/-- The argument `e` has the value `v` in the frames `φs`. -/
def Steady (φs : List Still) (e : Argument) (v : Value) : Prop :=
  ∀ m, MachineStill φs m → ∃ m', e m = .ok (v, m') ∧ MachineStill φs m' ∧ m'.sink = m.sink

/-- The arguments of a frame have the values of its parameters in the frames of its callers. The entry
function has no parameters. -/
structure ArgsSteady (callers : List Still) (s : Signature) (values : List Value)
    (args : List Argument) : Prop where
  entry : callers = [] → s.params = []
  steady : ∀ (i : Nat) (v : Value), values[i]? = some v →
    ∃ arg, args[i]? = some arg ∧ Steady callers arg v

section

variable {φ : Still} {rest : List Still} {m : Machine}

theorem MachineStill.push {φs : List Still} (h : MachineStill φs m) (s : Signature)
    (values : List Value) : MachineStill (⟨s, values, []⟩ :: φs) (m.push s) :=
  .cons ⟨rfl, fun _ _ hx => (nomatch hx), rfl⟩ h

theorem MachineStill.pop (hne : rest ≠ []) (h : MachineStill (φ :: rest) m) :
    MachineStill rest m.pop := by
  obtain ⟨frame, callers, sink⟩ := m
  cases h with
  | cons _ hrest =>
      cases hrest with
      | nil => exact absurd rfl hne
      | cons hcaller hcallers => exact .cons hcaller hcallers

theorem MachineStill.record (h : MachineStill (φ :: rest) m) (n : Node) (v : Value) :
    MachineStill ({ φ with log := (n, v) :: φ.log } :: rest) (m.record n v) := by
  cases h with
  | cons hf hrest =>
      refine .cons ⟨hf.signature, hf.cache, ?_⟩ hrest
      rw [← hf.log]
      rfl

theorem pop_sink (m : Machine) : m.pop.sink = m.sink := by
  obtain ⟨frame, callers, sink⟩ := m
  cases callers <;> rfl

/-! ## Names -/

variable {args : List Argument}

/-- **A parameter has its value, read or not.** -/
theorem lookup_param_steady (hargs : ArgsSteady rest φ.signature φ.values args) {name : Token}
    {i : Nat} {v : Value} (hi : φ.signature.paramIndex? name.lexeme = some i)
    (hv : φ.values[i]? = some v) : Steady (φ :: rest) (lookup args name) v := by
  rintro ⟨frame, callers, sink⟩ hm
  cases hm with
  | cons hf hrest =>
  have hsig : frame.signature = φ.signature := hf.signature
  unfold lookup
  cases hcache : frame.cache.lookup name.lexeme with
  | some v' =>
      obtain ⟨j, hj, hv'⟩ := hf.cache _ _ hcache
      rw [hi, Option.some.injEq] at hj
      subst hj
      rw [hv, Option.some.injEq] at hv'
      subst hv'
      exact ⟨_, rfl, .cons hf hrest, rfl⟩
  | none =>
      cases hrest with
      | nil =>
          simp [Signature.paramIndex?, hargs.entry rfl] at hi
      | @cons ψ caller rest callers hcaller hcallers =>
          obtain ⟨arg, harg, hsteady⟩ := hargs.steady i v hv
          obtain ⟨outer, hout, houter, hsink⟩ :=
            hsteady ⟨caller, callers, sink⟩ (.cons hcaller hcallers)
          simp only [hsig, hi, harg, hout]
          refine ⟨_, rfl, .cons ⟨rfl, ?_, hf.log⟩ houter, hsink⟩
          intro x w hx
          have hx : List.lookup x ((name.lexeme, v) :: frame.cache) = some w := hx
          rw [List.lookup_cons] at hx
          split at hx
          · rename_i heq
            cases hx
            rw [eq_of_beq heq]
            exact ⟨i, hi, hv⟩
          · exact hf.cache x w hx

/-- **A binding has the value that was logged last.** -/
theorem lookup_var_steady {name : Token} (hname : name.lexeme ∉ namesOf φ.signature.params)
    {v : Value} (hv : latestBinding? name.lexeme φ.log = some v) :
    Steady (φ :: rest) (lookup args name) v := by
  rintro ⟨frame, callers, sink⟩ hm
  cases hm with
  | cons hf hrest =>
  have hsig : frame.signature = φ.signature := hf.signature
  have hlog : frame.log = φ.log := hf.log
  have hnone := paramIndex?_eq_none hname
  unfold lookup
  cases hcache : frame.cache.lookup name.lexeme with
  | some v' =>
      obtain ⟨j, hj, -⟩ := hf.cache _ _ hcache
      rw [hnone] at hj
      cases hj
  | none =>
      simp only [hsig, hlog, hnone, hv]
      exact ⟨_, rfl, .cons hf hrest, rfl⟩

/-! ## Plain expressions -/

/-- A frame that waits, with the types of what it knows. -/
structure StillTyped (φ : Still) (Γ : Scope) : Prop where
  nodup : (namesOf φ.signature.params ++ Γ.names).Nodup
  params : ∀ (i : Nat) (p : Decl) (t : Ty), φ.signature.params[i]? = some p → p.type = some t →
    ∃ v, φ.values[i]? = some v ∧ v.type? = some t
  vars : ∀ x t, (x, t) ∈ Γ → ∃ v, latestBinding? x φ.log = some v ∧ v.type? = some t

theorem StillTyped.not_param {Γ : Scope} (h : StillTyped φ Γ) {x : Bytes} {t : Ty}
    (hx : (x, t) ∈ Γ) : x ∉ namesOf φ.signature.params := fun hmem =>
  (List.nodup_append.1 h.nodup).2.2 _ hmem _ (List.mem_map.2 ⟨_, hx, rfl⟩) rfl

theorem Steady.binary {program : List Node} {enter : Enter} {φs : List Still} {l r : Node}
    {op : Token} {a b v : Value} (hl : Steady φs (eval program enter args l) a)
    (hr : Steady φs (eval program enter args r) b) (hv : operate op a b = .ok v) :
    Steady φs (eval program enter args (.binary l op r)) v := by
  intro m hm
  obtain ⟨m₁, heval, hm₁, hsink⟩ := hl m hm
  obtain ⟨m₂, heval', hm₂, hsink'⟩ := hr m₁ hm₁
  refine ⟨m₂, ?_, hm₂, hsink'.trans hsink⟩
  simp only [eval, heval, heval', hv]

/-- Sums, differences and products of numbers of one type are defined. -/
theorem operate_plain {op : Token} {o : Operator} (hop : op.kind = .operator o) (ho : o ≠ .slash)
    {t : Ty} (ht : t.isNumeric = true) {a b : Value} (ha : a.type? = some t)
    (hb : b.type? = some t) : ∃ v, operate op a b = .ok v ∧ v.type? = some t := by
  cases t with
  | int =>
      cases a <;> cases ha
      cases b <;> cases hb
      cases o with
      | slash => exact absurd rfl ho
      | _ =>
          simp only [operate, hop, intOperation]
          exact ⟨_, rfl, rfl⟩
  | float =>
      cases a <;> cases ha
      cases b <;> cases hb
      simp only [operate, hop]
      exact ⟨_, rfl, rfl⟩
  | _ => cases ht

/-- **A plain expression comes to the same value whenever it is evaluated**, and however the values of
the parameters are come by. -/
theorem eval_plain_steady {program : List Node} {Γ : Scope} (hφ : StillTyped φ Γ) {n : Node} {t : Ty}
    (h : HasType program φ.signature Γ n t) {P : Token → Prop} (hn : n.IsExpr P)
    (hplain : n.isPlain = true) :
    ∃ v, v.type? = some t ∧ ∀ (enter : Enter) (args : List Argument),
      ArgsSteady rest φ.signature φ.values args → Steady (φ :: rest) (eval program enter args n) v := by
  induction h with
  | int | float | bool | string =>
      exact ⟨_, rfl, fun enter args _ m hm => ⟨m, by rw [eval], hm, rfl⟩⟩
  | @param name p t hp hname ht =>
      obtain ⟨i, hi, hget⟩ := paramIndex?_of_mem (List.nodup_append.1 hφ.nodup).1 hp
      obtain ⟨v, hv, htype⟩ := hφ.params i p t hget ht
      rw [hname] at hi
      refine ⟨v, htype, fun enter args hargs m hm => ?_⟩
      rw [eval]
      exact lookup_param_steady hargs hi hv m hm
  | @var name t hname =>
      obtain ⟨v, hv, htype⟩ := hφ.vars _ _ hname
      refine ⟨v, htype, fun enter args _ m hm => ?_⟩
      rw [eval]
      exact lookup_var_steady (hφ.not_param hname) hv m hm
  | binary op ht _ _ ihl ihr =>
      cases hn with
      | binary o hop _ hl hr =>
      simp only [Node.isPlain, Bool.and_eq_true, decide_eq_true_eq, hop] at hplain
      obtain ⟨a, hatype, ha⟩ := ihl hl hplain.1.2
      obtain ⟨b, hbtype, hb⟩ := ihr hr hplain.2
      obtain ⟨v, hv, htype⟩ := operate_plain hop (by simpa using hplain.1.1) ht hatype hbtype
      exact ⟨v, htype, fun enter args hargs => (ha enter args hargs).binary (hb enter args hargs) hv⟩
  | call => cases hplain

/-- The arguments of a call have steady values if the expressions have. -/
theorem ArgsSteady.of_call {program : List Node} {enter : Enter} {actuals : List Node}
    {values : List Value} (callee : Signature)
    (h : List.Forall₂ (fun a v => Steady (φ :: rest) (eval program enter args a) v) actuals values) :
    ArgsSteady (φ :: rest) callee values (suspend program enter args actuals) := by
  refine ⟨by simp, fun i v hv => ?_⟩
  have hi : i < actuals.length := by
    rw [h.length_eq]
    exact (List.getElem?_eq_some_iff.1 hv).1
  refine ⟨eval program enter args actuals[i], ?_, ?_⟩
  · rw [suspend_eq_map, List.getElem?_map, List.getElem?_eq_getElem hi, Option.map_some]
  · obtain ⟨hlt, rfl⟩ := List.getElem?_eq_some_iff.1 hv
    exact h.get hi hlt

end

end Run

end Swiftlet
