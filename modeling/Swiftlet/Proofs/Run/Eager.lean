import Swiftlet.Proofs.Run.Soundness
import Swiftlet.Proofs.Run.Steady

/-!
# Arguments evaluated before the call

`runEager` runs a program like `run`, except that a call evaluates all its arguments, left to right
and in the caller's frame, before the callee is entered. Where arguments are plain nobody can tell the
two apart.

* `evaluateAll` and `enterEager` — the arguments of a call, and the call.
* `Alike` — two machines with the same still frames and the same output. What has been read of a
  frame's parameters may differ.
* `Agrees` — two outcomes are the same value of a kind, or the same failure, in machines that are
  alike.

Principal results: `eval_agrees`, `runBody_agrees` and `enter_agrees`.
-/

namespace Swiftlet

open Typing

namespace Run

/-! ## Eager calls -/

/-- An argument whose value is known. -/
def given (v : Value) : Argument := fun m => .ok (v, m)

/-- The values of arguments, left to right. -/
def evaluateAll : List Argument → Machine → Outcome (List Value)
  | [], m => .ok ([], m)
  | arg :: rest, m =>
    match arg m with
    | .error e => .error e
    | .ok (v, m) =>
      match evaluateAll rest m with
      | .error e => .error e
      | .ok (vs, m) => .ok (v :: vs, m)

/-- Evaluates the arguments in the caller's frame, then runs the body in a new frame, with at most
`depth` frames from there on. -/
def enterEager (program : List Node) : Nat → Enter
  | 0, _, _, args, m =>
    match evaluateAll args m with
    | .error e => .error e
    | .ok (_, m) => .error (.callDepth, m)
  | depth + 1, s, body, args, m =>
    match evaluateAll args m with
    | .error e => .error e
    | .ok (values, m) =>
      match runBody program (enterEager program depth) (values.map given) body (m.push s) with
      | .error (e, m) => .error (e, m.pop)
      | .ok ((v, returned), m) => .ok (if returned then v else .void, m.pop)

/-- Runs the entry function with eager calls, writing to `sink`. -/
def runEager (entry : Bytes) (program : List Node) (sink : Sink) : Report :=
  match findFunction? program entry with
  | none => ⟨.error (.breach (.noEntry entry) (Token.bare Pos.zero)), sink, []⟩
  | some (s, body) =>
    match runBody program (enterEager program maxCallDepth) [] body ⟨⟨s, [], []⟩, [], sink⟩ with
    | .error (e, m) => ⟨.error e, m.sink, m.frame.log.reverse⟩
    | .ok ((v, _), m) => ⟨.ok v, m.sink, m.frame.log.reverse⟩

/-! ## Agreement -/

/-- Two machines with the same still frames that have written the same. -/
structure Alike (φs : List Still) (m m' : Machine) : Prop where
  left : MachineStill φs m
  right : MachineStill φs m'
  sink : m'.sink = m.sink

/-- Two outcomes are the same, a failure or a value that satisfies `Q`, in machines that are alike. -/
def Agrees {α : Type} (φs : List Still) (Q : α → Prop) : Outcome α → Outcome α → Prop
  | .ok (a, m), .ok (a', m') => a' = a ∧ Q a ∧ Alike φs m m'
  | .error (e, m), .error (e', m') => e' = e ∧ Alike φs m m'
  | _, _ => False

/-- A call gives the same with `enter` and with `enter'`, which need not get the values of the
parameters in the same way. -/
def EnterAgrees (program : List Node) (enter enter' : Enter) : Prop :=
  ∀ (s : Signature) (body : List Node) (t : Ty) (φs : List Still) (values : List Value)
    (args args' : List Argument) (m m' : Machine), .func s body ∈ program → s.ret = some t →
    φs ≠ [] → StillTyped ⟨s, values, []⟩ [] → ArgsSteady φs s values args →
    List.Forall₂ (Steady φs) args' values → Alike φs m m' →
      Agrees φs (fun v => v.type? = some t) (enter s body args m) (enter' s body args' m')

section

variable {φs : List Still} {m m' : Machine}

theorem Alike.push (h : Alike φs m m') (s : Signature) (values : List Value) :
    Alike (⟨s, values, []⟩ :: φs) (m.push s) (m'.push s) :=
  ⟨h.left.push s values, h.right.push s values, h.sink⟩

theorem Alike.pop {φ : Still} (hne : φs ≠ []) (h : Alike (φ :: φs) m m') :
    Alike φs m.pop m'.pop :=
  ⟨h.left.pop hne, h.right.pop hne, by rw [pop_sink, pop_sink, h.sink]⟩

theorem Alike.record {φ : Still} (h : Alike (φ :: φs) m m') (n : Node) (v : Value) :
    Alike ({ φ with log := (n, v) :: φ.log } :: φs) (m.record n v) (m'.record n v) :=
  ⟨h.left.record n v, h.right.record n v, h.sink⟩

/-- The running frames have the same log. -/
theorem Alike.log {φ : Still} (h : Alike (φ :: φs) m m') : m'.frame.log = m.frame.log := by
  cases h.left with
  | cons hf _ =>
      cases h.right with
      | cons hf' _ => rw [hf'.log, hf.log]

/-- Steady arguments of the same value agree. -/
theorem Steady.agrees {e e' : Argument} {v : Value} {Q : Value → Prop} (h : Steady φs e v)
    (h' : Steady φs e' v) (hv : Q v) (hm : Alike φs m m') : Agrees φs Q (e m) (e' m') := by
  obtain ⟨m₁, heval, hstill, hsink⟩ := h m hm.left
  obtain ⟨m₁', heval', hstill', hsink'⟩ := h' m' hm.right
  rw [heval, heval']
  exact ⟨rfl, hv, hstill, hstill', by rw [hsink, hsink', hm.sink]⟩

theorem evaluateAll_steady {args : List Argument} {values : List Value}
    (h : List.Forall₂ (Steady φs) args values) :
    ∀ m, MachineStill φs m →
      ∃ m', evaluateAll args m = .ok (values, m') ∧ MachineStill φs m' ∧ m'.sink = m.sink := by
  induction h with
  | nil => exact fun m hm => ⟨m, rfl, hm, rfl⟩
  | cons harg _ ih =>
      intro m hm
      obtain ⟨m₁, heval, hm₁, hsink⟩ := harg m hm
      obtain ⟨m₂, hrest, hm₂, hsink'⟩ := ih m₁ hm₁
      refine ⟨m₂, ?_, hm₂, hsink'.trans hsink⟩
      simp only [evaluateAll, heval, hrest]

/-- Arguments whose values are known are steady. -/
theorem ArgsSteady.given (hne : φs ≠ []) (s : Signature) (values : List Value) :
    ArgsSteady φs s values (values.map given) := by
  refine ⟨fun h => absurd h hne, fun i v hv => ⟨Run.given v, ?_, fun m hm => ⟨m, rfl, hm, rfl⟩⟩⟩
  rw [List.getElem?_map, hv, Option.map_some]

theorem Agrees.cases {α : Type} {Q : α → Prop} {o o' : Outcome α} (h : Agrees φs Q o o') :
    (∃ e m m', o = .error (e, m) ∧ o' = .error (e, m') ∧ Alike φs m m') ∨
      ∃ a m m', o = .ok (a, m) ∧ o' = .ok (a, m') ∧ Q a ∧ Alike φs m m' := by
  rcases o with ⟨e, m⟩ | ⟨a, m⟩ <;> rcases o' with ⟨e', m'⟩ | ⟨a', m'⟩
  · obtain ⟨rfl, hm⟩ := h
    exact .inl ⟨_, m, m', rfl, rfl, hm⟩
  · cases h
  · cases h
  · obtain ⟨rfl, ha, hm⟩ := h
    exact .inr ⟨_, m, m', rfl, rfl, ha, hm⟩

end

/-! ## Expressions -/

theorem operate_type {op : Token} {o : Operator} {l r v : Value} {t : Ty}
    (hop : op.kind = .operator o) (ht : t.isNumeric = true) (hl : l.type? = some t)
    (hr : r.type? = some t) (hv : operate op l r = .ok v) : v.type? = some t := by
  cases t with
  | int =>
      cases l <;> cases hl
      cases r <;> cases hr
      simp only [operate, hop] at hv
      split at hv <;> cases hv
      rfl
  | float =>
      cases l <;> cases hl
      cases r <;> cases hr
      simp only [operate, hop] at hv
      cases hv
      rfl
  | _ => cases ht

section

variable {program : List Node} {φ : Still} {rest : List Still} {Γ : Scope} {P : Token → Prop}

/-- The arguments of a call have values of their types, however the parameters are come by. -/
theorem exists_values (hφ : StillTyped φ Γ) {actuals : List Node} {ts : List Ty}
    (hlength : actuals.length = ts.length)
    (htypes : ∀ p ∈ actuals.zip ts, HasType program φ.signature Γ p.1 p.2)
    (hexprs : ∀ a ∈ actuals, a.IsExpr P) (hplain : ∀ a ∈ actuals, a.isPlain = true) :
    ∃ values : List Value, List.Forall₂ (fun v t => v.type? = some t) values ts ∧
      ∀ (enter : Enter) (args : List Argument), ArgsSteady rest φ.signature φ.values args →
        List.Forall₂ (fun a v => Steady (φ :: rest) (eval program enter args a) v) actuals values := by
  induction actuals generalizing ts with
  | nil =>
      cases ts with
      | nil => exact ⟨[], .nil, fun _ _ _ => .nil⟩
      | cons t ts => cases hlength
  | cons a actuals ih =>
      cases ts with
      | nil => cases hlength
      | cons t ts =>
          rw [List.zip_cons_cons, List.forall_mem_cons] at htypes
          rw [List.forall_mem_cons] at hexprs hplain
          obtain ⟨v, hv, hsteady⟩ := eval_plain_steady hφ htypes.1 hexprs.1 hplain.1
          obtain ⟨values, hvalues, hsteadies⟩ :=
            ih (Nat.succ.inj hlength) htypes.2 hexprs.2 hplain.2
          exact ⟨v :: values, .cons hv hvalues, fun enter args hargs =>
            .cons (hsteady enter args hargs) (hsteadies enter args hargs)⟩

/-- The frame of a callee whose arguments have values of their types. -/
theorem StillTyped.of_call {callee : Signature} (hnodup : (namesOf callee.params).Nodup)
    {ts : List Ty} {values : List Value} (hparams : callee.params.map Decl.type = ts.map some)
    (hvalues : List.Forall₂ (fun v t => v.type? = some t) values ts) :
    StillTyped ⟨callee, values, []⟩ [] := by
  refine ⟨by simpa using hnodup, fun i p t hp ht => ?_, fun x t hx => nomatch hx⟩
  obtain ⟨v, hv, hmem⟩ := actual_of_param hparams hvalues.length_eq hp ht
  exact ⟨v, hv, (List.forall₂_iff_zip.1 hvalues).2 hmem⟩

/-- **A well-typed expression comes to the same with either kind of call.** -/
theorem eval_agrees (hready : Ready program) {enter enter' : Enter}
    (henter : EnterAgrees program enter enter') {args args' : List Argument}
    (hargs : ArgsSteady rest φ.signature φ.values args)
    (hargs' : ArgsSteady rest φ.signature φ.values args') (hφ : StillTyped φ Γ) {n : Node} {t : Ty}
    (h : HasType program φ.signature Γ n t) (hn : n.IsExpr P)
    (hcalls : ∀ x ∈ n.calls, HasBody program x) (hplain : ∀ a ∈ n.arguments, a.isPlain = true)
    {m m' : Machine} (hm : Alike (φ :: rest) m m') :
    Agrees (φ :: rest) (fun v => v.type? = some t) (eval program enter args n m)
      (eval program enter' args' n m') := by
  induction h generalizing m m' with
  | int | float | bool | string =>
      rw [eval, eval]
      exact ⟨rfl, rfl, hm⟩
  | @param name p t hp hname ht =>
      have htype : HasType program φ.signature Γ (.ref name) t := .param hp hname ht
      obtain ⟨v, hv, hsteady⟩ := eval_plain_steady hφ htype hn rfl
      exact (hsteady enter args hargs).agrees (hsteady enter' args' hargs') hv hm
  | @var name t hname =>
      have htype : HasType program φ.signature Γ (.ref name) t := .var hname
      obtain ⟨v, hv, hsteady⟩ := eval_plain_steady hφ htype hn rfl
      exact (hsteady enter args hargs).agrees (hsteady enter' args' hargs') hv hm
  | binary op ht _ _ ihl ihr =>
      cases hn with
      | binary o hop _ hl hr =>
      rw [Node.calls, List.forall_mem_append] at hcalls
      rw [Node.arguments, List.forall_mem_append] at hplain
      rw [eval, eval]
      obtain ⟨e, m₁, m₁', heval, heval', hm₁⟩ | ⟨a, m₁, m₁', heval, heval', ha, hm₁⟩ :=
        (ihl hl hcalls.1 hplain.1 hm).cases
      · simp only [heval, heval']
        exact ⟨rfl, hm₁⟩
      simp only [heval, heval']
      obtain ⟨e, m₂, m₂', heval, heval', hm₂⟩ | ⟨b, m₂, m₂', heval, heval', hb, hm₂⟩ :=
        (ihr hr hcalls.2 hplain.2 hm₁).cases
      · simp only [heval, heval']
        exact ⟨rfl, hm₂⟩
      simp only [heval, heval']
      cases hv : operate op a b with
      | error e => exact ⟨rfl, hm₂⟩
      | ok v => exact ⟨rfl, operate_type hop ht ha hb hv, hm₂⟩
  | @call name actuals callee ts t hcallee hparams hlength htypes hret ih =>
      cases hn with
      | call _ hexprs =>
      rw [Node.calls, List.forall_mem_cons] at hcalls
      rw [Node.arguments, List.forall_mem_append] at hplain
      obtain ⟨body, hfound, hmem⟩ := hready.complete.findFunction?_eq hcallee hcalls.1
      obtain ⟨values, hvalues, hsteady⟩ := exists_values hφ hlength htypes hexprs hplain.1
      simp only [eval, hfound]
      refine henter callee body t _ values _ _ m m' hmem hret (List.cons_ne_nil _ _)
        (.of_call (hready.params_nodup hmem) hparams hvalues) (.of_call callee (hsteady _ _ hargs))
        ?_ hm
      rw [suspend_eq_map, List.forall₂_map_left_iff]
      exact hsteady _ _ hargs'

end

/-! ## Bodies -/

section

variable {s : Signature} {values : List Value} {log : Log} {Γ Δ : Scope}

theorem StillTyped.weaken (h : StillTyped ⟨s, values, log⟩ Δ) (hsub : Γ.Sublist Δ) :
    StillTyped ⟨s, values, log⟩ Γ where
  nodup := h.nodup.sublist (List.Sublist.append_left (hsub.map _) _)
  params := h.params
  vars := fun x t hx => h.vars x t (hsub.subset hx)

theorem StillTyped.record (h : StillTyped ⟨s, values, log⟩ Γ) {n : Node}
    (hn : ∀ d w, n ≠ .assign d w) (v : Value) : StillTyped ⟨s, values, (n, v) :: log⟩ Γ := by
  refine ⟨h.nodup, h.params, fun x t hx => ?_⟩
  rw [latestBinding?_record hn]
  exact h.vars x t hx

/-- After a binding is logged, its name is visible. -/
theorem StillTyped.record_assign (h : StillTyped ⟨s, values, log⟩ Γ) {d : Decl} (w : Node) {t : Ty}
    {v : Value} (hv : v.type? = some t) (hnew : d.name.lexeme ∉ namesOf s.params ++ Γ.names) :
    StillTyped ⟨s, values, (.assign d w, v) :: log⟩ ((d.name.lexeme, t) :: Γ) := by
  rw [List.mem_append, not_or] at hnew
  exact ⟨nodup_params_cons.2 ⟨hnew.1, hnew.2, h.nodup⟩, h.params,
    latestBinding?_record_assign w hv hnew.2 h.vars⟩

end

/-- What the statements `ns` of a function may come to: a value of the return type, or no value if none
of them is a `return`. -/
def BodyValue (s : Signature) (ns : List Node) (r : Value × Bool) : Prop :=
  if r.2 then r.1.type? = s.ret else r.1 = .void ∧ ∀ n ∈ ns, n.isReturn = false

/-- The statements `ns` log the same on both sides and come to the same. -/
def BodyAgrees (s : Signature) (values : List Value) (rest : List Still) (Γ : Scope)
    (ns : List Node) (o o' : Outcome (Value × Bool)) : Prop :=
  ∃ log, Agrees (⟨s, values, log⟩ :: rest)
    (fun r => StillTyped ⟨s, values, log⟩ Γ ∧ BodyValue s ns r) o o'

section

variable {program : List Node} {enter enter' : Enter} {args args' : List Argument} {s : Signature}
  {values : List Value} {rest : List Still} {log : Log} {Γ Δ : Scope} {n : Node} {ns : List Node}
  {m m' : Machine}

/-- A statement and what follows it: the statement may make a name visible. -/
theorem BodyAgrees.cons (hsub : Γ.Sublist Δ)
    (hn : BodyAgrees s values rest Δ [n] (runBody program enter args [n] m)
      (runBody program enter' args' [n] m'))
    (hns : ∀ log m m', StillTyped ⟨s, values, log⟩ Δ → Alike (⟨s, values, log⟩ :: rest) m m' →
      BodyAgrees s values rest Δ ns (runBody program enter args ns m)
        (runBody program enter' args' ns m')) :
    BodyAgrees s values rest Γ (n :: ns) (runBody program enter args (n :: ns) m)
      (runBody program enter' args' (n :: ns) m') := by
  rw [runBody_cons, runBody_cons program enter']
  obtain ⟨log, hn⟩ := hn
  obtain ⟨e, m₁, m₁', heq, heq', hm₁⟩ | ⟨⟨v, returned⟩, m₁, m₁', heq, heq', ⟨hφ, hv⟩, hm₁⟩ :=
    hn.cases
  · simp only [heq, heq']
    exact ⟨log, rfl, hm₁⟩
  cases returned with
  | true =>
      simp only [heq, heq']
      exact ⟨log, rfl, ⟨hφ.weaken hsub, hv⟩, hm₁⟩
  | false =>
      simp only [heq, heq']
      obtain ⟨log, hout⟩ := hns log m₁ m₁' hφ hm₁
      refine ⟨log, ?_⟩
      obtain ⟨e, m₂, m₂', heq, heq', hm₂⟩ | ⟨⟨w, returned⟩, m₂, m₂', heq, heq', ⟨hφ, hw⟩, hm₂⟩ :=
        hout.cases
      · rw [heq, heq']
        exact ⟨rfl, hm₂⟩
      · rw [heq, heq']
        refine ⟨rfl, ⟨hφ.weaken hsub, ?_⟩, hm₂⟩
        cases returned with
        | true => exact hw
        | false => exact ⟨hw.1, List.forall_mem_cons.2 ⟨hv.2 n List.mem_cons_self, hw.2⟩⟩

/-- A statement whose value is of type `t`, with the binding it makes. -/
theorem BodyAgrees.single {t : Ty} (hcond : ∀ token c b, n ≠ .cond token c b)
    (hout : Agrees (⟨s, values, log⟩ :: rest) (fun v => v.type? = some t)
      (eval program enter args n m) (eval program enter' args' n m'))
    (hret : n.isReturn = true → s.ret = some t)
    (hrecord : ∀ v, v.type? = some t → StillTyped ⟨s, values, (n, v) :: log⟩ Δ) :
    BodyAgrees s values rest Δ [n] (runBody program enter args [n] m)
      (runBody program enter' args' [n] m') := by
  rw [runBody_single _ _ _ _ _ hcond, runBody_single _ _ _ _ _ hcond]
  obtain ⟨e, m₁, m₁', heq, heq', hm₁⟩ | ⟨v, m₁, m₁', heq, heq', hv, hm₁⟩ := hout.cases
  · simp only [heq, heq']
    exact ⟨log, rfl, hm₁⟩
  · simp only [heq, heq']
    refine ⟨(n, v) :: log, rfl, ⟨hrecord v hv, ?_⟩, hm₁.record n v⟩
    unfold BodyValue
    cases hn : n.isReturn with
    | true => simpa [hret hn] using hv
    | false => simpa using hn

theorem branch_agrees (token : Token) {c : Node} (hφ : StillTyped ⟨s, values, log⟩ Γ)
    (hc : Agrees (⟨s, values, log⟩ :: rest) (fun v => v.type? = some .bool)
      (eval program enter args c m) (eval program enter' args' c m'))
    (hbody : ∀ m m', Alike (⟨s, values, log⟩ :: rest) m m' →
      BodyAgrees s values rest Γ ns (runBody program enter args ns m)
        (runBody program enter' args' ns m')) :
    BodyAgrees s values rest Γ []
      (branch token (eval program enter args c) (runBody program enter args ns) m)
      (branch token (eval program enter' args' c) (runBody program enter' args' ns) m') := by
  unfold branch
  obtain ⟨e, m₁, m₁', heq, heq', hm₁⟩ | ⟨v, m₁, m₁', heq, heq', hv, hm₁⟩ := hc.cases
  · simp only [heq, heq']
    exact ⟨log, rfl, hm₁⟩
  simp only [heq, heq']
  cases v with
  | bool b =>
      cases b with
      | false => exact ⟨log, rfl, ⟨hφ, rfl, by simp⟩, hm₁⟩
      | true =>
          obtain ⟨log, hout⟩ := hbody m₁ m₁' hm₁
          refine ⟨log, ?_⟩
          dsimp only
          obtain ⟨e, m₂, m₂', heq, heq', hm₂⟩ | ⟨⟨w, returned⟩, m₂, m₂', heq, heq', hw, hm₂⟩ :=
            hout.cases
          · rw [heq, heq']
            exact ⟨rfl, hm₂⟩
          · rw [heq, heq']
            refine ⟨rfl, ⟨hw.1, ?_⟩, hm₂⟩
            cases returned with
            | true => exact hw.2
            | false => exact ⟨hw.2.1, by simp⟩
  | _ => cases hv

theorem BodyAgrees.cond {token : Token} {c : Node}
    (hbranch : BodyAgrees s values rest Γ []
      (branch token (eval program enter args c) (runBody program enter args ns) m)
      (branch token (eval program enter' args' c) (runBody program enter' args' ns) m')) :
    BodyAgrees s values rest Γ [.cond token c ns] (runBody program enter args [.cond token c ns] m)
      (runBody program enter' args' [.cond token c ns] m') := by
  rw [runBody_cond, runBody_cond]
  obtain ⟨log, hbranch⟩ := hbranch
  obtain ⟨e, m₁, m₁', heq, heq', hm₁⟩ | ⟨⟨v, returned⟩, m₁, m₁', heq, heq', ⟨hφ, hv⟩, hm₁⟩ :=
    hbranch.cases
  · simp only [heq, heq']
    exact ⟨log, rfl, hm₁⟩
  · cases returned with
    | true =>
        simp only [heq, heq']
        exact ⟨_, rfl, ⟨hφ.record (by simp) v, hv⟩, hm₁.record _ v⟩
    | false =>
        simp only [heq, heq']
        exact ⟨_, rfl, ⟨hφ.record (by simp) v, rfl, by simp [Node.isReturn]⟩, hm₁.record _ v⟩

theorem print_agrees {φs : List Still} (token : Token) {a : Node} (more : List Node) {t : Ty}
    (ha : Agrees φs (fun v => v.type? = some t) (eval program enter args a m)
      (eval program enter' args' a m')) :
    Agrees φs (fun v => v.type? = some .void) (eval program enter args (.print token (a :: more)) m)
      (eval program enter' args' (.print token (a :: more)) m') := by
  rw [eval, eval]
  obtain ⟨e, m₁, m₁', heq, heq', hm₁⟩ | ⟨v, m₁, m₁', heq, heq', hv, hm₁⟩ := ha.cases
  · simp only [heq, heq']
    exact ⟨rfl, hm₁⟩
  simp only [heq, heq', emit, hm₁.sink]
  cases v.isValid with
  | false => exact ⟨rfl, hm₁⟩
  | true =>
      cases m₁.sink.write v with
      | none => exact ⟨rfl, hm₁⟩
      | some sink => exact ⟨rfl, rfl, hm₁.left, hm₁.right, rfl⟩

/-- **A well-typed body comes to the same with either kind of call.** -/
theorem runBody_agrees (hready : Ready program) (henter : EnterAgrees program enter enter')
    (hargs : ArgsSteady rest s values args) (hargs' : ArgsSteady rest s values args')
    {ns' : List Node} (h : BodyTyped program s Γ ns ns') {P : Token → Prop} :
    (∀ n ∈ ns', n.IsStatement P) → (∀ x ∈ callsIn ns', HasBody program x) →
    (∀ a ∈ argumentsIn ns', a.isPlain = true) →
    ∀ log m m', StillTyped ⟨s, values, log⟩ Γ → Alike (⟨s, values, log⟩ :: rest) m m' →
      BodyAgrees s values rest Γ ns' (runBody program enter args ns' m)
        (runBody program enter' args' ns' m') := by
  induction h with
  | nil Γ =>
      intro _ _ _ log m m' hφ hm
      rw [runBody, runBody]
      exact ⟨log, rfl, ⟨hφ, rfl, by simp⟩, hm⟩
  | @expr Γ e t ns ns' he _ ih =>
      intro hshape hcalls hplain log m m' hφ hm
      rw [List.forall_mem_cons] at hshape
      rw [callsIn, List.forall_mem_append] at hcalls
      rw [argumentsIn, List.forall_mem_append] at hplain
      have hout := eval_agrees (φ := ⟨s, values, log⟩) hready henter hargs hargs' hφ he
        (he.isExpr hshape.1) hcalls.1 hplain.1 hm
      refine .cons (.refl Γ) (.single ?_ hout ?_ ?_) (ih hshape.2 hcalls.2 hplain.2)
      · rintro token c b rfl
        cases he
      · intro hret
        cases he <;> cases hret
      · refine fun v _ => hφ.record ?_ v
        rintro d w rfl
        cases he
  | @assign Γ d v t ns ns' hv hvoid hd hnew _ ih =>
      intro hshape hcalls hplain log m m' hφ hm
      rw [List.forall_mem_cons] at hshape
      rw [callsIn, List.forall_mem_append, Node.calls] at hcalls
      rw [argumentsIn, List.forall_mem_append, Node.arguments] at hplain
      have hout := eval_agrees (φ := ⟨s, values, log⟩) hready henter hargs hargs' hφ hv
        hshape.1.assign_value hcalls.1 hplain.1 hm
      have hbinding : Agrees (⟨s, values, log⟩ :: rest) (fun w => w.type? = some t)
          (eval program enter args (.assign { d with type := some t } v) m)
          (eval program enter' args' (.assign { d with type := some t } v) m') := by
        rw [eval, eval]
        exact hout
      refine .cons (.cons _ (.refl Γ)) (.single ?_ hbinding ?_ ?_) (ih hshape.2 hcalls.2 hplain.2)
      · intro _ _ _ h
        cases h
      · intro h
        cases h
      · exact fun w hw => hφ.record_assign (d := { d with type := some t }) v hw hnew
  | @print Γ token a more t ns ns' ha hvoid _ ih =>
      intro hshape hcalls hplain log m m' hφ hm
      rw [List.forall_mem_cons] at hshape
      rw [callsIn, List.forall_mem_append, Node.calls, callsIn, List.forall_mem_append] at hcalls
      rw [argumentsIn, List.forall_mem_append, Node.arguments, argumentsIn,
        List.forall_mem_append] at hplain
      have hout := eval_agrees (φ := ⟨s, values, log⟩) hready henter hargs hargs' hφ ha
        (hshape.1.print_args a List.mem_cons_self) hcalls.1.1 hplain.1.1 hm
      refine .cons (.refl Γ) (.single ?_ (print_agrees token more hout) ?_ ?_)
        (ih hshape.2 hcalls.2 hplain.2)
      · intro _ _ _ h
        cases h
      · intro h
        cases h
      · exact fun v _ => hφ.record (by simp) v
  | @ret Γ token v t ns ns' hv hret _ ih =>
      intro hshape hcalls hplain log m m' hφ hm
      rw [List.forall_mem_cons] at hshape
      rw [callsIn, List.forall_mem_append, Node.calls] at hcalls
      rw [argumentsIn, List.forall_mem_append, Node.arguments] at hplain
      have hout := eval_agrees (φ := ⟨s, values, log⟩) hready henter hargs hargs' hφ hv
        hshape.1.ret_value hcalls.1 hplain.1 hm
      have hreturn : Agrees (⟨s, values, log⟩ :: rest) (fun w => w.type? = some t)
          (eval program enter args (.ret token v) m) (eval program enter' args' (.ret token v) m') := by
        rw [eval, eval]
        exact hout
      refine .cons (.refl Γ) (.single ?_ hreturn ?_ ?_) (ih hshape.2 hcalls.2 hplain.2)
      · intro _ _ _ h
        cases h
      · exact fun _ => hret
      · exact fun v _ => hφ.record (by simp) v
  | @cond Γ token c body body' ns ns' hc _ _ ihb ih =>
      intro hshape hcalls hplain log m m' hφ hm
      rw [List.forall_mem_cons] at hshape
      rw [callsIn, List.forall_mem_append, Node.calls, List.forall_mem_append] at hcalls
      rw [argumentsIn, List.forall_mem_append, Node.arguments, List.forall_mem_append] at hplain
      obtain ⟨hexpr, hstatements⟩ := hshape.1.cond_parts
      have hout := eval_agrees (φ := ⟨s, values, log⟩) hready henter hargs hargs' hφ hc hexpr
        hcalls.1.1 hplain.1.1 hm
      have hbody := ihb hstatements hcalls.1.2 hplain.1.2
      exact .cons (.refl Γ) (.cond (branch_agrees token hφ hout fun m m' => hbody log m m' hφ))
        (ih hshape.2 hcalls.2 hplain.2)

end

/-! ## Calls and whole programs -/

/-- **A call comes to the same whether or not its arguments are evaluated first**, however many frames
may still be added. -/
theorem enter_agrees {program : List Node} (hready : Ready program) (hplain : PlainArguments program)
    (depth : Nat) : EnterAgrees program (enter program depth) (enterEager program depth) := by
  induction depth with
  | zero =>
      intro s body t φs values args args' m m' hmem hret hne hφ hargs hargs' hm
      obtain ⟨m₁, heval, hstill, hsink⟩ := evaluateAll_steady hargs' m' hm.right
      rw [enter, enterEager]
      simp only [heval]
      exact ⟨rfl, hm.left, hstill, hsink.trans hm.sink⟩
  | succ depth ih =>
      intro s body t φs values args args' m m' hmem hret hne hφ hargs hargs' hm
      obtain ⟨m₁, heval, hstill, hsink⟩ := evaluateAll_steady hargs' m' hm.right
      have hm₁ : Alike φs m m₁ := ⟨hm.left, hstill, hsink.trans hm.sink⟩
      have harguments : ∀ a ∈ argumentsIn body, a.isPlain = true :=
        fun a ha => hplain a (arguments_subset_argumentsIn hmem ha)
      obtain ⟨log, hout⟩ := runBody_agrees hready ih hargs (.given hne s values)
        (hready.typed s body hmem) (hready.body_shape hmem) (hready.body_calls hmem) harguments
        [] _ _ hφ (hm₁.push s values)
      rw [enter, enterEager]
      simp only [heval]
      obtain ⟨e, m₂, m₂', heq, heq', hm₂⟩ | ⟨⟨v, returned⟩, m₂, m₂', heq, heq', ⟨-, hv⟩, hm₂⟩ :=
        hout.cases
      · simp only [heq, heq']
        exact ⟨rfl, hm₂.pop hne⟩
      · simp only [heq, heq']
        exact ⟨rfl, hready.value_type hmem hret hv, hm₂.pop hne⟩

/-- **Plain arguments can wait.** A complete program that the checker accepts and whose arguments are
plain writes the same, ends with the same result or failure and logs the same statements whether each
argument is evaluated when it is first read or all of them before the call. -/
theorem runEager_eq_run {tokens : List Token} {entry : Bytes} {program tree : List Node}
    (hparse : Parsing.parse tokens = .ok program) (hanalyze : analyze entry program = .ok tree)
    (hcomplete : Complete program) (hplain : PlainArguments program) (sink : Sink) :
    runEager entry tree sink = run entry tree sink := by
  have hshape : ∀ n ∈ program, n.IsStatement fun _ => True :=
    Parsing.parse_grown (fun _ _ => trivial) hparse
  have hready := Ready.of_analyze hshape hanalyze hcomplete
  have htyped := WellTyped.of_analyze hshape hanalyze
  have hplain := hplain.resolved htyped
  obtain ⟨s, body, hfound, hmem, hparams, -⟩ := htyped.findFunction?_entry
  have hargs : ArgsSteady [] s [] [] := ⟨fun _ => hparams, fun i v hv => nomatch hv⟩
  have hnone : s.params.map Decl.type = ([] : List Ty).map some := by
    rw [hparams]
    rfl
  have hφ : StillTyped ⟨s, [], []⟩ [] := .of_call (hready.params_nodup hmem) hnone .nil
  have hstill : MachineStill [⟨s, [], []⟩] ⟨⟨s, [], []⟩, [], sink⟩ :=
    .cons ⟨rfl, fun _ _ hx => (nomatch hx), rfl⟩ .nil
  have harguments : ∀ a ∈ argumentsIn body, a.isPlain = true :=
    fun a ha => hplain a (arguments_subset_argumentsIn hmem ha)
  obtain ⟨log, hout⟩ := runBody_agrees hready (enter_agrees hready hplain maxCallDepth) hargs hargs
    (hready.typed s body hmem) (hready.body_shape hmem) (hready.body_calls hmem) harguments
    [] _ _ hφ ⟨hstill, hstill, rfl⟩
  unfold runEager run
  simp only [hfound]
  obtain ⟨e, m, m', heq, heq', hm⟩ | ⟨⟨v, returned⟩, m, m', heq, heq', -, hm⟩ := hout.cases
  · simp only [heq, heq', hm.sink, hm.log]
  · simp only [heq, heq', hm.sink, hm.log]

theorem runEager_halving :
    Parsing.parse Parsing.halvingTokens = .ok (Parsing.halving none none) ∧
      analyze defaultEntry (Parsing.halving none none) =
        .ok (Parsing.halving (some .int) (some .string)) ∧
      Complete (Parsing.halving none none) ∧ PlainArguments (Parsing.halving none none) ∧
      runEager defaultEntry (Parsing.halving (some .int) (some .string)) ⟨[], none⟩ =
        run defaultEntry (Parsing.halving (some .int) (some .string)) ⟨[], none⟩ := by
  have hanalyze : analyze defaultEntry (Parsing.halving none none) =
      .ok (Parsing.halving (some .int) (some .string)) := by rfl
  have hplain : PlainArguments (Parsing.halving none none) := by
    unfold PlainArguments
    decide
  exact ⟨Parsing.parse_halvingTokens, hanalyze, complete_halving, hplain,
    runEager_eq_run Parsing.parse_halvingTokens hanalyze complete_halving hplain ⟨[], none⟩⟩

end Run

end Swiftlet
