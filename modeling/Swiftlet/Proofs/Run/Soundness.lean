import Swiftlet.Proofs.Run.Typed

/-!
# Type soundness

A complete program that the checker accepts runs without a breach, and all it evaluates has the type
that the checker gave it.

* `Ready.of_analyze` — what the checker accepts is ready to run.
* `ArgsTyped` and `CodeTyped` — suspended arguments and code that the rules type, in the frames of a
  typed machine. `Config.Typed` puts them together.
* `Config.Typed.needs` — a typed configuration needs typed configurations only, so all that a run
  visits is typed.
* `Config.Behaves` — what is to be shown of a configuration of a run: it ends in no breach, gives and
  logs no invalid value, and its value has the type for which it was checked.

Principal result: `run_sound`.
-/

namespace Swiftlet

open Typing

/-! ## Filling in types keeps the shape -/

section

variable {program : List Node} {P : Token → Prop}

theorem Typing.Signatures.congr {program' : List Node} (h : Signatures program)
    (heq : program'.map Node.signature? = program.map Node.signature?) : Signatures program' := by
  intro n' hn' s hs
  have hmem : some s ∈ program.map Node.signature? := by
    rw [← heq, ← hs]
    exact List.mem_map_of_mem hn'
  obtain ⟨n, hn, hsig⟩ := List.mem_map.1 hmem
  exact h n hn s hsig

end

namespace Run

/-- What the checker accepts is well typed, and nothing is left to fill in. -/
theorem Checked.of_analyze {entry : Bytes} {program tree : List Node}
    (hshape : ∀ n ∈ program, n.IsStatement fun _ => True)
    (h : analyze entry program = .ok tree) : Checked tree := by
  have htyped := WellTyped.of_analyze hshape h
  refine ⟨(htyped.signatures hshape).congr htyped.map_signature?, ?_,
    fun s body hmem => (htyped.body hmem).2.1, fun s body hmem => (htyped.body hmem).2.2⟩
  intro n' hn'
  obtain ⟨n, hn, hitem⟩ := item_of_mem htyped.items hn'
  exact hitem.isStatement (hshape n hn)

/-- **A complete program that the checker accepts is ready to run.** -/
theorem Ready.of_analyze {entry : Bytes} {program tree : List Node}
    (hshape : ∀ n ∈ program, n.IsStatement fun _ => True)
    (h : analyze entry program = .ok tree) (hcomplete : Complete program) : Ready tree :=
  ⟨.of_analyze hshape h, hcomplete.resolved (.of_analyze hshape h)⟩

variable {program : List Node}

/-! ## Typed configurations -/

/-- An expression that the rules type in a frame and whose calls can be run. -/
structure ExprTyped (program : List Node) (σ : Shape) (n : Node) (t : Ty) : Prop where
  typed : HasType program σ.signature σ.scope n t
  shape : n.IsExpr fun _ => True
  calls : ∀ x ∈ n.calls, HasBody program x

/-- Arguments that the rules type in the frames of the callers, innermost first. The entry function
has no parameters. -/
def ArgsTyped (program : List Node) : List Shape → Signature → List Suspended → Prop
  | [], s, _ => s.params = []
  | σ :: rest, s, args =>
    ∀ (i : Nat) (p : Decl) (t : Ty), s.params[i]? = some p → p.type = some t →
      ∃ k as n, args[i]? = some (.mk k as n) ∧ ExprTyped program σ n t ∧
        ArgsTyped program rest σ.signature as

theorem ArgsTyped.sound (hready : Ready program) {callers : List Shape} {s : Signature}
    {args : List Suspended} (h : ArgsTyped program callers s args) :
    ArgsSound program callers s (forceAll program args) := by
  induction callers generalizing s args with
  | nil =>
      refine ⟨fun _ => h, fun i p t hp => ?_⟩
      rw [show s.params = [] from h] at hp
      cases hp
  | cons σ rest ih =>
      refine ⟨by simp, fun i p t hp ht => ?_⟩
      obtain ⟨k, as, n, harg, hn, has⟩ := h i p t hp ht
      refine ⟨Suspended.force program (.mk k as n), ?_, ?_⟩
      · rw [forceAll_eq_map, List.getElem?_map, harg, Option.map_some]
      · intro m hm
        rw [Suspended.force]
        exact eval_sound hready (enter_sound hready k) (ih has) hn.typed hn.shape hn.calls hm

/-- Statements of the function in a frame that are well typed in the frame's scope. -/
structure CodeTyped (program : List Node) (σ : Shape) (ns : List Node) : Prop where
  typed : ∃ ns₀, BodyTyped program σ.signature σ.scope ns₀ ns
  bound : bindings ns ⊆ bindings σ.body
  shape : ∀ n ∈ ns, n.IsStatement fun _ => True
  calls : ∀ x ∈ callsIn ns, HasBody program x

def Code.nodes : Code → List Node
  | .node n => [n]
  | .body ns => ns

/-- The machine, the arguments and the code of a configuration go together. -/
structure Config.TypedIn (program : List Node) (σ : Shape) (rest : List Shape) (c : Config) :
    Prop where
  machine : MachineTyped program (σ :: rest) c.machine
  args : ArgsTyped program rest σ.signature c.args
  code : CodeTyped program σ c.code.nodes

def Config.Typed (program : List Node) (c : Config) : Prop :=
  ∃ σ rest, c.TypedIn program σ rest

/-! ## The parts of typed code -/

section

variable {σ : Shape} {n : Node} {ns : List Node} {t : Ty}

theorem ExprTyped.code (h : ExprTyped program σ n t) : CodeTyped program σ [n] where
  typed := ⟨[n], .expr h.typed (.nil _)⟩
  bound := by simp [bindings, boundByAll, h.typed.boundBy_eq_nil]
  shape := by simpa using Node.IsStatement.expr h.shape
  calls := by simpa [callsIn] using h.calls

theorem ExprTyped.binary_parts {l r : Node} {op : Token}
    (h : ExprTyped program σ (.binary l op r) t) :
    ExprTyped program σ l t ∧ ExprTyped program σ r t := by
  obtain ⟨htyped, hshape, hcalls⟩ := h
  rw [Node.calls, List.forall_mem_append] at hcalls
  cases htyped with
  | binary _ _ hl hr =>
      cases hshape with
      | binary _ _ _ hl' hr' => exact ⟨⟨hl, hl', hcalls.1⟩, ⟨hr, hr', hcalls.2⟩⟩

theorem ExprTyped.gives (hready : Ready program) (h : ExprTyped program σ n t) {rest : List Shape}
    {k : Nat} {as : List Suspended} {m : Machine} (hargs : ArgsTyped program rest σ.signature as)
    (hm : MachineTyped program (σ :: rest) m) :
    Gives program (σ :: rest) t (Config.outcome program ⟨k, as, .node n, m⟩) :=
  eval_sound hready (enter_sound hready k) (hargs.sound hready) h.typed h.shape h.calls hm

theorem ExprTyped.ok (hready : Ready program) (h : ExprTyped program σ n t) {rest : List Shape}
    {k : Nat} {as : List Suspended} {m m' : Machine} {v : Value}
    (hargs : ArgsTyped program rest σ.signature as) (hm : MachineTyped program (σ :: rest) m)
    (hout : Config.outcome program ⟨k, as, .node n, m⟩ = .ok (v, m')) :
    v.type? = some t ∧ MachineTyped program (σ :: rest) m' := by
  have hgives := h.gives hready hargs hm (k := k)
  rwa [hout] at hgives

theorem CodeTyped.node_calls (h : CodeTyped program σ [n]) :
    ∀ x ∈ n.calls, HasBody program x := by
  simpa [callsIn] using h.calls

theorem CodeTyped.node_shape (h : CodeTyped program σ [n]) : n.IsStatement fun _ => True :=
  h.shape n List.mem_cons_self

theorem CodeTyped.expr {P : Token → Prop} (h : CodeTyped program σ [n]) (hn : n.IsExpr P) :
    ∃ t, ExprTyped program σ n t := by
  obtain ⟨ns₀, htyped⟩ := h.typed
  cases htyped with
  | expr he _ => exact ⟨_, he, he.isExpr h.node_shape, h.node_calls⟩
  | _ => cases hn

theorem CodeTyped.assign_value {d : Decl} {v : Node} (h : CodeTyped program σ [.assign d v]) :
    ∃ t, ExprTyped program σ v t := by
  have hcalls := h.node_calls
  obtain ⟨ns₀, htyped⟩ := h.typed
  cases htyped with
  | expr he _ => cases he
  | assign hv _ _ _ _ => exact ⟨_, hv, h.node_shape.assign_value, by rwa [Node.calls] at hcalls⟩

theorem CodeTyped.ret_value {token : Token} {v : Node} (h : CodeTyped program σ [.ret token v]) :
    ∃ t, ExprTyped program σ v t := by
  have hcalls := h.node_calls
  obtain ⟨ns₀, htyped⟩ := h.typed
  cases htyped with
  | expr he _ => cases he
  | ret _ hv _ _ => exact ⟨_, hv, h.node_shape.ret_value, by rwa [Node.calls] at hcalls⟩

theorem CodeTyped.printed {token : Token} {a : Node} {more : List Node}
    (h : CodeTyped program σ [.print token (a :: more)]) : ∃ t, ExprTyped program σ a t := by
  have hcalls := h.node_calls
  rw [Node.calls, callsIn, List.forall_mem_append] at hcalls
  obtain ⟨ns₀, htyped⟩ := h.typed
  cases htyped with
  | expr he _ => cases he
  | print _ _ ha _ _ =>
      exact ⟨_, ha, h.node_shape.print_args a List.mem_cons_self, hcalls.1⟩

theorem CodeTyped.cond_parts {token : Token} {c : Node}
    (h : CodeTyped program σ [.cond token c ns]) :
    ExprTyped program σ c .bool ∧ CodeTyped program σ ns := by
  have hcalls := h.node_calls
  rw [Node.calls, List.forall_mem_append] at hcalls
  obtain ⟨hexpr, hstatements⟩ := h.node_shape.cond_parts
  have hbound := h.bound
  rw [bindings_cond] at hbound
  obtain ⟨ns₀, htyped⟩ := h.typed
  cases htyped with
  | expr he _ => cases he
  | cond _ hc hbody _ =>
      exact ⟨⟨hc, hexpr, hcalls.1⟩, ⟨⟨_, hbody⟩, hbound, hstatements, hcalls.2⟩⟩

theorem CodeTyped.head (h : CodeTyped program σ (n :: ns)) : CodeTyped program σ [n] := by
  obtain ⟨⟨ns₀, htyped⟩, hbound, hshape, hcalls⟩ := h
  rw [bindings_cons, List.append_subset] at hbound
  rw [List.forall_mem_cons] at hshape
  rw [callsIn, List.forall_mem_append] at hcalls
  refine ⟨?_, hbound.1, by simpa using hshape.1, by simpa [callsIn] using hcalls.1⟩
  cases htyped with
  | expr he _ => exact ⟨_, .expr he (.nil _)⟩
  | assign hv hvoid hd hnew _ => exact ⟨_, .assign hv hvoid hd hnew (.nil _)⟩
  | print token more ha hvoid _ => exact ⟨_, .print token more ha hvoid (.nil _)⟩
  | ret token hv hret _ => exact ⟨_, .ret token hv hret (.nil _)⟩
  | cond token hc hbody _ => exact ⟨_, .cond token hc hbody (.nil _)⟩

theorem CodeTyped.of_body (hready : Ready program) {s : Signature} {body : List Node}
    (hmem : .func s body ∈ program) : CodeTyped program ⟨s, body, []⟩ body :=
  ⟨⟨body, hready.typed s body hmem⟩, List.Subset.refl _, hready.body_shape hmem,
    hready.body_calls hmem⟩

theorem CodeTyped.runBody_gives (hready : Ready program) (h : CodeTyped program σ ns)
    {rest : List Shape} {k : Nat} {as : List Suspended} {m : Machine}
    (hargs : ArgsTyped program rest σ.signature as) (hm : MachineTyped program (σ :: rest) m) :
    BodyGives program σ rest ns (runBody program (enter program k) (forceAll program as) ns m) := by
  obtain ⟨ns₀, htyped⟩ := h.typed
  have hmem : .func σ.signature σ.body ∈ program := by
    cases hm with
    | cons hf _ => exact hf.function
  exact runBody_sound hready (enter_sound hready k) hmem (hargs.sound hready) htyped h.bound h.shape
    h.calls m hm

/-- After a statement that does not return, the rest of the body is typed in the scope that the
statement leaves. -/
theorem CodeTyped.rest (hready : Ready program) (h : CodeTyped program σ (n :: ns))
    {rest : List Shape} {k : Nat} {as : List Suspended} {m m' : Machine} {v : Value}
    (hargs : ArgsTyped program rest σ.signature as) (hm : MachineTyped program (σ :: rest) m)
    (hn : runBody program (enter program k) (forceAll program as) [n] m = .ok ((v, false), m')) :
    ∃ Δ, MachineTyped program (⟨σ.signature, σ.body, Δ⟩ :: rest) m' ∧
      CodeTyped program ⟨σ.signature, σ.body, Δ⟩ ns := by
  have hhead := h.head
  obtain ⟨⟨ns₀, htyped⟩, hbound, hshape, hcalls⟩ := h
  rw [bindings_cons, List.append_subset] at hbound
  rw [List.forall_mem_cons] at hshape
  rw [callsIn, List.forall_mem_append] at hcalls
  have hsame : MachineTyped program (σ :: rest) m' := by
    have hout := hhead.runBody_gives hready hargs hm (k := k)
    rw [hn] at hout
    exact hout.1
  cases htyped with
  | expr _ hrest => exact ⟨σ.scope, hsame, ⟨⟨_, hrest⟩, hbound.2, hshape.2, hcalls.2⟩⟩
  | print _ _ _ _ hrest => exact ⟨σ.scope, hsame, ⟨⟨_, hrest⟩, hbound.2, hshape.2, hcalls.2⟩⟩
  | ret _ _ _ hrest => exact ⟨σ.scope, hsame, ⟨⟨_, hrest⟩, hbound.2, hshape.2, hcalls.2⟩⟩
  | cond _ _ _ hrest => exact ⟨σ.scope, hsame, ⟨⟨_, hrest⟩, hbound.2, hshape.2, hcalls.2⟩⟩
  | @assign _ d w t _ _ hw hvoid hd hnew hrest =>
      refine ⟨(d.name.lexeme, t) :: σ.scope, ?_, ⟨⟨_, hrest⟩, hbound.2, hshape.2, hcalls.2⟩⟩
      have hexpr : ExprTyped program σ w t :=
        ⟨hw, hshape.1.assign_value, by rw [Node.calls] at hcalls; exact hcalls.1⟩
      rw [runBody_single _ _ _ _ _ (by simp), eval] at hn
      split at hn
      · cases hn
      rename_i v' m₁ heq
      have hout := hexpr.ok hready hargs hm heq
      cases hn
      exact hout.2.record_assign (d := { d with type := some t }) hout.1 hnew
        (hbound.1 List.mem_cons_self)

end

/-! ## What a typed configuration needs -/

/-- The argument of a parameter that is read for the first time is typed in the caller's frame. -/
theorem argument_typed (hready : Ready program) {σ : Shape} {rest : List Shape} {m : Machine}
    {as as' : List Suspended} {name : Token} {i k' : Nat} {n : Node} {caller : Frame}
    {callers : List Frame} (hm : MachineTyped program (σ :: rest) m)
    (hargs : ArgsTyped program rest σ.signature as)
    (hparam : m.frame.signature.paramIndex? name.lexeme = some i)
    (hcallers : m.callers = caller :: callers) (harg : as[i]? = some (.mk k' as' n)) :
    Config.Typed program ⟨k', as', .node n, ⟨caller, callers, m.sink⟩⟩ := by
  cases hm with
  | cons hf hrest =>
  rw [hcallers] at hrest
  cases hrest with
  | @cons σ' _ rest _ hcaller hcallers =>
  rw [hf.signature] at hparam
  obtain ⟨hi, -, -⟩ := List.findIdx?_eq_some_iff_getElem.1 hparam
  have hp : σ.signature.params[i]? = some σ.signature.params[i] := List.getElem?_eq_getElem hi
  have hannotated := (hready.signatures _ hf.function σ.signature rfl).2.2
  obtain ⟨t, ht⟩ := Option.isSome_iff_exists.1 (hannotated _ (List.getElem_mem hi))
  obtain ⟨k, as₀, n₀, harg₀, hn, has⟩ := hargs i _ t hp ht
  rw [harg] at harg₀
  cases harg₀
  exact ⟨σ', rest, .cons hcaller hcallers, has, hn.code⟩

theorem call_typed (hready : Ready program) {σ : Shape} {rest : List Shape} {m : Machine}
    {k : Nat} {as : List Suspended} {name : Token} {actuals : List Node} {s : Signature}
    {body : List Node} (hm : MachineTyped program (σ :: rest) m)
    (hargs : ArgsTyped program rest σ.signature as) {t : Ty}
    (h : ExprTyped program σ (.call name actuals) t)
    (hfound : findFunction? program name.lexeme = some (s, body)) :
    Config.Typed program ⟨k, actuals.map (.mk (k + 1) as), .body body, m.push s⟩ := by
  obtain ⟨htyped, hshape, hcalls⟩ := h
  rw [Node.calls, List.forall_mem_cons] at hcalls
  cases htyped with
  | call hcallee hparams hlength hactuals hret =>
  cases hshape with
  | call _ hexprs =>
  obtain ⟨body', hfound', hmem⟩ := hready.complete.findFunction?_eq hcallee hcalls.1
  rw [hfound] at hfound'
  cases hfound'
  refine ⟨⟨s, body, []⟩, σ :: rest, hm.push hready hmem, ?_, .of_body hready hmem⟩
  intro i p t hp ht
  obtain ⟨a, ha, hzip⟩ := actual_of_param hparams hlength hp ht
  have hactual := List.mem_of_getElem? ha
  exact ⟨k + 1, as, a, by rw [List.getElem?_map, ha, Option.map_some],
    ⟨hactuals _ hzip, hexprs a hactual,
      fun x hx => hcalls.2 x (calls_subset_callsIn hactual hx)⟩, hargs⟩

/-- **A typed configuration needs typed configurations only.** -/
theorem Config.Typed.needs (hready : Ready program) {c c' : Config} (h : c.Typed program)
    (hneeds : Needs program c c') : c'.Typed program := by
  obtain ⟨σ, rest, hm, hargs, hcode⟩ := h
  cases hneeds with
  | assign =>
      obtain ⟨t, hv⟩ := CodeTyped.assign_value hcode
      exact ⟨σ, rest, hm, hargs, hv.code⟩
  | ret =>
      obtain ⟨t, hv⟩ := CodeTyped.ret_value hcode
      exact ⟨σ, rest, hm, hargs, hv.code⟩
  | printed =>
      obtain ⟨t, ha⟩ := CodeTyped.printed hcode
      exact ⟨σ, rest, hm, hargs, ha.code⟩
  | left =>
      obtain ⟨t, hexpr⟩ := CodeTyped.expr hcode (by cases hcode.node_shape; assumption)
      exact ⟨σ, rest, hm, hargs, hexpr.binary_parts.1.code⟩
  | right hl =>
      obtain ⟨t, hexpr⟩ := CodeTyped.expr hcode (by cases hcode.node_shape; assumption)
      have hout := hexpr.binary_parts.1.ok hready hargs hm hl
      exact ⟨σ, rest, hout.2, hargs, hexpr.binary_parts.2.code⟩
  | argument _ hparam hcallers harg => exact argument_typed hready hm hargs hparam hcallers harg
  | call hfound =>
      obtain ⟨t, hexpr⟩ := CodeTyped.expr hcode (by cases hcode.node_shape; assumption)
      exact call_typed hready hm hargs hexpr hfound
  | condition => exact ⟨σ, rest, hm, hargs, (CodeTyped.cond_parts hcode).1.code⟩
  | branch hc =>
      have hout := (CodeTyped.cond_parts hcode).1.ok hready hargs hm hc
      exact ⟨σ, rest, hout.2, hargs, (CodeTyped.cond_parts hcode).2⟩
  | first => exact ⟨σ, rest, hm, hargs, CodeTyped.head hcode⟩
  | rest hn =>
      obtain ⟨Δ, hm', hrest⟩ := CodeTyped.rest hready hcode hargs hm hn
      exact ⟨⟨σ.signature, σ.body, Δ⟩, rest, hm', hargs, hrest⟩

/-! ## What becomes of a typed configuration -/

/-- The machine that an outcome ends in. -/
def Outcome.machine {α : Type} : Outcome α → Machine
  | .error (_, m) => m
  | .ok (_, m) => m

/-- What a configuration of a run is to be like. The type for which a node is checked depends on the
scope at its place; it is asked for in any scope of bindings of the function. -/
structure Config.Behaves (program : List Node) (c : Config) : Prop where
  no_breach : ∀ b token m, c.outcome program ≠ .error (.breach b token, m)
  valid : ∀ v m, c.outcome program = .ok (v, m) → v ≠ .invalid
  log : ∀ e ∈ (c.outcome program).machine.frame.log, e.2 ≠ .invalid
  typed : ∀ n, c.code = .node n → ∃ body, .func c.machine.frame.signature body ∈ program ∧
    let context := Context.of program c.machine.frame.signature body
    (∃ Γ ⊆ bindings body, ∃ d, check context Γ n = .ok d) ∧
      ∀ Γ ⊆ bindings body, ∀ d t, check context Γ n = .ok d → d.type = some t → t ≠ .void →
        ∀ v m, c.outcome program = .ok (v, m) → v.type? = some t

/-- A valid value in a machine of the same shapes. -/
def Valid (program : List Node) (σ : Shape) (rest : List Shape) (o : Outcome Value) : Prop :=
  Safe (rest.length + 1) (fun v m => v ≠ .invalid ∧ MachineTyped program (σ :: rest) m) o

theorem Gives.valid {σ : Shape} {rest : List Shape} {t : Ty} {o : Outcome Value}
    (h : Gives program (σ :: rest) t o) : Valid program σ rest o := by
  cases o with
  | error e => exact h.error
  | ok r => exact ⟨Value.ne_invalid h.1, h.2⟩

section

variable {σ : Shape} {rest : List Shape} {k : Nat} {as : List Suspended} {m : Machine}

theorem MachineTyped.ret_isSome (hready : Ready program)
    (hm : MachineTyped program (σ :: rest) m) : σ.signature.ret.isSome := by
  cases hm with
  | cons hf _ => exact (hready.signatures _ hf.function σ.signature rfl).2.1

theorem CodeTyped.body_valid (hready : Ready program) {ns : List Node}
    (h : CodeTyped program σ ns) (hargs : ArgsTyped program rest σ.signature as)
    (hm : MachineTyped program (σ :: rest) m) :
    Valid program σ rest (Config.outcome program ⟨k, as, .body ns, m⟩) := by
  have hout := h.runBody_gives hready hargs hm (k := k)
  simp only [Config.outcome]
  split
  · rename_i e heq
    rw [heq] at hout
    exact hout.error
  · rename_i v returned m' heq
    rw [heq] at hout
    exact ⟨hout.valid (hm.ret_isSome hready), hout.1⟩

theorem CodeTyped.cond_valid (hready : Ready program) {token : Token} {c : Node} {ns : List Node}
    (h : CodeTyped program σ [.cond token c ns]) (hargs : ArgsTyped program rest σ.signature as)
    (hm : MachineTyped program (σ :: rest) m) :
    Valid program σ rest (Config.outcome program ⟨k, as, .node (.cond token c ns), m⟩) := by
  obtain ⟨hc, hbody⟩ := h.cond_parts
  have hout := branch_sound token (hc.gives hready hargs hm (k := k))
    fun m hm => hbody.runBody_gives hready hargs hm (k := k)
  simp only [Config.outcome, eval]
  split
  · rename_i e heq
    rw [heq] at hout
    exact hout.error
  · rename_i v returned m' heq
    rw [heq] at hout
    exact ⟨hout.valid (hm.ret_isSome hready), hout.1⟩

theorem CodeTyped.node_valid (hready : Ready program) {n : Node} (h : CodeTyped program σ [n])
    (hargs : ArgsTyped program rest σ.signature as) (hm : MachineTyped program (σ :: rest) m) :
    Valid program σ rest (Config.outcome program ⟨k, as, .node n, m⟩) := by
  have hcode := h
  obtain ⟨ns₀, htyped⟩ := h.typed
  cases htyped with
  | expr he _ =>
      have hexpr : ExprTyped program σ n _ := ⟨he, he.isExpr hcode.node_shape, hcode.node_calls⟩
      exact (hexpr.gives hready hargs hm).valid
  | assign _ _ _ _ _ =>
      obtain ⟨t, hv⟩ := hcode.assign_value
      simp only [Config.outcome, eval]
      exact (hv.gives hready hargs hm).valid
  | print token more _ _ _ =>
      obtain ⟨t, ha⟩ := hcode.printed
      exact (print_sound token more (ha.gives hready hargs hm)).valid
  | ret _ _ _ _ =>
      obtain ⟨t, hv⟩ := hcode.ret_value
      simp only [Config.outcome, eval]
      exact (hv.gives hready hargs hm).valid
  | cond _ _ _ _ => exact hcode.cond_valid hready hargs hm

/-! ## The types that were checked -/

/-- A node checked for a type other than Void is an expression or takes the value of one, and the
expression has the type in the frame's scope as well. -/
theorem CodeTyped.value_type (hready : Ready program) {n : Node} (h : CodeTyped program σ [n])
    (hargs : ArgsTyped program rest σ.signature as) (hm : MachineTyped program (σ :: rest) m)
    {Γ : Scope} (hΓ : Γ ⊆ bindings σ.body) {d : Done Node} {t : Ty}
    (hcheck : check (.of program σ.signature σ.body) Γ n = .ok d) (ht : d.type = some t)
    (hvoid : t ≠ .void) {v : Value} {m' : Machine}
    (hout : Config.outcome program ⟨k, as, .node n, m⟩ = .ok (v, m')) : v.type? = some t := by
  obtain ⟨hmem, hbound⟩ : .func σ.signature σ.body ∈ program ∧ σ.scope ⊆ bindings σ.body := by
    cases hm with
    | cons hf _ => exact ⟨hf.function, hf.bound⟩
  have hann := hready.signatures.annotated hmem
  -- Both scopes are part of all the bindings of the function, where an expression has one type.
  have hsame : ∀ {e : Node} {u : Ty}, ExprTyped program σ e u →
      ∀ {d : Done Node}, check (.of program σ.signature σ.body) Γ e = .ok d → d.type = some u := by
    intro e u he d hd
    obtain ⟨u', rfl, hu'⟩ := HasType.of_check hann he.shape d hd
    have := (hu'.mono hΓ).unique (hready.bindings_nodup hmem) (he.typed.mono hbound)
    rw [this]
  have hcode := h
  obtain ⟨ns₀, htyped⟩ := h.typed
  cases htyped with
  | expr he _ =>
      have hexpr : ExprTyped program σ n _ := ⟨he, he.isExpr hcode.node_shape, hcode.node_calls⟩
      rw [(hexpr.ok hready hargs hm hout).1, ← hsame hexpr hcheck, ht]
  | assign _ _ _ _ _ =>
      obtain ⟨u, hv⟩ := hcode.assign_value
      simp only [Config.outcome, eval] at hout
      obtain ⟨dv, tv, _, hdv, -, rfl⟩ := check_assign_eq_ok hcheck
      obtain ⟨hdv, htv, -⟩ := requireValue_eq_ok_iff.1 hdv
      rw [(hv.ok hready hargs hm hout).1, ← hsame hv hdv, htv]
      exact ht
  | print _ _ _ _ _ =>
      obtain ⟨_, _, _, _, -, -, rfl⟩ := check_print_eq_ok hcheck
      cases ht
      exact absurd rfl hvoid
  | ret _ _ _ _ =>
      obtain ⟨u, hv⟩ := hcode.ret_value
      simp only [Config.outcome, eval] at hout
      obtain ⟨dv, hdv, -, rfl⟩ := check_ret_eq_ok hcheck
      rw [(hv.ok hready hargs hm hout).1, ← hsame hv hdv, ht]
  | cond _ _ _ _ =>
      obtain ⟨_, _, -, -, -, rfl⟩ := check_cond_eq_ok hcheck
      cases ht
      exact absurd rfl hvoid

/-- The checker accepts the code of a typed frame in the frame's scope. -/
theorem CodeTyped.check_ok (hready : Ready program) {n : Node} (h : CodeTyped program σ [n])
    (hm : MachineTyped program (σ :: rest) m) :
    ∃ Γ ⊆ bindings σ.body, ∃ d, check (.of program σ.signature σ.body) Γ n = .ok d := by
  cases hm with
  | cons hf _ =>
  refine ⟨σ.scope, hf.bound, ?_⟩
  obtain ⟨ns₀, htyped⟩ := h.typed
  have hall : (bindings σ.body).names ⊆ namesOf (σ.signature.params ++ boundByAll σ.body) := by
    rw [namesOf, List.map_append]
    exact List.Subset.trans (names_bindings_sublist σ.body).subset (List.subset_append_right _ _)
  have hfits := hready.signatures.fits hf.function hf.nodup
    (List.Subset.trans (List.map_subset _ hf.bound) hall)
  have hnames := List.Subset.trans (names_boundByAll_subset htyped.bound_type)
    (List.Subset.trans (List.map_subset _ h.bound) hall)
  obtain ⟨Δ, hbody⟩ := BodyTyped.checkBody_eq (c := .of program σ.signature σ.body)
    htyped.resolved hfits hnames
  rw [checkBody] at hbody
  split at hbody
  · cases hbody
  · rename_i d hd
    exact ⟨d, hd⟩

end

theorem Config.Typed.behaves (hready : Ready program) {c : Config} (h : c.Typed program) :
    c.Behaves program := by
  obtain ⟨σ, rest, hm, hargs, hcode⟩ := h
  obtain ⟨k, as, code, m⟩ := c
  have hvalid : Valid program σ rest (outcome program ⟨k, as, code, m⟩) := by
    cases code with
    | node n => exact hcode.node_valid hready hargs hm
    | body ns => exact hcode.body_valid hready hargs hm
  generalize hout : outcome program ⟨k, as, code, m⟩ = out at hvalid
  refine ⟨?_, ?_, ?_, ?_⟩
  · intro b token m' hb
    rw [hout] at hb
    rw [hb] at hvalid
    cases hvalid.1
  · intro v m' hv
    rw [hout] at hv
    rw [hv] at hvalid
    exact hvalid.1
  · rw [hout]
    obtain ⟨e, m'⟩ | ⟨v, m'⟩ := out
    · exact hvalid.2.logs _ List.mem_cons_self
    · exact hvalid.2.intact.logs _ List.mem_cons_self
  · rintro n rfl
    have hsig : m.frame.signature = σ.signature := by
      cases hm with
      | cons hf _ => exact hf.signature
    have hmem : .func σ.signature σ.body ∈ program := by
      cases hm with
      | cons hf _ => exact hf.function
    simp only [hsig]
    exact ⟨σ.body, hmem, hcode.check_ok hready hm, fun Γ hΓ d t hd ht hvoid v m' hv =>
      hcode.value_type hready hargs hm hΓ hd ht hvoid hv⟩

/-! ## Runs -/

theorem machineTyped_start (hready : Ready program) {s : Signature} {body : List Node}
    (hmem : .func s body ∈ program) (sink : Sink) :
    MachineTyped program [⟨s, body, []⟩] ⟨⟨s, [], []⟩, [], sink⟩ :=
  .cons (.start hready hmem) .nil

theorem Config.typed_start (hready : Ready program) {s : Signature} {body : List Node}
    (hmem : .func s body ∈ program) (hparams : s.params = []) (sink : Sink) :
    (Config.start s body sink).Typed program :=
  ⟨⟨s, body, []⟩, [], machineTyped_start hready hmem sink, hparams, .of_body hready hmem⟩

/-- What the body of the entry function comes to is what the run reports. -/
theorem run_result {entry : Bytes} (hready : Ready program) {s : Signature} {body : List Node}
    (hfound : findFunction? program entry = some (s, body)) (hmem : .func s body ∈ program)
    (hparams : s.params = []) (hret : s.ret = some .void) (sink : Sink) :
    (run entry program sink).result ∈
        [.ok .void, .error .callDepth, .error .divisionByZero, .error .write] ∧
      ∀ e ∈ (run entry program sink).log, e.2 ≠ .invalid := by
  have hargs : ArgsTyped program [] s [] := hparams
  have hout : BodyGives program ⟨s, body, []⟩ [] body
      (runBody program (enter program maxCallDepth) [] body ⟨⟨s, [], []⟩, [], sink⟩) :=
    (CodeTyped.of_body hready hmem).runBody_gives hready hargs (machineTyped_start hready hmem sink)
  unfold run
  rw [hfound]
  simp only
  split
  · rename_i e m' heq
    rw [heq] at hout
    obtain ⟨hbreach, hintact⟩ := hout
    refine ⟨?_, fun entry hentry => hintact.logs _ List.mem_cons_self _ (List.mem_reverse.1 hentry)⟩
    cases e with
    | breach b token => cases hbreach
    | _ => simp
  · rename_i v returned m' heq
    rw [heq] at hout
    obtain ⟨hm', hvalue⟩ := hout
    refine ⟨?_, fun entry hentry =>
      hm'.intact.logs _ List.mem_cons_self _ (List.mem_reverse.1 hentry)⟩
    have hvoid : v = .void := by
      cases returned with
      | true => exact Value.eq_void (hvalue.trans hret)
      | false => exact hvalue.1
    rw [hvoid]
    exact List.mem_cons_self

/-- **Type soundness.** A complete program that the checker accepts ends its run with no value, or
because calls nest too deep, an integer is divided by zero or the output takes no more; and all that
the run evaluates behaves as it was checked. -/
theorem run_sound {tokens : List Token} {entry : Bytes} {program tree : List Node}
    (hparse : Parsing.parse tokens = .ok program) (hanalyze : analyze entry program = .ok tree)
    (hcomplete : Complete program) (sink : Sink) :
    (run entry tree sink).result ∈
        [.ok .void, .error .callDepth, .error .divisionByZero, .error .write] ∧
      (∀ e ∈ (run entry tree sink).log, e.2 ≠ .invalid) ∧
      ∀ c, Visited entry tree sink c → c.Behaves tree := by
  have hshape : ∀ n ∈ program, n.IsStatement fun _ => True :=
    Parsing.parse_grown (fun _ _ => trivial) hparse
  have hready := Ready.of_analyze hshape hanalyze hcomplete
  obtain ⟨s, body, hfound, hmem, hparams, hret⟩ :=
    (WellTyped.of_analyze hshape hanalyze).findFunction?_entry
  obtain ⟨hresult, hlog⟩ := run_result hready hfound hmem hparams hret sink
  refine ⟨hresult, hlog, fun c hc => ?_⟩
  have htyped : c.Typed tree :=
    Visited.induction hfound (Config.typed_start hready hmem hparams sink)
      (fun _ _ h hneeds => h.needs hready hneeds) hc
  exact htyped.behaves hready

theorem run_halving :
    Parsing.parse Parsing.halvingTokens = .ok (Parsing.halving none none) ∧
      analyze defaultEntry (Parsing.halving none none) =
        .ok (Parsing.halving (some .int) (some .string)) ∧
      Complete (Parsing.halving none none) ∧
      (run defaultEntry (Parsing.halving (some .int) (some .string)) ⟨[], none⟩).result ∈
        [.ok .void, .error .callDepth, .error .divisionByZero, .error .write] ∧
      (∀ e ∈ (run defaultEntry (Parsing.halving (some .int) (some .string)) ⟨[], none⟩).log,
        e.2 ≠ .invalid) ∧
      ∀ c, Visited defaultEntry (Parsing.halving (some .int) (some .string)) ⟨[], none⟩ c →
        c.Behaves (Parsing.halving (some .int) (some .string)) :=
  have hanalyze : analyze defaultEntry (Parsing.halving none none) =
      .ok (Parsing.halving (some .int) (some .string)) := by rfl
  ⟨Parsing.parse_halvingTokens, hanalyze, complete_halving,
    run_sound Parsing.parse_halvingTokens hanalyze complete_halving ⟨[], none⟩⟩

end Run

end Swiftlet
