import Swiftlet.Proofs.Run.Visits
import Swiftlet.Proofs.Typing.Checking
import Swiftlet.Proofs.Typing.Complete

/-!
# Values and machines of the right types

A machine is typed by the shapes of its frames: for every frame the function that runs in it and the
bindings visible there. Evaluation keeps the shapes, since an argument that is forced in the frame of
a caller only adds to what that frame knows.

* `Value.type?` — the type of a value; an invalid value has none.
* `FrameTyped` and `MachineTyped` — what is known and logged in a frame has the types of the rules,
  and no logged value is invalid.
* `Gives` — an outcome is a value of a type in a machine of the same shapes, or a failure that is not
  a breach.
* `ArgsSound` and `EnterSound` — the same of arguments and of function calls, as functions.

Principal results: `eval_sound`, `runBody_sound` and `enter_sound`.
-/

namespace Swiftlet

def Value.type? : Value → Option Ty
  | .invalid => none
  | .int _ => some .int
  | .float _ => some .float
  | .string _ => some .string
  | .bool _ => some .bool
  | .void => some .void

theorem Value.eq_void {v : Value} (h : v.type? = some .void) : v = .void := by
  cases v with
  | void => rfl
  | _ => cases h

theorem Value.ne_invalid {v : Value} {t : Ty} (h : v.type? = some t) : v ≠ .invalid := by
  rintro rfl
  cases h

namespace Run

open Typing

/-! ## Programs that can be run -/

/-- The bindings of a body with their types, where they are known. -/
def bindings (body : List Node) : Scope :=
  (boundByAll body).filterMap fun d => d.type.map (d.name.lexeme, ·)

theorem names_bindings_sublist (body : List Node) :
    (bindings body).names.Sublist (namesOf (boundByAll body)) := by
  unfold bindings
  induction boundByAll body with
  | nil => exact .slnil
  | cons d ds ih =>
      cases htype : d.type with
      | none => simpa [htype] using ih.cons _
      | some t => simpa [htype] using ih

theorem bindings_cons (n : Node) (ns : List Node) :
    bindings (n :: ns) = bindings [n] ++ bindings ns := by
  simp [bindings, boundByAll]

theorem bindings_assign (d : Decl) (v : Node) (t : Ty) :
    bindings [.assign { d with type := some t } v] = [(d.name.lexeme, t)] := rfl

theorem bindings_cond (token : Token) (c : Node) (body : List Node) :
    bindings [.cond token c body] = bindings body := by
  simp [bindings, boundByAll, boundBy]

theorem names_boundByAll_subset {ns : List Node}
    (h : ∀ d ∈ boundByAll ns, ∃ t, d.type = some t ∧ t ≠ .void) :
    namesOf (boundByAll ns) ⊆ (bindings ns).names := by
  intro x hx
  obtain ⟨d, hd, rfl⟩ := List.mem_map.1 hx
  obtain ⟨t, ht, -⟩ := h d hd
  exact List.mem_map.2 ⟨(d.name.lexeme, t), List.mem_filterMap.2 ⟨d, hd, by rw [ht]; rfl⟩, rfl⟩

/-- A well-typed program with its types filled in. -/
structure Checked (program : List Node) : Prop where
  signatures : Signatures program
  shape : ∀ n ∈ program, n.IsStatement fun _ => True
  names : ∀ s body, .func s body ∈ program → (namesOf (s.params ++ boundByAll body)).Nodup
  typed : ∀ s body, .func s body ∈ program → BodyTyped program s [] body body

/-- A well-typed complete program with its types filled in. -/
structure Ready (program : List Node) : Prop extends Checked program where
  complete : Complete program

variable {program : List Node}

theorem Checked.params_nodup (h : Checked program) {s : Signature} {body : List Node}
    (hmem : .func s body ∈ program) : (namesOf s.params).Nodup :=
  (h.signatures _ hmem s rfl).1.nodup

/-- The parameters and bindings of a function have different names. -/
theorem Checked.bindings_nodup (h : Checked program) {s : Signature} {body : List Node}
    (hmem : .func s body ∈ program) : (namesOf s.params ++ (bindings body).names).Nodup := by
  have hnames := h.names s body hmem
  rw [namesOf, List.map_append] at hnames
  exact hnames.sublist (List.Sublist.append_left (names_bindings_sublist body) _)

theorem Checked.body_shape (h : Checked program) {s : Signature} {body : List Node}
    (hmem : .func s body ∈ program) : ∀ n ∈ body, n.IsStatement fun _ => True :=
  (h.shape _ hmem).func_body

theorem Ready.body_calls (h : Ready program) {s : Signature} {body : List Node}
    (hmem : .func s body ∈ program) : ∀ x ∈ callsIn body, HasBody program x :=
  fun x hx => h.complete.bodies x (calls_subset_callsIn hmem hx)

/-! ## Typed machines -/

/-- The function that runs in a frame and the bindings visible there. -/
structure Shape where
  signature : Signature
  body : List Node
  scope : Scope

structure FrameTyped (program : List Node) (σ : Shape) (f : Frame) : Prop where
  function : .func σ.signature σ.body ∈ program
  bound : σ.scope ⊆ bindings σ.body
  nodup : (namesOf σ.signature.params ++ σ.scope.names).Nodup
  signature : f.signature = σ.signature
  cache : ∀ x v, (x, v) ∈ f.cache → ∃ p ∈ σ.signature.params, p.name.lexeme = x ∧ v.type? = p.type
  vars : ∀ x t, (x, t) ∈ σ.scope → ∃ v, latestBinding? x f.log = some v ∧ v.type? = some t
  log : ∀ e ∈ f.log, e.2 ≠ .invalid

def MachineTyped (program : List Node) (shapes : List Shape) (m : Machine) : Prop :=
  List.Forall₂ (FrameTyped program) shapes (m.frame :: m.callers)

/-- What is left of a typed machine of `k` frames after a failure: no invalid value in any log. -/
structure Intact (k : Nat) (m : Machine) : Prop where
  frames : m.callers.length + 1 = k
  logs : ∀ f ∈ m.frame :: m.callers, ∀ e ∈ f.log, e.2 ≠ .invalid

theorem MachineTyped.intact {shapes : List Shape} {m : Machine}
    (h : MachineTyped program shapes m) : Intact shapes.length m := by
  refine ⟨h.length_eq.symm, ?_⟩
  unfold MachineTyped at h
  generalize m.frame :: m.callers = frames at h
  induction h with
  | nil => simp
  | cons hf _ ih => exact List.forall_mem_cons.2 ⟨hf.log, ih⟩

theorem FrameTyped.weaken {s : Signature} {body : List Node} {Γ Δ : Scope} {f : Frame}
    (h : FrameTyped program ⟨s, body, Δ⟩ f) (hsub : Γ.Sublist Δ) :
    FrameTyped program ⟨s, body, Γ⟩ f where
  function := h.function
  bound := List.Subset.trans hsub.subset h.bound
  nodup := h.nodup.sublist (List.Sublist.append_left (hsub.map _) _)
  signature := h.signature
  cache := h.cache
  vars := fun x t hx => h.vars x t (hsub.subset hx)
  log := h.log

theorem MachineTyped.weaken {s : Signature} {body : List Node} {Γ Δ : Scope} {rest : List Shape}
    {m : Machine} (h : MachineTyped program (⟨s, body, Δ⟩ :: rest) m) (hsub : Γ.Sublist Δ) :
    MachineTyped program (⟨s, body, Γ⟩ :: rest) m := by
  cases h with
  | cons hf hrest => exact .cons (hf.weaken hsub) hrest

theorem FrameTyped.start (hready : Ready program) {s : Signature} {body : List Node}
    (hmem : .func s body ∈ program) : FrameTyped program ⟨s, body, []⟩ ⟨s, [], []⟩ := by
  refine ⟨hmem, List.nil_subset _, ?_, rfl, ?_, ?_, ?_⟩
  · simpa using hready.params_nodup hmem
  · intro x v hx
    cases hx
  · intro x t hx
    cases hx
  · intro e he
    cases he

theorem MachineTyped.push (hready : Ready program) {shapes : List Shape} {m : Machine}
    (h : MachineTyped program shapes m) {s : Signature} {body : List Node}
    (hmem : .func s body ∈ program) :
    MachineTyped program (⟨s, body, []⟩ :: shapes) (m.push s) :=
  .cons (.start hready hmem) h

theorem MachineTyped.pop {σ : Shape} {shapes : List Shape} {m : Machine} (hne : shapes ≠ [])
    (h : MachineTyped program (σ :: shapes) m) : MachineTyped program shapes m.pop := by
  obtain ⟨frame, callers, sink⟩ := m
  cases h with
  | cons hf hrest =>
      cases hrest with
      | nil => exact absurd rfl hne
      | cons hcaller hcallers => exact .cons hcaller hcallers

theorem Intact.pop {k : Nat} {m : Machine} (hk : k ≠ 0) (h : Intact (k + 1) m) :
    Intact k m.pop := by
  obtain ⟨frame, callers, sink⟩ := m
  obtain ⟨hframes, hlogs⟩ := h
  cases callers with
  | nil =>
      simp only [List.length_nil] at hframes
      omega
  | cons f rest =>
      simp only [List.length_cons] at hframes
      exact ⟨show rest.length + 1 = k by omega, fun g hg => hlogs g (List.mem_cons_of_mem _ hg)⟩

theorem Intact.resume {k : Nat} {m : Machine} {frame : Frame} (h : Intact k m)
    (hframe : ∀ e ∈ frame.log, e.2 ≠ .invalid) : Intact (k + 1) (m.resume frame) :=
  ⟨by rw [← h.frames]; rfl, List.forall_mem_cons.2 ⟨hframe, h.logs⟩⟩

/-! ## Logging -/

theorem latestBinding?_record {n : Node} (hn : ∀ d w, n ≠ .assign d w) (x : Bytes) (v : Value)
    (log : Log) : latestBinding? x ((n, v) :: log) = latestBinding? x log := by
  cases n with
  | assign d w => exact absurd rfl (hn d w)
  | _ => rfl

theorem MachineTyped.record {σ : Shape} {rest : List Shape} {m : Machine}
    (h : MachineTyped program (σ :: rest) m) {n : Node} (hn : ∀ d w, n ≠ .assign d w) {v : Value}
    (hv : v ≠ .invalid) : MachineTyped program (σ :: rest) (m.record n v) := by
  cases h with
  | cons hf hrest =>
      refine .cons ⟨hf.function, hf.bound, hf.nodup, hf.signature, hf.cache, ?_, ?_⟩ hrest
      · intro x t hx
        show ∃ v', latestBinding? x ((n, v) :: m.frame.log) = some v' ∧ v'.type? = some t
        rw [latestBinding?_record hn]
        exact hf.vars x t hx
      · exact List.forall_mem_cons.2 ⟨hv, hf.log⟩

/-- After a binding is logged, its name has its value. -/
theorem latestBinding?_record_assign {Γ : Scope} {log : Log} {d : Decl} (w : Node) {t : Ty}
    {v : Value} (hv : v.type? = some t) (hnew : d.name.lexeme ∉ Γ.names)
    (hvars : ∀ x u, (x, u) ∈ Γ → ∃ v, latestBinding? x log = some v ∧ v.type? = some u) :
    ∀ x u, (x, u) ∈ (d.name.lexeme, t) :: Γ →
      ∃ v', latestBinding? x ((.assign d w, v) :: log) = some v' ∧ v'.type? = some u := by
  intro x u hx
  rw [latestBinding?]
  rcases List.mem_cons.1 hx with hx | hx
  · cases hx
    exact ⟨v, if_pos rfl, hv⟩
  · have hne : d.name.lexeme ≠ x := by
      rintro rfl
      exact hnew (List.mem_map.2 ⟨_, hx, rfl⟩)
    rw [if_neg hne]
    exact hvars x u hx

/-- After a binding is logged, its name is visible. -/
theorem MachineTyped.record_assign {s : Signature} {body : List Node} {Γ : Scope}
    {rest : List Shape} {m : Machine} (h : MachineTyped program (⟨s, body, Γ⟩ :: rest) m) {d : Decl}
    {w : Node} {t : Ty} {v : Value} (hv : v.type? = some t)
    (hnew : d.name.lexeme ∉ namesOf s.params ++ Γ.names)
    (hbound : (d.name.lexeme, t) ∈ bindings body) :
    MachineTyped program (⟨s, body, (d.name.lexeme, t) :: Γ⟩ :: rest)
      (m.record (.assign d w) v) := by
  cases h with
  | cons hf hrest =>
      refine .cons ⟨hf.function, List.cons_subset.2 ⟨hbound, hf.bound⟩, ?_, hf.signature, hf.cache,
        ?_, ?_⟩ hrest
      · exact nodup_params_cons.2
          ⟨fun hx => hnew (List.mem_append_left _ hx), fun hx => hnew (List.mem_append_right _ hx),
            hf.nodup⟩
      · exact latestBinding?_record_assign w hv (fun hx => hnew (List.mem_append_right _ hx)) hf.vars
      · exact List.forall_mem_cons.2 ⟨Value.ne_invalid hv, hf.log⟩

/-! ## Outcomes -/

def Failure.isBreach : Failure → Bool
  | .breach .. => true
  | _ => false

/-- An outcome is a failure that is not a breach and leaves `k` frames, or it satisfies `Q`. -/
def Safe {α : Type} (k : Nat) (Q : α → Machine → Prop) : Outcome α → Prop
  | .error (e, m) => e.isBreach = false ∧ Intact k m
  | .ok (a, m) => Q a m

theorem Safe.error {α β : Type} {k : Nat} {Q : α → Machine → Prop} {R : β → Machine → Prop}
    {e : Failure × Machine} (h : Safe k Q (.error e)) : Safe k R (.error e) := by
  obtain ⟨e, m⟩ := e
  exact h

def Gives (program : List Node) (shapes : List Shape) (t : Ty) (o : Outcome Value) : Prop :=
  Safe shapes.length (fun v m => v.type? = some t ∧ MachineTyped program shapes m) o

/-- Every parameter has an argument, which gives a value of its type in the caller's frame. The entry
function has neither. -/
structure ArgsSound (program : List Node) (callers : List Shape) (s : Signature)
    (args : List Argument) : Prop where
  entry : callers = [] → s.params = []
  sound : ∀ (i : Nat) (p : Decl) (t : Ty), s.params[i]? = some p → p.type = some t →
    ∃ arg : Argument, args[i]? = some arg ∧
      ∀ m, MachineTyped program callers m → Gives program callers t (arg m)

def EnterSound (program : List Node) (enter : Enter) : Prop :=
  ∀ s body args shapes m t, .func s body ∈ program → s.ret = some t → shapes ≠ [] →
    ArgsSound program shapes s args → MachineTyped program shapes m →
      Gives program shapes t (enter s body args m)

/-! ## Operators and names -/

theorem operate_sound {op : Token} {o : Operator} {l r : Value} {t : Ty}
    (hop : op.kind = .operator o) (ht : t.isNumeric = true) (hl : l.type? = some t)
    (hr : r.type? = some t) {k : Nat} {m : Machine} (hm : Intact k m) {R : Value → Machine → Prop}
    (hR : ∀ v, v.type? = some t → R v m) :
    Safe k R (match operate op l r with
      | .error e => .error (e, m)
      | .ok v => .ok (v, m)) := by
  cases t with
  | int =>
      cases l <;> cases hl
      cases r <;> cases hr
      rename_i a b
      cases hval : intOperation o a b with
      | none =>
          simp only [operate, hop, hval]
          exact ⟨rfl, hm⟩
      | some v =>
          simp only [operate, hop, hval]
          exact hR _ rfl
  | float =>
      cases l <;> cases hl
      cases r <;> cases hr
      simp only [operate, hop]
      exact hR _ rfl
  | _ => cases ht

theorem paramIndex?_of_mem {s : Signature} {p : Decl} (hnodup : (namesOf s.params).Nodup)
    (hp : p ∈ s.params) : ∃ i, s.paramIndex? p.name.lexeme = some i ∧ s.params[i]? = some p := by
  cases hi : s.paramIndex? p.name.lexeme with
  | none =>
      rw [Signature.paramIndex?, List.findIdx?_eq_none_iff] at hi
      simpa using hi p hp
  | some i =>
      obtain ⟨hlt, hname, -⟩ := List.findIdx?_eq_some_iff_getElem.1 hi
      rw [decide_eq_true_iff] at hname
      have hsame : s.params[i] = p :=
        List.inj_on_of_nodup_map hnodup (List.getElem_mem hlt) hp hname
      exact ⟨i, rfl, by rw [List.getElem?_eq_getElem hlt, hsame]⟩

theorem paramIndex?_eq_none {s : Signature} {x : Bytes} (h : x ∉ namesOf s.params) :
    s.paramIndex? x = none := by
  rw [Signature.paramIndex?, List.findIdx?_eq_none_iff]
  intro p hp
  simp only [decide_eq_false_iff_not]
  rintro rfl
  exact h (List.mem_map_of_mem hp)

/-- **A name has a value of its type**: a parameter because its argument has, a binding because it is
in the log. -/
theorem lookup_sound {σ : Shape} {rest : List Shape} {args : List Argument}
    (hargs : ArgsSound program rest σ.signature args) {name : Token} {t : Ty}
    (h : HasType program σ.signature σ.scope (.ref name) t) {m : Machine}
    (hm : MachineTyped program (σ :: rest) m) :
    Gives program (σ :: rest) t (lookup args name m) := by
  obtain ⟨frame, callers, sink⟩ := m
  cases hm with
  | cons hf hrest =>
  obtain ⟨hparams, -, hapart⟩ := List.nodup_append.1 hf.nodup
  have hsig : frame.signature = σ.signature := hf.signature
  have hm : MachineTyped program (σ :: rest) ⟨frame, callers, sink⟩ := .cons hf hrest
  unfold lookup
  cases hcache : frame.cache.lookup name.lexeme with
  | some v =>
      obtain ⟨q, hq, hqname, hqtype⟩ := hf.cache _ v (mem_of_lookup hcache)
      refine ⟨?_, hm⟩
      cases h with
      | param hp hname ht =>
          have hsame := List.inj_on_of_nodup_map hparams hq hp (hqname.trans hname.symm)
          rw [hqtype, hsame, ht]
      | var hname =>
          exact absurd hqname (hapart _ (List.mem_map_of_mem hq) _ (List.mem_map.2 ⟨_, hname, rfl⟩))
  | none =>
      cases h with
      | @param _ p _ hp hname ht =>
          obtain ⟨i, hi, hget⟩ := paramIndex?_of_mem hparams hp
          rw [hname] at hi
          cases hrest with
          | nil =>
              rw [hargs.entry rfl] at hp
              cases hp
          | @cons σ' caller rest callers hcaller hcallers =>
              obtain ⟨arg, harg, hsound⟩ := hargs.sound i p t hget ht
              simp only [hsig, hi, harg]
              have hout := hsound ⟨caller, callers, sink⟩ (.cons hcaller hcallers)
              split
              · rename_i e outer heq
                rw [heq] at hout
                exact ⟨hout.1, hout.2.resume hf.log⟩
              · rename_i v outer heq
                rw [heq] at hout
                obtain ⟨hv, houter⟩ := hout
                refine ⟨hv, .cons ⟨hf.function, hf.bound, hf.nodup, rfl, ?_, hf.vars, hf.log⟩
                  houter⟩
                intro x w hw
                rcases List.mem_cons.1 hw with hw | hw
                · cases hw
                  exact ⟨p, hp, hname, by rw [hv, ht]⟩
                · exact hf.cache x w hw
      | var hname =>
          have hnone : σ.signature.paramIndex? name.lexeme = none :=
            paramIndex?_eq_none fun hx =>
              hapart _ hx _ (List.mem_map.2 ⟨_, hname, rfl⟩) rfl
          obtain ⟨v, hv, htype⟩ := hf.vars _ _ hname
          simp only [hsig, hnone, hv]
          exact ⟨htype, hm⟩

/-! ## Expressions -/

/-- The argument of a well-typed call that goes with a parameter. -/
theorem actual_of_param {α : Type} {callee : Signature} {ts : List Ty} {actuals : List α}
    (hparams : callee.params.map Decl.type = ts.map some) (hlength : actuals.length = ts.length)
    {i : Nat} {p : Decl} {t : Ty} (hp : callee.params[i]? = some p) (ht : p.type = some t) :
    ∃ a, actuals[i]? = some a ∧ (a, t) ∈ actuals.zip ts := by
  have hts : ts[i]? = some t := by
    have hith := congrArg (·[i]?) hparams
    simp only [List.getElem?_map, hp, Option.map_some, ht] at hith
    obtain ⟨t', ht', heq⟩ := Option.map_eq_some_iff.1 hith.symm
    cases heq
    exact ht'
  have hi : i < actuals.length := by
    rw [hlength]
    exact (List.getElem?_eq_some_iff.1 hts).1
  have hactual : actuals[i]? = some actuals[i] := List.getElem?_eq_getElem hi
  exact ⟨actuals[i], hactual, List.mem_of_getElem? (List.getElem?_zip_eq_some.2 ⟨hactual, hts⟩)⟩

/-- The arguments of a well-typed call are those that its function expects. -/
theorem argsSound_of_call {σ : Shape} {rest : List Shape} {callee : Signature} {ts : List Ty}
    {actuals : List Node} {evalIn : Node → Argument}
    (hparams : callee.params.map Decl.type = ts.map some) (hlength : actuals.length = ts.length)
    (hactuals : ∀ p ∈ actuals.zip ts, ∀ m, MachineTyped program (σ :: rest) m →
      Gives program (σ :: rest) p.2 (evalIn p.1 m)) :
    ArgsSound program (σ :: rest) callee (actuals.map evalIn) := by
  refine ⟨by simp, ?_⟩
  intro i p t hp ht
  obtain ⟨a, ha, hmem⟩ := actual_of_param hparams hlength hp ht
  exact ⟨evalIn a, by rw [List.getElem?_map, ha, Option.map_some], hactuals _ hmem⟩

/-- **A well-typed expression evaluates to a value of its type, if it evaluates at all.** -/
theorem eval_sound (hready : Ready program) {enter : Enter} (henter : EnterSound program enter)
    {σ : Shape} {rest : List Shape} {args : List Argument}
    (hargs : ArgsSound program rest σ.signature args) {n : Node} {t : Ty}
    (h : HasType program σ.signature σ.scope n t) {P : Token → Prop} (hn : n.IsExpr P)
    (hcalls : ∀ x ∈ n.calls, HasBody program x) {m : Machine}
    (hm : MachineTyped program (σ :: rest) m) :
    Gives program (σ :: rest) t (eval program enter args n m) := by
  induction h generalizing m with
  | int | float | bool | string =>
      rw [eval]
      exact ⟨rfl, hm⟩
  | param hp hname ht =>
      rw [eval]
      exact lookup_sound hargs (.param hp hname ht) hm
  | var hname =>
      rw [eval]
      exact lookup_sound hargs (.var hname) hm
  | binary op ht _ _ ihl ihr =>
      cases hn with
      | binary o hop _ hl hr =>
      rw [Node.calls, List.forall_mem_append] at hcalls
      rw [eval]
      have houtl := ihl hl hcalls.1 hm
      split
      · rename_i e heq
        rw [heq] at houtl
        exact houtl.error
      rename_i l m₁ heq
      rw [heq] at houtl
      have houtr := ihr hr hcalls.2 houtl.2
      split
      · rename_i e heq
        rw [heq] at houtr
        exact houtr.error
      rename_i r m₂ heq
      rw [heq] at houtr
      exact operate_sound hop ht houtl.1 houtr.1 houtr.2.intact fun v hv => ⟨hv, houtr.2⟩
  | @call name actuals callee ts t hcallee hparams hlength _ hret ih =>
      cases hn with
      | call _ hexprs =>
      rw [Node.calls, List.forall_mem_cons] at hcalls
      obtain ⟨body, hfound, hmem⟩ := hready.complete.findFunction?_eq hcallee hcalls.1
      simp only [eval, hfound, suspend_eq_map]
      refine henter callee body _ _ m t hmem hret (List.cons_ne_nil _ _) ?_ hm
      refine argsSound_of_call hparams hlength fun p hp m hm => ?_
      have hactual := (List.of_mem_zip hp).1
      exact ih p hp (hexprs _ hactual)
        (fun x hx => hcalls.2 x (calls_subset_callsIn hactual hx)) hm

/-! ## Bodies -/

/-- What running the statements `ns` comes to: a value of the return type, or no value if none of
them is a `return`. -/
def BodyGives (program : List Node) (σ : Shape) (rest : List Shape) (ns : List Node)
    (o : Outcome (Value × Bool)) : Prop :=
  Safe (rest.length + 1) (fun r m => MachineTyped program (σ :: rest) m ∧
    if r.2 then r.1.type? = σ.signature.ret
    else r.1 = .void ∧ ∀ n ∈ ns, n.isReturn = false) o

section

variable {enter : Enter} {args : List Argument} {s : Signature} {body : List Node} {Γ Δ : Scope}
  {rest : List Shape} {n : Node} {ns : List Node} {m : Machine}

/-- A statement and what follows it: the statement may make a name visible. -/
theorem BodyGives.cons (hsub : Γ.Sublist Δ)
    (hn : BodyGives program ⟨s, body, Δ⟩ rest [n] (runBody program enter args [n] m))
    (hns : ∀ m, MachineTyped program (⟨s, body, Δ⟩ :: rest) m →
      BodyGives program ⟨s, body, Δ⟩ rest ns (runBody program enter args ns m)) :
    BodyGives program ⟨s, body, Γ⟩ rest (n :: ns) (runBody program enter args (n :: ns) m) := by
  rw [runBody_cons]
  split
  · rename_i e heq
    rw [heq] at hn
    exact hn.error
  · rename_i v m' heq
    rw [heq] at hn
    exact ⟨hn.1.weaken hsub, hn.2⟩
  · rename_i v m' heq
    rw [heq] at hn
    obtain ⟨hm', -, hnret⟩ := hn
    have hout := hns m' hm'
    generalize runBody program enter args ns m' = out at hout
    cases out with
    | error e => exact hout.error
    | ok r =>
        obtain ⟨⟨v, returned⟩, m''⟩ := r
        refine ⟨hout.1.weaken hsub, ?_⟩
        cases returned with
        | true => exact hout.2
        | false => exact ⟨hout.2.1, List.forall_mem_cons.2 ⟨hnret n List.mem_cons_self, hout.2.2⟩⟩

/-- A statement whose value is of type `t`, with the binding it makes. -/
theorem BodyGives.single {t : Ty} (hcond : ∀ token c b, n ≠ .cond token c b)
    (hout : Gives program (⟨s, body, Γ⟩ :: rest) t (eval program enter args n m))
    (hret : n.isReturn = true → s.ret = some t)
    (hrecord : ∀ v m', v.type? = some t → MachineTyped program (⟨s, body, Γ⟩ :: rest) m' →
      MachineTyped program (⟨s, body, Δ⟩ :: rest) (m'.record n v)) :
    BodyGives program ⟨s, body, Δ⟩ rest [n] (runBody program enter args [n] m) := by
  rw [runBody_single _ _ _ _ _ hcond]
  split
  · rename_i e heq
    rw [heq] at hout
    exact hout.error
  · rename_i v m' heq
    rw [heq] at hout
    obtain ⟨hv, hm'⟩ := hout
    refine ⟨hrecord v m' hv hm', ?_⟩
    cases hn : n.isReturn with
    | true => simpa [hret hn] using hv
    | false => simpa using hn

theorem BodyGives.valid {σ : Shape} {v : Value} {returned : Bool} (hret : σ.signature.ret.isSome)
    (h : BodyGives program σ rest ns (.ok ((v, returned), m))) : v ≠ .invalid := by
  cases returned with
  | true =>
      obtain ⟨t, ht⟩ := Option.isSome_iff_exists.1 hret
      exact Value.ne_invalid (h.2.trans ht)
  | false =>
      obtain ⟨-, rfl, -⟩ := h
      exact fun h => nomatch h

theorem branch_sound {σ : Shape} (token : Token) {c : Node}
    (hc : Gives program (σ :: rest) .bool (eval program enter args c m))
    (hbody : ∀ m, MachineTyped program (σ :: rest) m →
      BodyGives program σ rest ns (runBody program enter args ns m)) :
    BodyGives program σ rest []
      (branch token (eval program enter args c) (runBody program enter args ns) m) := by
  unfold branch
  cases hcond : eval program enter args c m with
  | error e =>
      rw [hcond] at hc
      exact hc.error
  | ok r =>
      obtain ⟨v, m₁⟩ := r
      rw [hcond] at hc
      obtain ⟨hv, hm₁⟩ := hc
      cases v with
      | bool b =>
          cases b with
          | false => exact ⟨hm₁, rfl, by simp⟩
          | true =>
              have hout := hbody m₁ hm₁
              simp only
              generalize runBody program enter args ns m₁ = out at hout
              cases out with
              | error e => exact hout.error
              | ok r =>
                  obtain ⟨⟨v, returned⟩, m₂⟩ := r
                  cases returned with
                  | true => exact hout
                  | false => exact ⟨hout.1, hout.2.1, by simp⟩
      | _ => cases hv

theorem BodyGives.cond {token : Token} {c : Node}
    (hbranch : BodyGives program ⟨s, body, Γ⟩ rest []
      (branch token (eval program enter args c) (runBody program enter args ns) m))
    (hret : s.ret.isSome) :
    BodyGives program ⟨s, body, Γ⟩ rest [.cond token c ns]
      (runBody program enter args [.cond token c ns] m) := by
  rw [runBody_cond]
  split
  · rename_i e heq
    rw [heq] at hbranch
    exact hbranch.error
  · rename_i v m' heq
    rw [heq] at hbranch
    exact ⟨hbranch.1.record (by simp) (hbranch.valid hret), hbranch.2⟩
  · rename_i v m' heq
    rw [heq] at hbranch
    exact ⟨hbranch.1.record (by simp) (hbranch.valid hret), rfl, by simp [Node.isReturn]⟩

end

theorem emit_sound {shapes : List Shape} {token : Token} {v : Value} {m : Machine}
    (hv : v ≠ .invalid) (hm : MachineTyped program shapes m) :
    Gives program shapes .void (emit token v m) := by
  have hvalid : v.isValid = true := by cases v <;> simp_all [Value.isValid]
  unfold emit
  rw [if_pos hvalid]
  split
  · exact ⟨rfl, hm⟩
  · exact ⟨rfl, hm.intact⟩

theorem print_sound {shapes : List Shape} {enter : Enter} {args : List Argument} (token : Token)
    {a : Node} (more : List Node) {t : Ty} {m : Machine}
    (ha : Gives program shapes t (eval program enter args a m)) :
    Gives program shapes .void (eval program enter args (.print token (a :: more)) m) := by
  rw [eval]
  split
  · rename_i e heq
    rw [heq] at ha
    exact ha.error
  · rename_i v m' heq
    rw [heq] at ha
    exact emit_sound (Value.ne_invalid ha.1) ha.2

/-- **A well-typed body runs to a value of the function's return type, or to no value.** -/
theorem runBody_sound (hready : Ready program) {enter : Enter} (henter : EnterSound program enter)
    {s : Signature} {body : List Node} (hmem : .func s body ∈ program) {rest : List Shape}
    {args : List Argument} (hargs : ArgsSound program rest s args) {Γ : Scope} {ns ns' : List Node}
    (h : BodyTyped program s Γ ns ns') {P : Token → Prop} :
    bindings ns' ⊆ bindings body → (∀ n ∈ ns', n.IsStatement P) →
    (∀ x ∈ callsIn ns', HasBody program x) →
    ∀ m, MachineTyped program (⟨s, body, Γ⟩ :: rest) m →
      BodyGives program ⟨s, body, Γ⟩ rest ns' (runBody program enter args ns' m) := by
  induction h with
  | nil Γ =>
      intro _ _ _ m hm
      exact ⟨hm, rfl, by simp⟩
  | @expr Γ e t ns ns' he _ ih =>
      intro hbound hshape hcalls m hm
      rw [bindings_cons, List.append_subset] at hbound
      rw [List.forall_mem_cons] at hshape
      rw [callsIn, List.forall_mem_append] at hcalls
      have hexpr := he.isExpr hshape.1
      have hout := eval_sound (σ := ⟨s, body, Γ⟩) hready henter hargs he hexpr hcalls.1 hm
      refine .cons (.refl Γ) (.single ?_ hout ?_ ?_) (ih hbound.2 hshape.2 hcalls.2)
      · rintro token c b rfl
        cases he
      · intro hret
        cases he <;> cases hret
      · intro v m' hv hm'
        refine hm'.record ?_ (Value.ne_invalid hv)
        rintro d w rfl
        cases he
  | @assign Γ d v t ns ns' hv hvoid hd hnew _ ih =>
      intro hbound hshape hcalls m hm
      rw [bindings_cons, List.append_subset, bindings_assign] at hbound
      rw [List.forall_mem_cons] at hshape
      rw [callsIn, List.forall_mem_append, Node.calls] at hcalls
      have hexpr := hshape.1.assign_value
      have hout := eval_sound (σ := ⟨s, body, Γ⟩) hready henter hargs hv hexpr hcalls.1 hm
      have heval : Gives program (⟨s, body, Γ⟩ :: rest) t
          (eval program enter args (.assign { d with type := some t } v) m) := by
        rw [eval]
        exact hout
      refine .cons (.cons _ (.refl Γ)) (.single ?_ heval ?_ ?_) (ih hbound.2 hshape.2 hcalls.2)
      · intro _ _ _ h
        cases h
      · intro h
        cases h
      · exact fun w m' hw hm' => hm'.record_assign (d := { d with type := some t }) hw hnew
          (hbound.1 List.mem_cons_self)
  | @print Γ token a more t ns ns' ha hvoid _ ih =>
      intro hbound hshape hcalls m hm
      rw [bindings_cons, List.append_subset] at hbound
      rw [List.forall_mem_cons] at hshape
      rw [callsIn, List.forall_mem_append, Node.calls, callsIn, List.forall_mem_append] at hcalls
      have hexpr := hshape.1.print_args a List.mem_cons_self
      have hout := eval_sound (σ := ⟨s, body, Γ⟩) hready henter hargs ha hexpr hcalls.1.1 hm
      refine .cons (.refl Γ) (.single ?_ (print_sound token more hout) ?_ ?_) (ih hbound.2 hshape.2 hcalls.2)
      · intro _ _ _ h
        cases h
      · intro h
        cases h
      · exact fun v m' hv hm' => hm'.record (by simp) (Value.ne_invalid hv)
  | @ret Γ token v t ns ns' hv hret _ ih =>
      intro hbound hshape hcalls m hm
      rw [bindings_cons, List.append_subset] at hbound
      rw [List.forall_mem_cons] at hshape
      rw [callsIn, List.forall_mem_append, Node.calls] at hcalls
      have hexpr := hshape.1.ret_value
      have hout := eval_sound (σ := ⟨s, body, Γ⟩) hready henter hargs hv hexpr hcalls.1 hm
      have heval : Gives program (⟨s, body, Γ⟩ :: rest) t
          (eval program enter args (.ret token v) m) := by
        rw [eval]
        exact hout
      refine .cons (.refl Γ) (.single ?_ heval ?_ ?_) (ih hbound.2 hshape.2 hcalls.2)
      · intro _ _ _ h
        cases h
      · exact fun _ => hret
      · exact fun v m' hv hm' => hm'.record (by simp) (Value.ne_invalid hv)
  | @cond Γ token c body' body'' ns ns' hc _ _ ihb ih =>
      intro hbound hshape hcalls m hm
      rw [bindings_cons, List.append_subset, bindings_cond] at hbound
      rw [List.forall_mem_cons] at hshape
      rw [callsIn, List.forall_mem_append, Node.calls, List.forall_mem_append] at hcalls
      obtain ⟨hexpr, hstatements⟩ := hshape.1.cond_parts
      have hout := eval_sound (σ := ⟨s, body, Γ⟩) hready henter hargs hc hexpr hcalls.1.1 hm
      have hret : s.ret.isSome := (hready.signatures _ hmem s rfl).2.1
      exact .cons (.refl Γ) (.cond
        (branch_sound token hout (ihb hbound.1 hstatements hcalls.1.2)) hret)
        (ih hbound.2 hshape.2 hcalls.2)

/-- What a call gives once the body has been run: without a `return` among its statements the function
is Void. -/
theorem Ready.value_type (hready : Ready program) {s : Signature} {body : List Node}
    (hmem : .func s body ∈ program) {t : Ty} (hret : s.ret = some t) {v : Value} {returned : Bool}
    (hv : if returned then v.type? = s.ret else v = .void ∧ ∀ n ∈ body, n.isReturn = false) :
    (if returned then v else .void).type? = some t := by
  cases returned with
  | true => exact hv.trans hret
  | false =>
      by_cases hvoid : s.ret = some .void
      · rw [hret] at hvoid
        cases hvoid
        rfl
      · obtain ⟨n, hn, hreturn⟩ := hready.complete.returns s body hmem hvoid
        rw [hv.2 n hn] at hreturn
        cases hreturn

/-- **Functions give values of their return type**, however many frames may still be added. -/
theorem enter_sound (hready : Ready program) (depth : Nat) :
    EnterSound program (enter program depth) := by
  induction depth with
  | zero =>
      intro s body args shapes m t hmem hret hne hargs hm
      exact ⟨rfl, hm.intact⟩
  | succ depth ih =>
      intro s body args shapes m t hmem hret hne hargs hm
      have hout := runBody_sound hready ih hmem hargs (hready.typed s body hmem)
        (List.Subset.refl _) (hready.body_shape hmem) (hready.body_calls hmem) _
        (hm.push hready hmem)
      rw [enter]
      split
      · rename_i e m' heq
        rw [heq] at hout
        exact ⟨hout.1, hout.2.pop (by simpa using hne)⟩
      · rename_i v returned m' heq
        rw [heq] at hout
        obtain ⟨hm', hvalue⟩ := hout
        exact ⟨hready.value_type hmem hret hvalue, hm'.pop hne⟩

end Run

end Swiftlet
