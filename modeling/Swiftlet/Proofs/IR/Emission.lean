import Swiftlet.Proofs.IR.Lowered

/-!
# What lowering emits

The lowering of typed code as relations with one rule for each thing that is emitted, so that what
holds of the emitted code can be shown by induction.

* `Emits c s Γ σ os σ'` — the code of expressions takes the state `σ` to `σ'` and leaves their
  values in the operands `os`, in order.
* `LowersBody c s Γ ns σ σ'` — the statements `ns` take the state `σ` to `σ'`.
* `Everywhere P Q blocks` — `P` holds of every instruction and `Q` of every terminator, at the site
  where it stands.

Principal results: `emits_of_lowerValue` and `lowersBody_of_typed`, that typed code is lowered by
these rules, and `BodyCode.lowers`, the same of the functions of a module.
-/

namespace Swiftlet

namespace IR

open Typing

/-! ## Expressions -/

/-- An operand that is written out. -/
def Operand.IsLiteral : Operand → Prop
  | .int _ | .double _ | .bool _ => True
  | _ => False

/-- Of each operand the rules say how its code begins, of the others how it goes on. -/
inductive Emits (c : Context) (s : Signature) (Γ : Scope) :
    State → List Operand → State → Prop where
  | nil (σ : State) : Emits c s Γ σ [] σ
  | literal {o : Operand} {os : List Operand} {σ σ' : State} (ho : o.IsLiteral)
      (hrest : Emits c s Γ σ os σ') : Emits c s Γ σ (o :: os) σ'
  | string (v : Bytes) {os : List Operand} {σ σ' : State}
      (hrest : Emits c s Γ (σ.stringConstant v).2 os σ') :
      Emits c s Γ σ ((σ.stringConstant v).1 :: os) σ'
  | param {i : Nat} {p : Decl} {t : Swiftlet.Ty} {os : List Operand} {σ σ' : State}
      (hp : s.params[i]? = some p) (ht : p.type = some t) (hrest : Emits c s Γ σ os σ') :
      Emits c s Γ σ (.param i (Ty.of t) :: os) σ'
  | load {x : Bytes} {t : Swiftlet.Ty} {slot : Site} {os : List Operand} {σ σ' : State}
      (hx : (x, t) ∈ Γ) (hslot : σ.locals.lookup x = some ⟨slot, Ty.of t⟩)
      (hrest : Emits c s Γ (σ.emit (.load (Ty.of t) slot)).2 os σ') :
      Emits c s Γ σ (.result σ.site (Ty.of t) :: os) σ'
  | arithmetic {op : Arithmetic} {l r : Operand} {t : Swiftlet.Ty} {os : List Operand}
      {σ σ₁ σ' : State} (ht : t.isNumeric = true) (hvalues : Emits c s Γ σ [l, r] σ₁)
      (hl : l.type = Ty.of t) (hr : r.type = Ty.of t)
      (hrest : Emits c s Γ (σ₁.emit (.arithmetic op l r)).2 os σ') :
      Emits c s Γ σ (.result σ₁.site (Ty.of t) :: os) σ'
  | call {callee : Signature} {i : Nat} {args : List Operand} {t : Swiftlet.Ty}
      {os : List Operand} {σ σ₁ σ₂ σ' : State}
      (hcallee : lastSignature? c.program callee.name.lexeme = some callee)
      (hdeclare : declare c.entry callee σ = .ok (i, σ₁)) (hvalues : Emits c s Γ σ₁ args σ₂)
      (hargs : args.map Operand.type = callee.params.map fun p => (paramOf p).type)
      (ht : callee.ret = some t) (hrest : Emits c s Γ (σ₂.emit (.call i (Ty.of t) args)).2 os σ') :
      Emits c s Γ σ (.result σ₂.site (Ty.of t) :: os) σ'

section

variable {c : Context} {s : Signature} {Γ : Scope} {σ σ' : State}

theorem Emits.straight {os : List Operand} (h : Emits c s Γ σ os σ') (hopen : σ.Open) :
    Straight c σ σ' := by
  induction h with
  | nil => exact .refl hopen
  | literal _ _ ih => exact ih hopen
  | string v _ ih =>
      have hstring := constant_straight (c := c) hopen [] (v ++ [0])
      exact hstring.trans (ih hstring.isOpen)
  | param _ _ _ ih => exact ih hopen
  | load _ _ _ ih =>
      exact (emit_straight hopen _).trans (ih (hopen.emit _).1)
  | arithmetic _ _ _ _ _ ihv ih =>
      have hvalues := ihv hopen
      exact (hvalues.trans (emit_straight hvalues.isOpen _)).trans (ih (hvalues.isOpen.emit _).1)
  | call hcallee hdeclare _ _ _ _ ihv ih =>
      have hdeclared := declare_straight hopen hcallee hdeclare
      have hvalues := hdeclared.trans (ihv hdeclared.isOpen)
      exact (hvalues.trans (emit_straight hvalues.isOpen _)).trans (ih (hvalues.isOpen.emit _).1)

theorem constant_type (σ : State) (name content : Bytes) :
    (σ.constant name content).1.type = .pointer := by
  unfold State.constant
  split <;> rfl

/-- The code of an expression in front of the code of others. -/
def EmitsFirst (c : Context) (s : Signature) (Γ : Scope) (σ : State) (o : Operand) (σ₁ : State) :
    Prop :=
  ∀ {os : List Operand} {σ' : State}, Emits c s Γ σ₁ os σ' → Emits c s Γ σ (o :: os) σ'

theorem emits_of_lowerValues {args : List Node} {ts : List Swiftlet.Ty}
    (hlength : args.length = ts.length)
    (hargs : ∀ p ∈ args.zip ts, ∀ (σ σ₁ : State) (o : Operand), σ.Open →
      Declarations c.entry c.program σ.functions → LocalsFit Γ σ.locals →
      lowerValue c p.1 σ = .ok (o, σ₁) → o.type = Ty.of p.2 ∧ EmitsFirst c s Γ σ o σ₁)
    {os : List Operand} (hopen : σ.Open) (hσ : Declarations c.entry c.program σ.functions)
    (hlocals : LocalsFit Γ σ.locals) (h : lowerValues c args σ = .ok (os, σ')) :
    os.map Operand.type = ts.map Ty.of ∧ Emits c s Γ σ os σ' := by
  induction args generalizing ts σ os with
  | nil =>
      obtain rfl := List.length_eq_zero_iff.1 hlength.symm
      cases h
      exact ⟨rfl, .nil _⟩
  | cons n rest ih =>
      cases ts with
      | nil => cases hlength
      | cons t ts =>
      rw [List.zip_cons_cons, List.forall_mem_cons] at hargs
      obtain ⟨o, σ₁, os', hn, hrest, rfl⟩ := lowerValues_cons h
      obtain ⟨htype, hfirst⟩ := hargs.1 _ _ _ hopen hσ hlocals hn
      have hstraight := lowerValue_straight n hopen hn
      obtain ⟨htypes, hemits⟩ := ih (Nat.succ.inj hlength) hargs.2 hstraight.isOpen
        (hσ.added hstraight.functions) (hstraight.locals ▸ hlocals) hrest
      exact ⟨by rw [List.map_cons, List.map_cons, htype, htypes], hfirst hemits⟩

/-- **A typed expression is lowered by the rules**, to an operand of its type. -/
theorem emits_of_lowerValue (hlow : Emittable c.entry c.program) (hparams : ParamsFit c.params s)
    (hnodup : (namesOf s.params ++ Γ.names).Nodup) {n : Node} {t : Swiftlet.Ty}
    (h : HasType c.program s Γ n t) {P : Token → Prop} (hn : n.IsExpr P) {o : Operand}
    (hopen : σ.Open) (hσ : Declarations c.entry c.program σ.functions)
    (hlocals : LocalsFit Γ σ.locals) (hvalue : lowerValue c n σ = .ok (o, σ')) :
    o.type = Ty.of t ∧ EmitsFirst c s Γ σ o σ' := by
  induction h generalizing σ σ' o with
  | int | float | bool =>
      rw [lowerValue] at hvalue
      cases hvalue
      exact ⟨rfl, fun hrest => .literal trivial hrest⟩
  | string _ v =>
      rw [lowerValue, Except.ok.injEq] at hvalue
      obtain ⟨rfl, rfl⟩ : (σ.stringConstant v).1 = o ∧ (σ.stringConstant v).2 = σ' := by
        rw [hvalue]
        exact ⟨rfl, rfl⟩
      exact ⟨constant_type σ [] (v ++ [0]), fun hrest => .string v hrest⟩
  | @param name p t hp hname ht =>
      obtain ⟨i, hi⟩ := List.mem_iff_getElem?.1 hp
      rw [lowerValue, lowerRef_param hparams hi hname ht] at hvalue
      cases hvalue
      exact ⟨rfl, fun hrest => .param hi ht hrest⟩
  | @var name t hname =>
      obtain ⟨site, hsite⟩ := hlocals _ _ hname
      have habsent : name.lexeme ∉ namesOf s.params := fun hx =>
        (List.nodup_append.1 hnodup).2.2 _ hx _ (List.mem_map.2 ⟨_, hname, rfl⟩) rfl
      rw [lowerValue, lowerRef_var hparams habsent hsite] at hvalue
      cases hvalue
      exact ⟨rfl, fun hrest => .load hname hsite hrest⟩
  | binary op ht _ _ ihl ihr =>
      cases hn with
      | binary o hop _ hl hr =>
      obtain ⟨lo, σ₁, ro, σ₂, i, hlower, hlower', -, rfl, rfl⟩ := lowerValue_binary hvalue
      obtain ⟨hltype, hleft⟩ := ihl hl hopen hσ hlocals hlower
      have hstraight := lowerValue_straight _ hopen hlower
      obtain ⟨hrtype, hright⟩ := ihr hr hstraight.isOpen (hσ.added hstraight.functions)
        (hstraight.locals ▸ hlocals) hlower'
      refine ⟨hltype, fun hrest => ?_⟩
      rw [hltype]
      exact .arithmetic ht (hleft (hright (.nil _))) hltype hrtype hrest
  | @call name args callee ts t hcallee hps hlength _ hret ih =>
      cases hn with
      | call _ hexprs =>
      have hlast := lastSignature?_eq_some_iff.2 hcallee
      obtain ⟨callee', i, σ₁, f, os, σ₂, hs, hdeclare, hf, hvalues, rfl, rfl⟩ :=
        lowerValue_call hvalue
      rw [hlast, Option.some.injEq] at hs
      subst hs
      rw [← lastSignature?_name hlast] at hlast
      have hstraight := declare_straight hopen hlast hdeclare
      obtain ⟨f', hf', -, -, hfret⟩ := hlow.declare_function hlast hret hσ hdeclare
      rw [hf, Option.some.injEq] at hf'
      subst hf'
      obtain ⟨htypes, hemits⟩ := emits_of_lowerValues hlength
        (fun p hp _ _ _ hopen hσ hlocals hvalue =>
          ih p hp (hexprs _ (List.of_mem_zip hp).1) hopen hσ hlocals hvalue)
        hstraight.isOpen (hσ.added hstraight.functions) (hstraight.locals ▸ hlocals) hvalues
      have hargs : os.map Operand.type = callee.params.map fun p => (paramOf p).type := by
        have hgetD := congrArg (List.map fun t => Ty.of (t.getD .void)) hps
        simp only [List.map_map] at hgetD
        rw [htypes]
        exact hgetD.symm
      rw [hfret]
      exact ⟨rfl, fun hrest => .call hlast hdeclare hemits hargs hret hrest⟩

end

/-! ## Statements -/

/-- Hands `v` to `printf` with the format `text`. -/
def State.print (σ : State) (v : Operand) (name text : Bytes) : State :=
  let widened := σ.widen v
  let format := widened.2.constant name (text ++ [0])
  (format.2.emit (.call 0 .i32 [format.1, widened.1])).2

/-- What a `return` of `v` returns. -/
def Context.returned (c : Context) (v : Operand) : Option Operand :=
  if v.type = .void ∨ c.ret = .void then none else some v

inductive LowersBody (c : Context) (s : Signature) :
    Scope → List Node → State → State → Prop where
  | nil {Γ : Scope} {σ : State} (hopen : σ.Open) : LowersBody c s Γ [] σ σ
  | expr {Γ : Scope} {e : Node} {t : Swiftlet.Ty} {ns : List Node} {o : Operand} {σ σ₁ σ' : State}
      (hopen : σ.Open) (he : HasType c.program s Γ e t) (hvalue : Emits c s Γ σ [o] σ₁)
      (hrest : LowersBody c s Γ ns σ₁ σ') : LowersBody c s Γ (e :: ns) σ σ'
  | assign {Γ : Scope} {d : Decl} {v : Node} {t : Swiftlet.Ty} {ns : List Node} {o : Operand}
      {σ σ₁ σ' : State} (hopen : σ.Open) (hvoid : t ≠ .void)
      (hnew : d.name.lexeme ∉ namesOf s.params ++ Γ.names) (hvalue : Emits c s Γ σ [o] σ₁)
      (htype : o.type = Ty.of t)
      (hrest : LowersBody c s ((d.name.lexeme, t) :: Γ) ns (σ₁.bind d.name.lexeme o) σ') :
      LowersBody c s Γ (.assign d v :: ns) σ σ'
  | print {Γ : Scope} {token : Token} {a : Node} {more ns : List Node} {name text : Bytes}
      {o : Operand} {σ σ₁ σ' : State} (hopen : σ.Open) (hvalue : Emits c s Γ σ [o] σ₁)
      (hformat : format? o.type = some (name, text))
      (hrest : LowersBody c s Γ ns (σ₁.print o name text) σ') :
      LowersBody c s Γ (.print token (a :: more) :: ns) σ σ'
  | ret {Γ : Scope} {token : Token} {v : Node} {t : Swiftlet.Ty} {ns : List Node} {o : Operand}
      {σ σ₁ : State} (hopen : σ.Open) (hvalue : Emits c s Γ σ [o] σ₁) (htype : o.type = Ty.of t)
      (hret : s.ret = some t) :
      LowersBody c s Γ (.ret token v :: ns) σ (σ₁.terminate (.ret (c.returned o)))
  | cond {Γ : Scope} {token : Token} {condition : Node} {body ns : List Node} {o : Operand}
      {σ σ₁ σ₂ σ' : State} (hopen : σ.Open) (hvalue : Emits c s Γ σ [o] σ₁)
      (htype : o.type = .i1) (hbody : LowersBody c s Γ body (σ₁.branch o) σ₂)
      (hrest : LowersBody c s Γ ns (σ₂.join (σ₁.blocks.length + 1)) σ') :
      LowersBody c s Γ (.cond token condition body :: ns) σ σ'

theorem exists_of_map_eq_ok {ε α β : Type} {x : Except ε α} {f : α → β} {b : β}
    (h : x.map f = .ok b) : ∃ a, x = .ok a ∧ b = f a := by
  cases x with
  | error e => cases h
  | ok a =>
      cases h
      exact ⟨a, rfl, rfl⟩

theorem isReturn_of_hasType {program : List Node} {s : Signature} {Γ : Scope} {n : Node}
    {t : Swiftlet.Ty} (h : HasType program s Γ n t) : n.isReturn = false := by
  cases h <;> rfl

section

variable {c : Context} {σ σ' : State}

theorem lowerStatement_print {token : Token} {a : Node} {more : List Node}
    (h : lowerStatement c (.print token (a :: more)) σ = .ok σ') :
    ∃ o σ₁ name text, lowerValue c a σ = .ok (o, σ₁) ∧ format? o.type = some (name, text) ∧
      σ' = σ₁.print o name text := by
  rw [lowerStatement] at h
  split at h
  · cases h
  rename_i o σ₁ hvalue
  cases hformat : format? o.type with
  | none =>
      rw [lowerPrint, hformat] at h
      cases h
  | some format =>
      rw [lowerPrint_eq _ _ hformat] at h
      cases h
      exact ⟨o, σ₁, _, _, hvalue, hformat, rfl⟩

theorem lowerStatement_ret {token : Token} {v : Node}
    (h : lowerStatement c (.ret token v) σ = .ok σ') :
    ∃ o σ₁, lowerValue c v σ = .ok (o, σ₁) ∧ σ' = σ₁.terminate (.ret (c.returned o)) := by
  rw [lowerStatement] at h
  split at h
  · cases h
  rename_i o σ₁ hvalue
  cases h
  exact ⟨o, σ₁, hvalue, rfl⟩

/-- A variable takes two instructions. -/
theorem bind_straight (hopen : σ.Open) (x : Bytes) (v : Operand) :
    Straight c σ { σ.bind x v with locals := σ.locals } := by
  have hslot : Straight c σ (σ.emit (.alloca v.type)).2 := emit_straight hopen _
  exact hslot.trans (emit_straight hslot.isOpen (.store v (σ.emit (.alloca v.type)).1))

theorem bind_length (σ : State) (x : Bytes) (v : Operand) :
    (σ.bind x v).blocks.length = σ.blocks.length := by
  simp [State.bind, State.emit]

theorem bind_follows (hopen : σ.Open) (x : Bytes) (v : Operand) :
    Follows c σ (σ.bind x v) false := by
  have hstraight : Straight c σ { σ.bind x v with locals := σ.locals } := bind_straight hopen x v
  exact ⟨⟨hstraight.globals, hstraight.functions, hstraight.blocks, hstraight.others,
    hstraight.current⟩, hstraight.isOpen.lt, hstraight.isOpen.isTerminated_eq⟩

theorem print_straight (hopen : σ.Open) (v : Operand) (name text : Bytes) :
    Straight c σ (σ.print v name text) := by
  have hwiden : Straight c σ (σ.widen v).2 := widen_straight hopen
  have hconstant := hwiden.trans (constant_straight hwiden.isOpen name (text ++ [0]))
  exact hconstant.trans (emit_straight hconstant.isOpen _)

theorem Follows.trans {σ'' : State} {ended : Bool} (h : Follows c σ σ' false)
    (h' : Follows c σ' σ'' ended) : Follows c σ σ'' ended :=
  ⟨h.toGrows.trans h'.toGrows, h'.inRange, h'.isTerminated⟩

end

section

variable {c : Context} {s : Signature} {Γ : Scope} {ns : List Node} {σ σ' : State}

theorem LowersBody.follows (h : LowersBody c s Γ ns σ σ') :
    Follows c σ σ' (ns.any Node.isReturn) := by
  induction h with
  | nil hopen => exact (Straight.refl hopen).follows
  | expr hopen he hvalue _ ih =>
      rw [List.any_cons, isReturn_of_hasType he, Bool.false_or]
      exact (hvalue.straight hopen).trans_follows ih
  | assign hopen _ _ hvalue _ _ ih =>
      have hstraight := hvalue.straight hopen
      exact hstraight.trans_follows ((bind_follows hstraight.isOpen _ _).trans ih)
  | print hopen hvalue _ _ ih =>
      have hstraight := hvalue.straight hopen
      exact hstraight.trans_follows ((print_straight hstraight.isOpen _ _ _).trans_follows ih)
  | ret hopen hvalue _ _ =>
      have hstraight := hvalue.straight hopen
      exact hstraight.trans_follows (terminate_follows hstraight.isOpen _)
  | cond hopen hvalue _ _ _ ihb ih =>
      have hstraight := hvalue.straight hopen
      exact hstraight.trans_follows
        ((join_follows hstraight.isOpen ihb.toGrows ihb.inRange).1.trans ih)

/-- **What was visible before a body is found where it was**, whatever the body declares. -/
theorem LowersBody.kept (h : LowersBody c s Γ ns σ σ') : LocalsKept Γ σ σ' := by
  induction h with
  | nil => exact fun _ _ => rfl
  | expr hopen _ hvalue _ ih =>
      intro x hx
      rw [ih x hx, (hvalue.straight hopen).locals]
  | @assign Γ d v t ns o σ σ₁ σ' hopen _ hnew hvalue _ _ ih =>
      intro x hx
      rw [ih x (List.mem_cons_of_mem _ hx)]
      show List.lookup x ((d.name.lexeme, _) :: σ₁.locals) = _
      rw [lookup_cons_of_new, if_neg, (hvalue.straight hopen).locals]
      rintro rfl
      exact hnew (List.mem_append_right _ hx)
  | print hopen hvalue _ _ ih =>
      intro x hx
      have hstraight := hvalue.straight hopen
      rw [ih x hx, (print_straight (c := c) hstraight.isOpen _ _ _).locals, hstraight.locals]
  | ret hopen hvalue _ _ =>
      intro x hx
      rw [← (hvalue.straight hopen).locals]
      rfl
  | cond hopen hvalue _ _ _ ihb ih =>
      intro x hx
      rw [ih x hx, (join_shared _ _).2.2, ihb x hx, ← (hvalue.straight hopen).locals]
      rfl

end

/-- **A typed body that is lowered follows the rules.** -/
theorem lowersBody_of_typed {c : Context} {s : Signature} (hlow : Emittable c.entry c.program)
    (hparams : ParamsFit c.params s) {Γ : Scope} {ns ns' : List Node}
    (h : BodyTyped c.program s Γ ns ns') {P : Token → Prop} :
    (∀ n ∈ ns', n.IsStatement P) → (namesOf s.params ++ Γ.names).Nodup → ∀ σ σ' : State, σ.Open →
    Declarations c.entry c.program σ.functions → LocalsFit Γ σ.locals →
      lowerBody c ns' σ = .ok σ' → LowersBody c s Γ ns' σ σ' := by
  induction h with
  | nil Γ =>
      intro _ _ σ σ' hopen _ _ hlower
      cases hlower
      exact .nil hopen
  | @expr Γ e t ns ns' he _ ih =>
      intro hshape hnodup σ σ' hopen hσ hlocals hlower
      rw [List.forall_mem_cons] at hshape
      obtain ⟨σ₁, hn, -, hrest⟩ := lowerBody_cons hlower
      have hexpr := he.isExpr hshape.1
      rw [lowerStatement_expr hexpr] at hn
      obtain ⟨⟨o, σ₂⟩, hvalue, rfl⟩ := exists_of_map_eq_ok hn
      obtain ⟨-, hemits⟩ := emits_of_lowerValue hlow hparams hnodup he hexpr hopen hσ hlocals hvalue
      have hstraight := lowerValue_straight e hopen hvalue
      exact .expr hopen he (hemits (.nil _)) (ih hshape.2 hnodup _ _ hstraight.isOpen
        (hσ.added hstraight.functions) (hstraight.locals ▸ hlocals)
        (hrest hstraight.isOpen.isTerminated_eq))
  | @assign Γ d v t ns ns' hv hvoid hd hnew _ ih =>
      intro hshape hnodup σ σ' hopen hσ hlocals hlower
      rw [List.forall_mem_cons] at hshape
      obtain ⟨σ₁, hn, -, hrest⟩ := lowerBody_cons hlower
      rw [lowerStatement_assign] at hn
      obtain ⟨⟨o, σ₂⟩, hvalue, rfl⟩ := exists_of_map_eq_ok hn
      obtain ⟨htype, hemits⟩ := emits_of_lowerValue hlow hparams hnodup hv hshape.1.assign_value
        hopen hσ hlocals hvalue
      have hstraight := lowerValue_straight v hopen hvalue
      have hbound := bind_follows (c := c) hstraight.isOpen d.name.lexeme o
      have hx : d.name.lexeme ∉ Γ.names := fun hx => hnew (List.mem_append_right _ hx)
      refine .assign hopen hvoid hnew (hemits (.nil _)) htype (ih hshape.2 ?_ _ _ hbound.isOpen
        ((hσ.added hstraight.functions).added hbound.functions) ?_ (hrest hbound.isTerminated))
      · exact nodup_params_cons.2 ⟨fun hx => hnew (List.mem_append_left _ hx), hx, hnodup⟩
      · show LocalsFit _ ((d.name.lexeme, ⟨_, o.type⟩) :: σ₂.locals)
        rw [htype]
        exact (hstraight.locals ▸ hlocals).bind hx _ t
  | @print Γ token a more t ns ns' ha hvoid _ ih =>
      intro hshape hnodup σ σ' hopen hσ hlocals hlower
      rw [List.forall_mem_cons] at hshape
      obtain ⟨σ₁, hn, -, hrest⟩ := lowerBody_cons hlower
      obtain ⟨o, σ₂, name, text, hvalue, hformat, rfl⟩ := lowerStatement_print hn
      obtain ⟨-, hemits⟩ := emits_of_lowerValue hlow hparams hnodup ha
        (hshape.1.print_args a List.mem_cons_self) hopen hσ hlocals hvalue
      have hstraight := lowerValue_straight a hopen hvalue
      have hall := hstraight.trans (print_straight hstraight.isOpen o name text)
      exact .print hopen (hemits (.nil _)) hformat (ih hshape.2 hnodup _ _ hall.isOpen
        (hσ.added hall.functions) (hall.locals ▸ hlocals) (hrest hall.isOpen.isTerminated_eq))
  | @ret Γ token v t ns ns' hv hret _ ih =>
      intro hshape hnodup σ σ' hopen hσ hlocals hlower
      rw [List.forall_mem_cons] at hshape
      obtain ⟨σ₁, hn, hended, -⟩ := lowerBody_cons hlower
      obtain ⟨o, σ₂, hvalue, rfl⟩ := lowerStatement_ret hn
      obtain ⟨htype, hemits⟩ := emits_of_lowerValue hlow hparams hnodup hv hshape.1.ret_value hopen
        hσ hlocals hvalue
      have hstraight := lowerValue_straight v hopen hvalue
      rw [hended (hstraight.isOpen.isTerminated_terminate _)]
      exact .ret hopen (hemits (.nil _)) htype hret
  | @cond Γ token condition body body' ns ns' hc _ _ ihb ih =>
      intro hshape hnodup σ σ' hopen hσ hlocals hlower
      rw [List.forall_mem_cons] at hshape
      obtain ⟨hexpr, hstatements⟩ := hshape.1.cond_parts
      obtain ⟨σ₁, hn, -, hrest⟩ := lowerBody_cons hlower
      obtain ⟨o, σ₂, σ₃, hvalue, hbody, rfl⟩ := lowerStatement_cond hn
      obtain ⟨htype, hemits⟩ :=
        emits_of_lowerValue hlow hparams hnodup hc hexpr hopen hσ hlocals hvalue
      have hstraight := lowerValue_straight condition hopen hvalue
      have hlocals₂ : LocalsFit Γ σ₂.locals := hstraight.locals ▸ hlocals
      have hinner := ihb hstatements hnodup _ _ (branch_open σ₂ o).1 (hσ.added hstraight.functions)
        hlocals₂ hbody
      have hjoined :=
        (join_follows hstraight.isOpen hinner.follows.toGrows hinner.follows.inRange).1
      have hkept : LocalsKept Γ σ₂ (σ₃.join (σ₂.blocks.length + 1)) := fun x hx => by
        rw [(join_shared _ _).2.2, hinner.kept x hx]
        rfl
      exact .cond hopen (hemits (.nil _)) htype hinner (ih hshape.2 hnodup _ _ hjoined.isOpen
        ((hσ.added hstraight.functions).added hjoined.functions) (hlocals₂.kept hkept)
        (hrest hjoined.isTerminated))

/-! ## Where code stands -/

/-- The instruction at `s`. -/
def instructionAt? (blocks : List Block) (s : Site) : Option Instruction :=
  blocks[s.block]?.bind fun b => b.instructions[s.index]?

/-- The terminator of block `k`. -/
def terminatorOf? (blocks : List Block) (k : Nat) : Option Terminator :=
  blocks[k]?.bind Block.terminator

theorem BlocksGrow.instructionAt? {bs bs' : List Block} (h : BlocksGrow bs bs') {s : Site}
    {i : Instruction} (hi : IR.instructionAt? bs s = some i) :
    IR.instructionAt? bs' s = some i := by
  obtain ⟨b, hb, hget⟩ := Option.bind_eq_some_iff.1 hi
  obtain ⟨b', hb', hgrows⟩ := h _ _ hb
  obtain ⟨more, hmore⟩ := hgrows.instructions
  refine Option.bind_eq_some_iff.2 ⟨b', hb', ?_⟩
  rw [← hmore, List.getElem?_append_left (List.getElem?_eq_some_iff.1 hget).1, hget]

theorem BlocksGrow.terminatorOf? {bs bs' : List Block} (h : BlocksGrow bs bs') {k : Nat}
    {t : Terminator} (ht : IR.terminatorOf? bs k = some t) : IR.terminatorOf? bs' k = some t := by
  obtain ⟨b, hb, hend⟩ := Option.bind_eq_some_iff.1 ht
  obtain ⟨b', hb', hgrows⟩ := h _ _ hb
  refine Option.bind_eq_some_iff.2 ⟨b', hb', ?_⟩
  rw [hgrows.ended (by rw [hend]; rfl), hend]

section

variable {σ : State}

theorem emit_instructionAt? (hopen : σ.Open) (i : Instruction) (s : Site) :
    instructionAt? (σ.emit i).2.blocks s =
      if s = σ.site then some i else instructionAt? σ.blocks s := by
  obtain ⟨b, hb, -⟩ := hopen
  have hblock : σ.block = b := State.block_eq hb
  obtain ⟨k, j⟩ := s
  simp only [instructionAt?, State.emit_getElem?, State.site, hblock, Site.mk.injEq]
  by_cases hk : k = σ.current
  · subst hk
    simp only [hb, Option.map_some, if_true, Option.bind_some, true_and, List.getElem?_append]
    grind
  · cases σ.blocks[k]? <;> simp [hk, Ne.symm hk]

theorem emit_terminatorOf? (σ : State) (i : Instruction) (k : Nat) :
    terminatorOf? (σ.emit i).2.blocks k = terminatorOf? σ.blocks k := by
  simp only [terminatorOf?, State.emit_getElem?]
  cases σ.blocks[k]? with
  | none => rfl
  | some b => by_cases hk : σ.current = k <;> simp [hk]

theorem terminate_instructionAt? (σ : State) (t : Terminator) (s : Site) :
    instructionAt? (σ.terminate t).blocks s = instructionAt? σ.blocks s := by
  simp only [instructionAt?, State.terminate_getElem?]
  cases σ.blocks[s.block]? with
  | none => rfl
  | some b => by_cases hk : σ.current = s.block <;> simp [hk]

theorem terminate_terminatorOf? (hlt : σ.current < σ.blocks.length) (t : Terminator) (k : Nat) :
    terminatorOf? (σ.terminate t).blocks k =
      if k = σ.current then some t else terminatorOf? σ.blocks k := by
  simp only [terminatorOf?, State.terminate_getElem?]
  by_cases hk : k = σ.current
  · subst hk
    simp [List.getElem?_eq_getElem hlt]
  · cases σ.blocks[k]? <;> simp [hk, Ne.symm hk]

/-- There is nothing in empty blocks. -/
theorem getElem?_bind_append_empty {α : Type} (f : Block → Option α) (hf : f .empty = none)
    (bs : List Block) (k : Nat) : (bs ++ [.empty, .empty])[k]?.bind f = bs[k]?.bind f := by
  rcases Nat.lt_or_ge k bs.length with hlt | hge
  · rw [List.getElem?_append_left hlt]
  · rw [List.getElem?_append_right hge, List.getElem?_eq_none hge, Option.bind_none]
    match k - bs.length with
    | 0 | 1 => exact hf
    | _ + 2 => rfl

theorem branch_instructionAt? (σ : State) (v : Operand) (s : Site) :
    instructionAt? (σ.branch v).blocks s = instructionAt? σ.blocks s :=
  (getElem?_bind_append_empty _ rfl _ _).trans (terminate_instructionAt? σ _ s)

theorem branch_terminatorOf? (hlt : σ.current < σ.blocks.length) (v : Operand) (k : Nat) :
    terminatorOf? (σ.branch v).blocks k =
      if k = σ.current then some (.condBr v σ.blocks.length (σ.blocks.length + 1))
      else terminatorOf? σ.blocks k :=
  (getElem?_bind_append_empty _ rfl _ _).trans (terminate_terminatorOf? hlt _ k)

/-- A block that has not ended goes on in the block `merge`. -/
theorem join_terminatorOf? (hlt : σ.current < σ.blocks.length) (merge : Nat) (k : Nat) :
    terminatorOf? (σ.join merge).blocks k =
      if k = σ.current ∧ σ.isTerminated = false then some (.br merge)
      else terminatorOf? σ.blocks k := by
  unfold State.join
  cases hended : σ.isTerminated with
  | true => simp
  | false => simpa using terminate_terminatorOf? hlt _ k

end

/-- `P` holds of every instruction and `Q` of every terminator. -/
structure Everywhere (P : Site → Instruction → Prop) (Q : Nat → Terminator → Prop)
    (blocks : List Block) : Prop where
  instructions : ∀ s i, instructionAt? blocks s = some i → P s i
  terminators : ∀ k t, terminatorOf? blocks k = some t → Q k t

section

variable {P P' : Site → Instruction → Prop} {Q Q' : Nat → Terminator → Prop} {σ : State}

theorem Everywhere.mono {blocks : List Block} (h : Everywhere P Q blocks)
    (hP : ∀ s i, P s i → P' s i) (hQ : ∀ k t, Q k t → Q' k t) : Everywhere P' Q' blocks :=
  ⟨fun s i hi => hP s i (h.instructions s i hi), fun k t ht => hQ k t (h.terminators k t ht)⟩

theorem Everywhere.emit (h : Everywhere P Q σ.blocks) (hopen : σ.Open) {i : Instruction}
    (hi : P σ.site i) : Everywhere P Q (σ.emit i).2.blocks := by
  refine ⟨fun s i' hget => ?_, fun k t ht => ?_⟩
  · rw [emit_instructionAt? hopen] at hget
    split at hget
    · rename_i hs
      cases hget
      exact hs ▸ hi
    · exact h.instructions s i' hget
  · rw [emit_terminatorOf?] at ht
    exact h.terminators k t ht

theorem Everywhere.terminate (h : Everywhere P Q σ.blocks) (hlt : σ.current < σ.blocks.length)
    {t : Terminator} (ht : Q σ.current t) : Everywhere P Q (σ.terminate t).blocks := by
  refine ⟨fun s i hget => ?_, fun k t' hget => ?_⟩
  · rw [terminate_instructionAt?] at hget
    exact h.instructions s i hget
  · rw [terminate_terminatorOf? hlt] at hget
    split at hget
    · rename_i hk
      cases hget
      exact hk ▸ ht
    · exact h.terminators k t' hget

theorem Everywhere.branch (h : Everywhere P Q σ.blocks) (hlt : σ.current < σ.blocks.length)
    {v : Operand} (ht : Q σ.current (.condBr v σ.blocks.length (σ.blocks.length + 1))) :
    Everywhere P Q (σ.branch v).blocks := by
  have hended := h.terminate hlt ht
  refine ⟨fun s i hget => h.instructions s i ?_, fun k t hget => hended.terminators k t ?_⟩
  · rwa [branch_instructionAt?] at hget
  · rwa [branch_terminatorOf? hlt, ← terminate_terminatorOf? hlt] at hget

theorem Everywhere.join (h : Everywhere P Q σ.blocks) (hlt : σ.current < σ.blocks.length)
    {merge : Nat} (ht : σ.isTerminated = false → Q σ.current (.br merge)) :
    Everywhere P Q (σ.join merge).blocks := by
  unfold State.join
  cases hended : σ.isTerminated with
  | true => exact h
  | false => exact h.terminate hlt (ht hended)

/-- What holds of the blocks of a body holds of its function if a return may end the last block. -/
theorem finish_blocks_of {R : List Block → Prop} {isVoid : Bool} (h : R σ.blocks)
    (hlt : σ.current < σ.blocks.length)
    (hret : isVoid = true → σ.Open → R (σ.terminate (.ret none)).blocks) :
    R (σ.finish isVoid).blocks := by
  unfold State.finish
  split
  · rename_i hend
    simp only [Bool.and_eq_true, Bool.not_eq_true'] at hend
    exact hret hend.2 (State.open_of_not_terminated hlt hend.1)
  · exact h

/-- There is no code at the start of a body. -/
theorem everywhere_fresh : Everywhere P Q σ.fresh.blocks := by
  refine ⟨fun s i hi => ?_, fun k t ht => ?_⟩
  · obtain ⟨b, hb, hget⟩ := Option.bind_eq_some_iff.1 hi
    obtain rfl := List.mem_singleton.1 (List.mem_of_getElem? hb)
    cases hget
  · obtain ⟨b, hb, hend⟩ := Option.bind_eq_some_iff.1 ht
    obtain rfl := List.mem_singleton.1 (List.mem_of_getElem? hb)
    cases hend

theorem State.finish_length (σ : State) (isVoid : Bool) :
    (σ.finish isVoid).blocks.length = σ.blocks.length := by
  unfold State.finish
  split <;> simp [State.terminate]

end

/-! ## The code of functions -/

section

variable {entry : Bytes} {program : List Node} {m : Shared} {s : Signature} {body : List Node}
  {i : Nat} {f : Function} {σ₀ σ₁ : State}

/-- The code of a function follows the rules. -/
theorem BodyCode.lowers (h : BodyCode entry program m s body i f σ₀ σ₁)
    (hlow : Emittable entry program) (hm : Declarations entry program m.functions)
    (hmem : .func s body ∈ program) :
    LowersBody ⟨entry, program, f.ret, paramOperands f⟩ s [] body σ₀.fresh σ₁ ∧
      f.params = s.params.map paramOf ∧ ∃ t, s.ret = some t ∧ f.ret = Ty.of t := by
  have hs := hlow.distinct.lastSignature?_eq hmem rfl
  obtain ⟨t, ht⟩ := Option.isSome_iff_exists.1 (hlow.signatures _ hmem s rfl).2.1
  have hpos := (numberOf?_eq_some_iff.1 h.number).1
  obtain ⟨hparams, hret⟩ := hlow.declared (hm.declared i f hpos h.function) (h.name_eq ▸ hs) ht
  have hfit : ParamsFit (paramOperands f) s :=
    paramOperands_fit hparams (hlow.params_nodup hmem) (hlow.shown s body hmem)
  refine ⟨?_, hparams, t, ht, hret⟩
  exact lowersBody_of_typed (c := ⟨entry, program, f.ret, paramOperands f⟩) hlow hfit
    (hlow.typed s body hmem) (hlow.body_shape hmem) (by simpa using hlow.params_nodup hmem) _ _
    σ₀.fresh_open h.declarations (fun x t hx => nomatch hx) h.lowered

/-- Of the functions with one item a name only the Void ones end with a return of their own. -/
theorem Emittable.isVoid_eq (h : Emittable entry program) (hmem : .func s body ∈ program) :
    (decide (s.ret = some .void) || decide (s.name.lexeme = entry)) =
      decide (s.ret = some .void) := by
  by_cases hname : s.name.lexeme = entry
  · have hs := h.distinct.lastSignature?_eq hmem rfl
    have hs : lastSignature? program s.name.lexeme = some s := hs
    rw [hname] at hs
    simp [h.entryVoid s hs]
  · simp [hname]

end

end IR

end Swiftlet
