import Swiftlet.Proofs.Parsing.Shape
import Swiftlet.Proofs.Typing.Judgment

/-!
# The checker decides the rules

`analyze` accepts a parsed program exactly if the rules of `WellTyped` do, and the tree it gives back
is the one that the rules give.

* `HasType.of_check` and `HasType.check_eq` — an expression is checked to be of the type that the
  rules give it.
* `BodyTyped.of_checkBody` and `BodyTyped.checkBody_eq` — the same for the statements of a body. The
  pass that collects names has gone over the body before; from it comes that a bound name is new.
* `collectBody_spec` — what the collecting pass finds out about a body.
* `WellTyped.of_analyze` and `WellTyped.analyze_eq` — the same for programs.

Principal result: `analyze_eq_ok_iff`.
-/

namespace Swiftlet

namespace Typing

variable {P : Token → Prop} {c : Context} {Γ : Scope}

/-! ## Parameters -/

theorem Signature.param?_eq_some {s : Signature} {x : Bytes} {p : Decl}
    (h : s.param? x = some p) : p ∈ s.params ∧ p.name.lexeme = x :=
  ⟨List.mem_of_find?_eq_some h, by simpa using List.find?_some h⟩

theorem Signature.param?_eq_none {s : Signature} {x : Bytes} :
    s.param? x = none ↔ x ∉ namesOf s.params := by
  simp [Signature.param?, namesOf]

/-- What the body of a function is checked against. -/
abbrev Context.of (program : List Node) (s : Signature) (body : List Node) : Context :=
  ⟨program, s, namesOf (s.params ++ boundByAll body)⟩

/-- Types are written down in every signature. -/
structure Context.Annotated (c : Context) : Prop where
  params : ∀ p ∈ c.signature.params, p.type.isSome
  ret : ∀ name callee, IsLastItem c.program name callee → callee.ret.isSome

/-- What the checker relies on: a scope of new names that the function is known to bind, and types
that can be stored. -/
structure Context.Fits (c : Context) (Γ : Scope) : Prop extends c.Annotated where
  nodup : (namesOf c.signature.params ++ Γ.names).Nodup
  names : Γ.names ⊆ c.names
  storable : ∀ name callee, IsLastItem c.program name callee →
    ∀ p ∈ callee.params, p.type ≠ some .void

theorem Context.Fits.bind (hc : c.Fits Γ) {x : Bytes} (t : Ty)
    (hx : x ∉ namesOf c.signature.params ++ Γ.names) (hname : x ∈ c.names) :
    c.Fits ((x, t) :: Γ) := by
  refine ⟨hc.toAnnotated, ?_, List.cons_subset.2 ⟨hname, hc.names⟩, hc.storable⟩
  show (namesOf c.signature.params ++ x :: Γ.names).Nodup
  rw [List.nodup_middle]
  exact List.nodup_cons.2 ⟨hx, hc.nodup⟩

/-! ## Parts of an outcome -/

theorem requireValue_eq_ok_iff {n : Node} {o : Outcome Node} {d : Done Node} {t : Ty} :
    requireValue n o = .ok (d, t) ↔ o = .ok d ∧ d.type = some t ∧ t ≠ .void := by
  cases o with
  | error e => simp [requireValue]
  | ok d' =>
      simp only [requireValue, Except.ok.injEq]
      constructor
      · intro h
        split at h
        · cases h
        · cases h
        · rename_i t' hvoid ht'
          cases h
          exact ⟨rfl, ht', hvoid⟩
      · rintro ⟨rfl, ht, hvoid⟩
        rw [ht]
        cases t with
        | void => exact absurd rfl hvoid
        | _ => rfl

theorem within_eq_ok_iff {α β : Type} {f : α → β} {o : Outcome α} {d : Done β} :
    o.within f = .ok d ↔ ∃ d', o = .ok d' ∧ d = ⟨f d'.tree, d'.scope, d'.type⟩ := by
  cases o with
  | error e => simp [Outcome.within]
  | ok d' => simp [Outcome.within, eq_comm]

theorem within_eq_error_iff {α β : Type} {f : α → β} {o : Outcome α} {s : Stopped β} :
    o.within f = .error s ↔ ∃ s', o = .error s' ∧ s = ⟨s'.error, f s'.tree⟩ := by
  cases o with
  | error s' => simp [Outcome.within, eq_comm]
  | ok d => simp [Outcome.within]

/-! ## The shape of what is filled in -/

theorem isStatement_assign {d : Decl} {v : Node} (h : (Node.assign d v).IsStatement P)
    (t : Option Ty) : (Node.assign { d with type := t } v).IsStatement P := by
  cases h with
  | expr he => cases he
  | assign hd hv => exact .assign hd hv

theorem isStatement_cond {t : Token} {e : Node} {body body' : List Node}
    (h : (Node.cond t e body).IsStatement P)
    (hbody : (∀ n ∈ body, n.IsStatement P) → ∀ n ∈ body', n.IsStatement P) :
    (Node.cond t e body').IsStatement P := by
  cases h with
  | expr he => cases he
  | cond ht he hinner => exact .cond ht he (hbody hinner)

/-- Filling in types keeps the shape of statements. -/
theorem BodyTyped.isStatement {program : List Node} {s : Signature} {ns ns' : List Node}
    (h : BodyTyped program s Γ ns ns') (hns : ∀ n ∈ ns, n.IsStatement P) :
    ∀ n ∈ ns', n.IsStatement P := by
  induction h with
  | nil Γ => exact hns
  | expr _ _ ih | print _ _ _ _ _ ih | ret _ _ _ _ ih =>
      rw [List.forall_mem_cons] at hns ⊢
      exact ⟨hns.1, ih hns.2⟩
  | assign _ _ _ _ _ ih =>
      rw [List.forall_mem_cons] at hns ⊢
      exact ⟨isStatement_assign hns.1 _, ih hns.2⟩
  | cond _ _ _ _ ihb ih =>
      rw [List.forall_mem_cons] at hns ⊢
      exact ⟨isStatement_cond hns.1 ihb, ih hns.2⟩

theorem ItemTyped.isStatement {program : List Node} {n n' : Node} (h : ItemTyped program n n')
    (hn : n.IsStatement P) : n'.IsStatement P := by
  cases h with
  | signature _ => exact hn
  | func _ _ hbody => exact .func (hn.isParsed rfl) (hbody.isStatement hn.func_body)

/-! ## Expressions: what is accepted is well typed -/

theorem HasType.isExpr {program : List Node} {s : Signature} {n : Node} {t : Ty}
    (h : HasType program s Γ n t) (hn : n.IsStatement P) : n.IsExpr P := by
  cases hn with
  | expr he => exact he
  | _ => cases h

/-- An outcome for the expression `n` says that it has a type and changes nothing. -/
def Accepted (c : Context) (Γ : Scope) (n : Node) (d : Done Node) : Prop :=
  ∃ t, d = ⟨n, Γ, some t⟩ ∧ HasType c.program c.signature Γ n t

theorem checkRef_sound (hc : c.Annotated) {name : Token} {t : Option Ty}
    (h : checkRef c Γ name = .ok t) :
    ∃ t', t = some t' ∧ HasType c.program c.signature Γ (.ref name) t' := by
  unfold checkRef at h
  split at h
  · rename_i p hp
    cases h
    obtain ⟨hmem, hname⟩ := Signature.param?_eq_some hp
    obtain ⟨t', ht'⟩ := Option.isSome_iff_exists.1 (hc.params p hmem)
    exact ⟨t', ht', .param hmem hname ht'⟩
  · split at h
    · split at h
      · rename_i t' hlookup
        cases h
        exact ⟨t', rfl, .var (mem_of_lookup hlookup)⟩
      · cases h
    · cases h

theorem checkArgs_sound {name : Bytes} {args : List Node}
    (hargs : ∀ a ∈ args, ∀ d, check c Γ a = .ok d → Accepted c Γ a d) :
    ∀ {params : List Decl} {k : Nat} {d : Done (List Node)}, args.length = params.length →
      checkArgs c Γ name k params args = .ok d →
      d.tree = args ∧ d.scope = Γ ∧ ∃ ts, params.map Decl.type = ts.map some ∧
        args.length = ts.length ∧ ∀ p ∈ args.zip ts, HasType c.program c.signature Γ p.1 p.2 := by
  induction args with
  | nil =>
      intro params k d hlength h
      rw [checkArgs, Except.ok.injEq] at h
      subst h
      rw [List.length_nil, eq_comm, List.length_eq_zero_iff] at hlength
      exact ⟨rfl, rfl, [], by rw [hlength]; rfl, rfl, by simp⟩
  | cons a args ih =>
      intro params k d hlength h
      obtain ⟨ha, hargs⟩ := List.forall_mem_cons.1 hargs
      rw [checkArgs] at h
      split at h
      · cases h
      rename_i da t hda
      obtain ⟨hcheck, ht, -⟩ := requireValue_eq_ok_iff.1 hda
      obtain ⟨t', rfl, htyped⟩ := ha da hcheck
      cases ht
      split at h
      · simp at hlength
      rename_i p params
      split at h
      · cases h
      rename_i hp
      obtain ⟨rest, hrest, rfl⟩ := within_eq_ok_iff.1 h
      obtain ⟨htree, hscope, ts, hts, hlen, hzip⟩ := ih hargs (by simpa using hlength) hrest
      refine ⟨by rw [htree], hscope, t :: ts, ?_, by simp [hlen], ?_⟩
      · rw [List.map_cons, List.map_cons, hts, not_not.1 hp]
      · rw [List.zip_cons_cons, List.forall_mem_cons]
        exact ⟨htyped, hzip⟩

/-- **An accepted expression has the type it was given.** -/
theorem HasType.of_check (hc : c.Annotated) {n : Node} (hn : n.IsExpr P) :
    ∀ d, check c Γ n = .ok d → Accepted c Γ n d := by
  induction hn with
  | @int t v ht =>
      intro d h
      simp only [check, Except.ok.injEq] at h
      exact ⟨.int, h.symm, .int t v⟩
  | @float t v ht =>
      intro d h
      simp only [check, Except.ok.injEq] at h
      exact ⟨.float, h.symm, .float t v⟩
  | @bool t v ht =>
      intro d h
      simp only [check, Except.ok.injEq] at h
      exact ⟨.bool, h.symm, .bool t v⟩
  | @string t v ht =>
      intro d h
      simp only [check, Except.ok.injEq] at h
      exact ⟨.string, h.symm, .string t v⟩
  | @ref name hname =>
      intro d h
      simp only [check] at h
      split at h
      · cases h
      · rename_i t href
        cases h
        obtain ⟨t', rfl, htyped⟩ := checkRef_sound hc href
        exact ⟨t', rfl, htyped⟩
  | @binary l r op o hop ht hl hr ihl ihr =>
      intro d h
      simp only [check] at h
      split at h
      · cases h
      rename_i dl tl hdl
      obtain ⟨hcheck, htl, -⟩ := requireValue_eq_ok_iff.1 hdl
      obtain ⟨tl', rfl, hltyped⟩ := ihl dl hcheck
      cases htl
      split at h
      · cases h
      rename_i dr tr hdr
      obtain ⟨hcheck, htr, -⟩ := requireValue_eq_ok_iff.1 hdr
      obtain ⟨tr', rfl, hrtyped⟩ := ihr dr hcheck
      cases htr
      split at h
      · cases h
      rename_i hsame
      rw [not_not] at hsame
      subst hsame
      split at h
      · rename_i hnumeric
        cases h
        exact ⟨tl, rfl, .binary op hnumeric hltyped hrtyped⟩
      · cases h
  | @call name args hname hargs ih =>
      intro d h
      simp only [check] at h
      split at h
      · cases h
      rename_i callee hcallee
      rw [lastSignature?_eq_some_iff] at hcallee
      split at h
      · cases h
      rename_i hlength
      split at h
      · cases h
      rename_i da hda
      cases h
      obtain ⟨htree, hscope, ts, hts, hlen, hzip⟩ := checkArgs_sound ih (not_not.1 hlength) hda
      obtain ⟨t, ht⟩ := Option.isSome_iff_exists.1 (hc.ret _ _ hcallee)
      exact ⟨t, by rw [htree, hscope, ht], .call hcallee hts hlen hzip ht⟩

/-! ## Expressions: what is well typed is accepted -/

theorem checkRef_complete (hc : c.Fits Γ) {name : Token} {t : Ty}
    (h : HasType c.program c.signature Γ (.ref name) t) : checkRef c Γ name = .ok (some t) := by
  unfold checkRef
  split
  · rename_i p hp
    obtain ⟨hmem, hname⟩ := Signature.param?_eq_some hp
    obtain ⟨t', ht'⟩ := Option.isSome_iff_exists.1 (hc.params p hmem)
    rw [ht', h.unique hc.nodup (.param hmem hname ht')]
  · rename_i hnone
    rw [Signature.param?_eq_none] at hnone
    cases h with
    | param hp hname ht => exact absurd (hname ▸ List.mem_map_of_mem hp) hnone
    | var hname =>
        have hx : c.names.contains name.lexeme = true :=
          List.contains_iff_mem.2 (hc.names (List.mem_map_of_mem hname))
        rw [if_pos hx, (lookup_eq_some_iff_mem (List.nodup_append.1 hc.nodup).2.1).2 hname]

theorem checkArgs_complete (name : Bytes) :
    ∀ {args : List Node} {params : List Decl} {ts : List Ty} (k : Nat),
      params.map Decl.type = ts.map some → args.length = ts.length →
      (∀ p ∈ args.zip ts, check c Γ p.1 = .ok ⟨p.1, Γ, some p.2⟩) → (∀ t ∈ ts, t ≠ .void) →
      checkArgs c Γ name k params args = .ok ⟨args, Γ, none⟩
  | [], params, ts, k, hparams, hlength, _, _ => by simp only [checkArgs]
  | a :: args, [], [], k, _, hlength, _, _ => by simp at hlength
  | a :: args, p :: params, t :: ts, k, hparams, hlength, hargs, hvoid => by
    simp only [List.map_cons, List.cons.injEq] at hparams
    rw [List.zip_cons_cons, List.forall_mem_cons] at hargs
    rw [List.forall_mem_cons] at hvoid
    have ha : requireValue a (check c Γ a) = .ok (⟨a, Γ, some t⟩, t) :=
      requireValue_eq_ok_iff.2 ⟨hargs.1, rfl, hvoid.1⟩
    have hrest := checkArgs_complete name (k + 1) hparams.2 (by simpa using hlength)
      hargs.2 hvoid.2
    simp only [checkArgs, ha, hparams.1, hrest, ne_eq, not_true_eq_false, if_false]
    rfl

/-- **A well-typed expression is accepted with its type, and nothing changes.** -/
theorem HasType.check_eq (hc : c.Fits Γ) {n : Node} {t : Ty}
    (h : HasType c.program c.signature Γ n t) : check c Γ n = .ok ⟨n, Γ, some t⟩ := by
  induction h with
  | int | float | bool | string => simp only [check]
  | param hp hname ht => simp only [check, checkRef_complete hc (.param hp hname ht)]
  | var hname => simp only [check, checkRef_complete hc (.var hname)]
  | @binary l r op t ht hl hr ihl ihr =>
      have hvoid : t ≠ .void := by rintro rfl; cases ht
      have hl : requireValue l (check c Γ l) = .ok (⟨l, Γ, some t⟩, t) :=
        requireValue_eq_ok_iff.2 ⟨ihl, rfl, hvoid⟩
      have hr : requireValue r (check c Γ r) = .ok (⟨r, Γ, some t⟩, t) :=
        requireValue_eq_ok_iff.2 ⟨ihr, rfl, hvoid⟩
      simp only [check, hl, hr, ht, ne_eq, not_true_eq_false, if_false, if_true]
  | @call name args callee ts t hcallee hparams hlength hargs hret ih =>
      have hlen : args.length = callee.params.length := by
        have := congrArg List.length hparams
        rw [List.length_map, List.length_map] at this
        rw [hlength, this]
      have hvoid : ∀ t ∈ ts, t ≠ .void := by
        rintro t ht rfl
        have hmem : some Ty.void ∈ callee.params.map Decl.type := by
          rw [hparams]
          exact List.mem_map_of_mem ht
        obtain ⟨p, hp, htype⟩ := List.mem_map.1 hmem
        exact hc.storable _ _ hcallee p hp htype
      simp only [check, lastSignature?_eq_some_iff.2 hcallee, hlen, ne_eq, not_true_eq_false,
        if_false, checkArgs_complete _ 0 hparams hlength ih hvoid, hret]

/-! ## The names of a body -/

theorem nodup_params_cons {s : Signature} {bound : List Bytes} {x : Bytes} :
    (namesOf s.params ++ x :: bound).Nodup ↔
      x ∉ namesOf s.params ∧ x ∉ bound ∧ (namesOf s.params ++ bound).Nodup := by
  rw [List.nodup_middle, List.nodup_cons, List.mem_append, not_or, and_assoc]

theorem collectNode_assign_iff {s : Signature} {bound bound' : List Bytes} {d : Decl} {v : Node} :
    collectNode s bound (.assign d v) = .ok bound' ↔
      d.name.lexeme ∉ namesOf s.params ∧ d.name.lexeme ∉ bound ∧
        bound' = d.name.lexeme :: bound := by
  rw [collectNode, ← Signature.param?_eq_none]
  cases s.param? d.name.lexeme with
  | some p => simp
  | none =>
      by_cases hbound : d.name.lexeme ∈ bound
      · simp [hbound]
      · simp [hbound, eq_comm]

mutual

theorem collectNode_spec {s : Signature} : ∀ (n : Node) {bound bound' : List Bytes},
    collectNode s bound n = .ok bound' → bound' = (namesOf (boundBy n)).reverse ++ bound ∧
      ((namesOf s.params ++ bound).Nodup → (namesOf s.params ++ bound').Nodup)
  | .assign d v, bound, bound', h => by
    obtain ⟨hparam, hbound, rfl⟩ := collectNode_assign_iff.1 h
    exact ⟨rfl, fun hnodup => nodup_params_cons.2 ⟨hparam, hbound, hnodup⟩⟩
  | .cond _ _ body, _, _, h => collectBody_spec body h
  | .decl _, _, _, h => by cases h
  | .int .., _, _, h | .float .., _, _, h | .bool .., _, _, h | .string .., _, _, h
  | .ref _, _, _, h | .binary .., _, _, h | .call .., _, _, h | .signature _, _, _, h
  | .func .., _, _, h | .print .., _, _, h | .ret .., _, _, h => by
    cases h
    exact ⟨rfl, id⟩

/-- The collecting pass adds the names that a body binds, latest first, and they differ from each
other, from the names before and from the parameters. -/
theorem collectBody_spec {s : Signature} : ∀ (ns : List Node) {bound bound' : List Bytes},
    collectBody s bound ns = .ok bound' → bound' = (namesOf (boundByAll ns)).reverse ++ bound ∧
      ((namesOf s.params ++ bound).Nodup → (namesOf s.params ++ bound').Nodup)
  | [], bound, bound', h => by
    cases h
    exact ⟨rfl, id⟩
  | n :: rest, bound, bound', h => by
    rw [collectBody] at h
    split at h
    · cases h
    rename_i bound₁ hn
    obtain ⟨rfl, hfirst⟩ := collectNode_spec n hn
    obtain ⟨rfl, hrest⟩ := collectBody_spec rest h
    refine ⟨?_, fun hnodup => hrest (hfirst hnodup)⟩
    simp only [boundByAll, namesOf, List.map_append, List.reverse_append, List.append_assoc]

end

theorem namesOf_boundByAll_cons (n : Node) (rest : List Node) (bound : List Bytes) :
    (namesOf (boundByAll (n :: rest))).reverse ++ bound =
      (namesOf (boundByAll rest)).reverse ++ ((namesOf (boundBy n)).reverse ++ bound) := by
  simp only [boundByAll, namesOf, List.map_append, List.reverse_append, List.append_assoc]

theorem collectNode_of_hasType {program : List Node} {s : Signature} {n : Node} {t : Ty}
    {bound : List Bytes} (h : HasType program s Γ n t) : collectNode s bound n = .ok bound := by
  cases h <;> rfl

/-- The collecting pass accepts a well-typed body whose names are all different. -/
theorem BodyTyped.collectBody_eq {program : List Node} {s : Signature} {ns ns' : List Node}
    (h : BodyTyped program s Γ ns ns') :
    ∀ {bound : List Bytes},
      (namesOf s.params ++ ((namesOf (boundByAll ns)).reverse ++ bound)).Nodup →
      collectBody s bound ns = .ok ((namesOf (boundByAll ns)).reverse ++ bound) := by
  have hdrop : ∀ {a b : List Bytes}, (namesOf s.params ++ (a ++ b)).Nodup →
      (namesOf s.params ++ b).Nodup :=
    fun h => h.sublist (List.Sublist.append_left (List.sublist_append_right ..) _)
  induction h with
  | nil Γ => intro bound _; rfl
  | expr he _ ih =>
      intro bound hnodup
      rw [namesOf_boundByAll_cons, he.boundBy_eq_nil] at hnodup ⊢
      rw [collectBody, collectNode_of_hasType he]
      exact ih hnodup
  | @assign Γ d v t ns ns' hv hvoid hd hnew hrest ih =>
      intro bound hnodup
      rw [namesOf_boundByAll_cons] at hnodup ⊢
      have hnew : (namesOf s.params ++ d.name.lexeme :: bound).Nodup := hdrop hnodup
      obtain ⟨hparam, hbound, -⟩ := nodup_params_cons.1 hnew
      rw [collectBody, collectNode_assign_iff.2 ⟨hparam, hbound, rfl⟩]
      exact ih hnodup
  | print token more ha hvoid _ ih =>
      intro bound hnodup
      rw [namesOf_boundByAll_cons] at hnodup ⊢
      exact ih hnodup
  | ret token hv hret _ ih =>
      intro bound hnodup
      rw [namesOf_boundByAll_cons] at hnodup ⊢
      exact ih hnodup
  | cond token hc _ _ ihb ih =>
      intro bound hnodup
      rw [namesOf_boundByAll_cons] at hnodup ⊢
      rw [collectBody, collectNode, ihb (hdrop hnodup)]
      exact ih hnodup

/-! ## Bodies -/

theorem bindType_eq_ok_iff {d d' : Decl} {t : Ty} {token : Token} :
    bindType d t token = .ok d' ↔
      (d.type = none ∨ d.type = some t) ∧ d' = { d with type := some t } := by
  obtain ⟨kind, name, type⟩ := d
  cases type with
  | none => simp [bindType, Decl.resolve, eq_comm]
  | some declared =>
      by_cases hd : declared = t
      · simp [bindType, hd, eq_comm]
      · simp [bindType, hd]

/-- **An accepted body is well typed, with the types that were filled in.** -/
theorem BodyTyped.of_checkBody : ∀ (ns : List Node) {Γ : Scope} {bound bound' : List Bytes}
    {d : Done (List Node)}, (∀ n ∈ ns, n.IsStatement P) → c.Fits Γ →
    namesOf (boundByAll ns) ⊆ c.names → Γ.names ⊆ bound →
    collectBody c.signature bound ns = .ok bound' → checkBody c Γ ns = .ok d →
    BodyTyped c.program c.signature Γ ns d.tree
  | [], Γ, _, _, d, _, _, _, _, _, h => by
    simp only [checkBody, Except.ok.injEq] at h
    subst h
    exact .nil Γ
  | n :: rest, Γ, bound, bound', d, hns, hc, hnames, hbound, hcollect, h => by
    obtain ⟨hn, hrest⟩ := List.forall_mem_cons.1 hns
    rw [boundByAll, namesOf, List.map_append, List.append_subset] at hnames
    rw [collectBody] at hcollect
    split at hcollect
    · cases hcollect
    rename_i bound₁ hcollect₁
    rw [checkBody] at h
    split at h
    · cases h
    rename_i d₁ hd₁
    obtain ⟨d₂, hd₂, rfl⟩ := within_eq_ok_iff.1 h
    have hbound₁ : Γ.names ⊆ bound₁ := by
      rw [(collectNode_spec n hcollect₁).1]
      exact List.Subset.trans hbound (List.subset_append_right _ _)
    cases hn with
    | expr he =>
        obtain ⟨t, rfl, htyped⟩ := HasType.of_check hc.toAnnotated he d₁ hd₁
        exact .expr htyped
          (of_checkBody rest hrest hc hnames.2 hbound₁ hcollect hd₂)
    | decl _ => cases hcollect₁
    | signature _ => simp [check] at hd₁
    | func _ _ => simp [check] at hd₁
    | @assign d v hd hv =>
        obtain ⟨dv, t, d', hdv, hbind, rfl⟩ := check_assign_eq_ok hd₁
        obtain ⟨hcheck, ht, hvoid⟩ := requireValue_eq_ok_iff.1 hdv
        obtain ⟨t', rfl, htyped⟩ := HasType.of_check hc.toAnnotated hv dv hcheck
        cases ht
        obtain ⟨hdt, rfl⟩ := bindType_eq_ok_iff.1 hbind
        obtain ⟨hparam, hnew, rfl⟩ := collectNode_assign_iff.1 hcollect₁
        have hfresh : d.name.lexeme ∉ namesOf c.signature.params ++ Γ.names := by
          rw [List.mem_append, not_or]
          exact ⟨hparam, fun hmem => hnew (hbound hmem)⟩
        have hc' := hc.bind t hfresh (hnames.1 (by simp [boundBy]))
        exact .assign htyped hvoid hdt hfresh
          (of_checkBody rest hrest hc' hnames.2 (List.cons_subset_cons _ hbound) hcollect hd₂)
    | @print t args ht hargs =>
        obtain ⟨a, more, da, ta, rfl, hda, rfl⟩ := check_print_eq_ok hd₁
        obtain ⟨hcheck, htype, hvoid⟩ := requireValue_eq_ok_iff.1 hda
        obtain ⟨t', rfl, htyped⟩ :=
          HasType.of_check hc.toAnnotated (hargs a List.mem_cons_self) da hcheck
        cases htype
        exact .print _ more htyped hvoid
          (of_checkBody rest hrest hc hnames.2 hbound₁ hcollect hd₂)
    | @ret t v ht hv =>
        obtain ⟨dv, hdv, hret, rfl⟩ := check_ret_eq_ok hd₁
        obtain ⟨t', rfl, htyped⟩ := HasType.of_check hc.toAnnotated hv dv hdv
        exact .ret _ htyped hret.symm
          (of_checkBody rest hrest hc hnames.2 hbound₁ hcollect hd₂)
    | @cond t e body ht he hbody =>
        obtain ⟨de, db, hde, hbool, hdb, rfl⟩ := check_cond_eq_ok hd₁
        obtain ⟨t', rfl, htyped⟩ := HasType.of_check hc.toAnnotated he de hde
        cases hbool
        exact .cond _ htyped (of_checkBody body hbody hc hnames.1 hbound hcollect₁ hdb)
          (of_checkBody rest hrest hc hnames.2 hbound₁ hcollect hd₂)
termination_by ns => sizeOf ns

/-- **A well-typed body is accepted, and its types are filled in as the rules say.** -/
theorem BodyTyped.checkBody_eq {ns ns' : List Node}
    (h : BodyTyped c.program c.signature Γ ns ns') : c.Fits Γ →
    namesOf (boundByAll ns) ⊆ c.names → ∃ Δ, checkBody c Γ ns = .ok ⟨ns', Δ, none⟩ := by
  induction h with
  | nil Γ => exact fun _ _ => ⟨Γ, by rw [checkBody]⟩
  | expr he _ ih =>
      intro hc hnames
      rw [boundByAll, namesOf, List.map_append, List.append_subset] at hnames
      obtain ⟨Δ, hrest⟩ := ih hc hnames.2
      exact ⟨Δ, by simp only [checkBody, he.check_eq hc, hrest, Outcome.within]⟩
  | @assign Γ d v t ns ns' hv hvoid hd hnew _ ih =>
      intro hc hnames
      rw [boundByAll, namesOf, List.map_append, List.append_subset] at hnames
      obtain ⟨Δ, hrest⟩ := ih (hc.bind t hnew (hnames.1 (by simp [boundBy]))) hnames.2
      have hvalue : requireValue v (check c Γ v) = .ok (⟨v, Γ, some t⟩, t) :=
        requireValue_eq_ok_iff.2 ⟨hv.check_eq hc, rfl, hvoid⟩
      have hbind : bindType d t v.token = .ok { d with type := some t } :=
        bindType_eq_ok_iff.2 ⟨hd, rfl⟩
      exact ⟨Δ, by simp only [checkBody, check, hvalue, hbind, hrest, Outcome.within]⟩
  | @print Γ token a more t ns ns' ha hvoid _ ih =>
      intro hc hnames
      rw [boundByAll, namesOf, List.map_append, List.append_subset] at hnames
      obtain ⟨Δ, hrest⟩ := ih hc hnames.2
      have hvalue : requireValue a (check c Γ a) = .ok (⟨a, Γ, some t⟩, t) :=
        requireValue_eq_ok_iff.2 ⟨ha.check_eq hc, rfl, hvoid⟩
      exact ⟨Δ, by simp only [checkBody, check, hvalue, hrest, Outcome.within]⟩
  | ret token hv hret _ ih =>
      intro hc hnames
      rw [boundByAll, namesOf, List.map_append, List.append_subset] at hnames
      obtain ⟨Δ, hrest⟩ := ih hc hnames.2
      exact ⟨Δ, by simp only [checkBody, check, hv.check_eq hc, hret, if_true, hrest,
        Outcome.within]⟩
  | cond token he _ _ ihb ih =>
      intro hc hnames
      rw [boundByAll, namesOf, List.map_append, List.append_subset] at hnames
      obtain ⟨Δ, hrest⟩ := ih hc hnames.2
      obtain ⟨Δ', hbody⟩ := ihb hc hnames.1
      exact ⟨Δ, by simp only [checkBody, check, he.check_eq hc, ne_eq, not_true_eq_false, if_false,
        hbody, hrest, Outcome.within]⟩

/-! ## Single statements -/

theorem check_assign_eq (hc : c.Fits Γ) {d : Decl} {v : Node} {t : Ty}
    (hv : HasType c.program c.signature Γ v t) (hvoid : t ≠ .void)
    (hd : d.type = none ∨ d.type = some t) :
    check c Γ (.assign d v) =
      .ok ⟨.assign { d with type := some t } v, (d.name.lexeme, t) :: Γ, some t⟩ := by
  have hvalue : requireValue v (check c Γ v) = .ok (⟨v, Γ, some t⟩, t) :=
    requireValue_eq_ok_iff.2 ⟨hv.check_eq hc, rfl, hvoid⟩
  have hbind : bindType d t v.token = .ok { d with type := some t } :=
    bindType_eq_ok_iff.2 ⟨hd, rfl⟩
  simp only [check, hvalue, hbind]

theorem check_print_eq (hc : c.Fits Γ) (token : Token) {a : Node} {t : Ty}
    (ha : HasType c.program c.signature Γ a t) (hvoid : t ≠ .void) (more : List Node) :
    check c Γ (.print token (a :: more)) = .ok ⟨.print token (a :: more), Γ, some .void⟩ := by
  have hvalue : requireValue a (check c Γ a) = .ok (⟨a, Γ, some t⟩, t) :=
    requireValue_eq_ok_iff.2 ⟨ha.check_eq hc, rfl, hvoid⟩
  simp only [check, hvalue]

theorem check_ret_eq (hc : c.Fits Γ) (token : Token) {v : Node} {t : Ty}
    (hv : HasType c.program c.signature Γ v t) (hret : c.signature.ret = some t) :
    check c Γ (.ret token v) = .ok ⟨.ret token v, Γ, some t⟩ := by
  simp only [check, hv.check_eq hc, hret, if_true]

theorem check_cond_eq (hc : c.Fits Γ) (token : Token) {e : Node}
    (he : HasType c.program c.signature Γ e .bool) {body : List Node} {b : Done (List Node)}
    (hbody : checkBody c Γ body = .ok b) :
    check c Γ (.cond token e body) = .ok ⟨.cond token e b.tree, Γ, some .void⟩ := by
  simp only [check, he.check_eq hc, ne_eq, not_true_eq_false, if_false, hbody]

/-- An `if` on a truth value is checked as its body is. -/
theorem check_cond_congr (hc : c.Fits Γ) (token : Token) {e : Node}
    (he : HasType c.program c.signature Γ e .bool) {body body' : List Node}
    (hbody : checkBody c Γ body' = checkBody c Γ body) :
    check c Γ (.cond token e body') = check c Γ (.cond token e body) := by
  simp only [check, he.check_eq hc, ne_eq, not_true_eq_false, if_false, hbody]

/-! ## Items -/

theorem checkParams_eq_ok_iff {ps : List Decl} : ∀ {seen : List Bytes},
    checkParams seen ps = .ok () ↔ (∀ p ∈ ps, p.type ≠ some .void) ∧ (namesOf ps).Nodup ∧
      ∀ x ∈ namesOf ps, x ∉ seen := by
  induction ps with
  | nil => simp [checkParams]
  | cons p ps ih =>
      intro seen
      rw [checkParams, namesOf, List.map_cons, List.nodup_cons, List.forall_mem_cons,
        List.forall_mem_cons]
      split
      · rename_i hvoid
        simp [hvoid]
      split
      · rename_i hseen
        simp [hseen]
      rename_i hvoid hseen
      rw [ih]
      simp only [List.mem_cons, not_or]
      constructor
      · rintro ⟨hps, hnodup, hnew⟩
        exact ⟨⟨hvoid, hps⟩, ⟨fun hp => (hnew _ hp).1 rfl, hnodup⟩, hseen,
          fun x hx => (hnew x hx).2⟩
      · rintro ⟨⟨-, hps⟩, ⟨hp, hnodup⟩, -, hnew⟩
        exact ⟨hps, hnodup, fun x hx => ⟨fun heq => hp (heq ▸ hx), hnew x hx⟩⟩

theorem checkParams_nil_iff {s : Signature} :
    checkParams [] s.params = .ok () ↔ WellFormedSignature s := by
  rw [checkParams_eq_ok_iff]
  constructor
  · rintro ⟨hstorable, hnodup, -⟩
    exact ⟨hnodup, hstorable⟩
  · rintro ⟨hnodup, hstorable⟩
    exact ⟨hstorable, hnodup, by simp⟩

/-- What every signature of an accepted program is like. -/
def Signatures (program : List Node) : Prop :=
  ∀ n ∈ program, ∀ s, n.signature? = some s →
    WellFormedSignature s ∧ s.ret.isSome ∧ ∀ p ∈ s.params, p.type.isSome

theorem Signatures.of_isLastItem {program : List Node} (h : Signatures program) {name : Bytes}
    {callee : Signature} (hlast : IsLastItem program name callee) :
    WellFormedSignature callee ∧ callee.ret.isSome ∧ ∀ p ∈ callee.params, p.type.isSome := by
  obtain ⟨before, item, after, heq, hitem, -⟩ := hlast
  exact h item (by simp [heq]) callee hitem

theorem Signatures.annotated {program : List Node} (h : Signatures program) {s : Signature}
    {body : List Node} (hmem : .func s body ∈ program) : (Context.of program s body).Annotated :=
  ⟨(h _ hmem s rfl).2.2, fun _ _ hlast => (h.of_isLastItem hlast).2.1⟩

theorem Signatures.fits {program : List Node} (h : Signatures program) {s : Signature}
    {body : List Node} (hmem : .func s body ∈ program)
    (hnodup : (namesOf s.params ++ Γ.names).Nodup)
    (hnames : Γ.names ⊆ namesOf (s.params ++ boundByAll body)) :
    (Context.of program s body).Fits Γ :=
  ⟨h.annotated hmem, hnodup, hnames, fun _ _ hlast => (h.of_isLastItem hlast).1.storable⟩

theorem ItemTyped.of_checkItem {program : List Node} (hsigs : Signatures program) {n : Node}
    {d : Done Node} (hmem : n ∈ program) (hn : n.IsStatement P) (hcollect : collectItem n = .ok ())
    (h : checkItem program n = .ok d) : ItemTyped program n d.tree := by
  cases n with
  | signature s =>
      cases h
      exact .signature (hsigs _ hmem s rfl).1
  | func s body =>
      obtain ⟨d', hbody, rfl⟩ := within_eq_ok_iff.1 h
      rw [collectItem] at hcollect
      split at hcollect
      · cases hcollect
      split at hcollect
      · cases hcollect
      rename_i bound hbound
      have hs := (hsigs _ hmem s rfl).1
      have hnodup := (collectBody_spec body hbound).2 (by simpa using hs.nodup)
      rw [(collectBody_spec body hbound).1, List.append_nil] at hnodup
      have hnames : (namesOf (s.params ++ boundByAll body)).Nodup := by
        rw [namesOf, List.map_append]
        exact (List.perm_append_left_iff _ |>.2 (List.reverse_perm _)).nodup_iff.1 hnodup
      cases hn with
      | expr he => cases he
      | func _ hstatements =>
          refine .func hs hnames ?_
          have hfits : (Context.of program s body).Fits [] :=
            hsigs.fits hmem (by simpa using hs.nodup) (List.nil_subset _)
          exact BodyTyped.of_checkBody body hstatements hfits (by simp) (List.nil_subset _) hbound
            hbody
  | _ => cases hcollect

theorem ItemTyped.checkItem_eq {program : List Node} (hsigs : Signatures program) {n n' : Node}
    (hmem : n ∈ program) (h : ItemTyped program n n') :
    collectItem n = .ok () ∧ ∃ d, checkItem program n = .ok d ∧ d.tree = n' := by
  cases h with
  | signature hs => exact ⟨checkParams_nil_iff.2 hs, _, rfl, rfl⟩
  | @func s body body' hs hnames hbody =>
      have hnodup : (namesOf s.params ++ ((namesOf (boundByAll body)).reverse ++ [])).Nodup := by
        rw [namesOf, List.map_append] at hnames
        rw [List.append_nil]
        exact (List.perm_append_left_iff _ |>.2 (List.reverse_perm _)).nodup_iff.2 hnames
      refine ⟨?_, ?_⟩
      · simp only [collectItem, checkParams_nil_iff.2 hs, hbody.collectBody_eq hnodup]
      · have hfits : (Context.of program s body).Fits [] :=
            hsigs.fits hmem (by simpa using hs.nodup) (List.nil_subset _)
        obtain ⟨Δ, hcheck⟩ := BodyTyped.checkBody_eq hbody hfits (by simp)
        exact ⟨_, within_eq_ok_iff.2 ⟨_, hcheck, rfl⟩, rfl⟩

theorem collectItems_eq_ok_iff {ns : List Node} :
    collectItems ns = .ok () ↔ ∀ n ∈ ns, collectItem n = .ok () := by
  induction ns with
  | nil => simp [collectItems]
  | cons n ns ih =>
      rw [collectItems, List.forall_mem_cons, ← ih]
      cases collectItem n <;> simp

theorem checkItems_eq_ok_iff {program ns tree : List Node} :
    (∃ d, checkItems program ns = .ok d ∧ d.tree = tree) ↔
      List.Forall₂ (fun n n' => ∃ d, checkItem program n = .ok d ∧ d.tree = n') ns tree := by
  induction ns generalizing tree with
  | nil => simp [checkItems, eq_comm]
  | cons n ns ih =>
      rw [List.forall₂_cons_left_iff, checkItems]
      constructor
      · rintro ⟨d, h, rfl⟩
        split at h
        · cases h
        rename_i d₁ hd₁
        obtain ⟨d₂, hd₂, rfl⟩ := within_eq_ok_iff.1 h
        exact ⟨d₁.tree, d₂.tree, ⟨d₁, hd₁, rfl⟩, ih.1 ⟨d₂, hd₂, rfl⟩, rfl⟩
      · rintro ⟨n', tree, ⟨d₁, hd₁, rfl⟩, hrest, rfl⟩
        obtain ⟨d₂, hd₂, rfl⟩ := ih.2 hrest
        exact ⟨⟨d₁.tree :: d₂.tree, d₂.scope, d₂.type⟩, by simp only [hd₁, hd₂, Outcome.within], rfl⟩

/-! ## Programs -/

theorem filter_isEntry_eq_nil_iff {entry : Bytes} {ns : List Node} :
    ns.filter (isEntry entry) = [] ↔
      ∀ s body, .func s body ∈ ns → s.name.lexeme ≠ entry := by
  rw [List.filter_eq_nil_iff]
  constructor
  · intro h s body hmem
    simpa [isEntry] using h _ hmem
  · intro h n hmem
    cases n with
    | func s body => simpa [isEntry] using h s body hmem
    | _ => simp [isEntry]

theorem checkEntry_eq_ok_iff {entry : Bytes} {program : List Node} :
    checkEntry entry program = .ok () ↔ EntryFirst entry program := by
  constructor
  · intro h
    unfold checkEntry at h
    split at h
    · cases h
    · rename_i s body rest
      split at h
      · cases h
      rename_i hname
      split at h
      · cases h
      rename_i hfilter
      split at h
      · cases h
      rename_i hparams
      split at h
      · cases h
      rename_i hret
      exact ⟨s, body, rest, rfl, not_not.1 hname, not_not.1 hparams, not_not.1 hret,
        filter_isEntry_eq_nil_iff.1 hfilter⟩
    · cases h
  · rintro ⟨s, body, rest, rfl, hname, hparams, hret, honly⟩
    simp only [checkEntry, hname, filter_isEntry_eq_nil_iff.2 honly, hparams, hret, ne_eq,
      not_true_eq_false, if_false]

theorem Signatures.of_shape {program : List Node} (hshape : ∀ n ∈ program, n.IsStatement P)
    (h : ∀ n ∈ program, ∀ s, n.signature? = some s → WellFormedSignature s) :
    Signatures program := by
  intro n hn s hs
  have hparsed := (hshape n hn).isParsed hs
  exact ⟨h n hn s hs, hparsed.ret, fun p hp => (hparsed.params p hp).type⟩

theorem wellFormedSignature_of_collectItem {n : Node} {s : Signature}
    (h : collectItem n = .ok ()) (hs : n.signature? = some s) : WellFormedSignature s := by
  cases n with
  | signature s' =>
      cases hs
      exact checkParams_nil_iff.1 h
  | func s' body =>
      cases hs
      rw [collectItem] at h
      split at h
      · cases h
      · rename_i hparams
        exact checkParams_nil_iff.1 hparams
  | _ => cases hs

theorem Signatures.of_collect {program : List Node} (hshape : ∀ n ∈ program, n.IsStatement P)
    (hcollect : ∀ n ∈ program, collectItem n = .ok ()) : Signatures program :=
  .of_shape hshape fun n hn _ hs => wellFormedSignature_of_collectItem (hcollect n hn) hs

theorem ItemTyped.wellFormedSignature {program : List Node} {n n' : Node} {s : Signature}
    (h : ItemTyped program n n') (hs : n.signature? = some s) : WellFormedSignature s := by
  cases h with
  | signature h => cases hs; exact h
  | func h _ _ => cases hs; exact h

theorem WellTyped.signatures {entry : Bytes} {program tree : List Node}
    (hshape : ∀ n ∈ program, n.IsStatement P) (h : WellTyped entry program tree) :
    Signatures program := by
  have hitems := h.items.imp fun n n' hitem =>
    And.intro (fun s (hs : n.signature? = some s) => hitem.wellFormedSignature hs) hitem
  exact .of_shape hshape ((List.forall₂_and_left _ _).1 hitems).1

/-- The types of a well-typed program are all known in the end. -/
theorem WellTyped.definedNames_type {entry : Bytes} {program tree : List Node}
    (hsigs : Signatures program) (h : WellTyped entry program tree) :
    ∀ d ∈ definedNames tree, d.type.isSome := by
  intro d hd
  rw [definedNames, List.mem_flatMap] at hd
  obtain ⟨n', hn', hd⟩ := hd
  obtain ⟨n, hn, hitem⟩ := item_of_mem h.items hn'
  cases hitem with
  | signature hs => simp at hd
  | @func s body body' hs hnames hbody =>
      rcases List.mem_append.1 hd with hparam | hbound
      · exact (hsigs _ hn s rfl).2.2 d hparam
      · obtain ⟨t, ht, -⟩ := hbody.bound_type d hbound
        rw [ht, Option.isSome_some]

/-- What the last two passes let through is well typed. -/
theorem items_of_checkItems {program : List Node} (hshape : ∀ n ∈ program, n.IsStatement P)
    (hcollect : ∀ n ∈ program, collectItem n = .ok ()) {d : Done (List Node)}
    (hcheck : checkItems program program = .ok d) :
    List.Forall₂ (ItemTyped program) program d.tree := by
  have hsigs : Signatures program := .of_collect hshape hcollect
  have hitems := (List.forall₂_and_left _ _).2
    ⟨fun n (hn : n ∈ program) => hn, checkItems_eq_ok_iff.1 ⟨d, hcheck, rfl⟩⟩
  refine hitems.imp ?_
  rintro n n' ⟨hn, d', hd', rfl⟩
  exact .of_checkItem hsigs hn (hshape n hn) (hcollect n hn) hd'

theorem WellTyped.of_analyze {entry : Bytes} {program tree : List Node}
    (hshape : ∀ n ∈ program, n.IsStatement P) (h : analyze entry program = .ok tree) :
    WellTyped entry program tree := by
  unfold analyze at h
  split at h
  · cases h
  rename_i hentry
  split at h
  · cases h
  rename_i hcollect
  rw [collectItems_eq_ok_iff] at hcollect
  split at h
  · cases h
  rename_i d hcheck
  split at h
  · cases h
  cases h
  exact ⟨checkEntry_eq_ok_iff.1 hentry, items_of_checkItems hshape hcollect hcheck⟩

theorem WellTyped.analyze_eq {entry : Bytes} {program tree : List Node}
    (hshape : ∀ n ∈ program, n.IsStatement P) (h : WellTyped entry program tree) :
    analyze entry program = .ok tree := by
  have hsigs := h.signatures hshape
  have hitems := (List.forall₂_and_left _ _).2 ⟨fun n (hn : n ∈ program) => hn, h.items⟩
  obtain ⟨hcollect, hchecked⟩ := (List.forall₂_and_left _ _).1
    (hitems.imp fun n n' ⟨hn, hitem⟩ => hitem.checkItem_eq hsigs hn)
  obtain ⟨d, hcheck, rfl⟩ := checkItems_eq_ok_iff.2 hchecked
  have hknown : (definedNames d.tree).find? (·.type.isNone) = none := by
    rw [List.find?_eq_none]
    intro v hv
    simp [Option.isSome_iff_ne_none.1 (h.definedNames_type hsigs v hv)]
  simp only [analyze, checkEntry_eq_ok_iff.2 h.entry, collectItems_eq_ok_iff.2 hcollect, hcheck,
    hknown]

/-- **The checker accepts a parsed program exactly if it is well typed, and fills in the types that
the rules give.** -/
theorem analyze_eq_ok_iff {tokens : List Token} {program : List Node}
    (hparse : Parsing.parse tokens = .ok program) (entry : Bytes) (tree : List Node) :
    analyze entry program = .ok tree ↔ WellTyped entry program tree := by
  have hshape : ∀ n ∈ program, n.IsStatement fun _ => True :=
    Parsing.parse_grown (fun _ _ => trivial) hparse
  exact ⟨.of_analyze hshape, fun h => h.analyze_eq hshape⟩

theorem wellTyped_halving :
    Parsing.parse Parsing.halvingTokens = .ok (Parsing.halving none none) ∧
      WellTyped defaultEntry (Parsing.halving none none)
        (Parsing.halving (some .int) (some .string)) :=
  ⟨Parsing.parse_halvingTokens,
    (analyze_eq_ok_iff Parsing.parse_halvingTokens _ _).1 (by rfl)⟩

end Typing

end Swiftlet
