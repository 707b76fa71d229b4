import Swiftlet.Proofs.Typing.Checking

/-!
# Checking a program more than once

The checker fills in types as it goes and leaves them where they are when it stops at an error. So a
program that has been checked before, whatever came of it, may have some of its types filled in. This
changes nothing: it is the first declarations that are filled in, and with the types they would get.

* `BodyFilled` and `ItemsFilled` — a body or a program, and what may have been made of it: up to some
  place everything is well typed and filled in, behind it everything is as it was. Both are said by the
  rules of typing, not by the checker.
* `check_stops` — an expression in which the checker stops is left as it is.
* `BodyFilled.of_checkBody` and `ItemsFilled.of_checkItems` — the checker fills in no more than this,
  also where it stops, and stops at a token of the program.
* `BodyFilled.checkBody_eq` and `ItemsFilled.checkItems_eq` — all that may have been made of a body or
  a program is checked with the same outcome.
* `verdict` and `after` — what `analyze` says of a tree and what it leaves behind.

Principal result: `analyze_repeated`.
-/

namespace Swiftlet

theorem Node.IsExpr.token_holds {P : Token → Prop} {n : Node} (h : n.IsExpr P) : P n.token := by
  cases h with
  | int _ ht | float _ ht | bool _ ht | string _ ht => exact ht
  | ref hname => exact hname.holds
  | binary _ _ ht _ _ => exact ht
  | call hname _ => exact hname.holds

namespace Typing

variable {P : Token → Prop} {c : Context} {Γ : Scope}

/-! ## Expressions -/

/-- Where the checker stops in the expression `n`, nothing has been changed, and the error is at a
token with the property. -/
def Untouched (P : Token → Prop) (n : Node) (st : Stopped Node) : Prop :=
  st.tree = n ∧ P st.error.token

theorem requireValue_stops {n : Node} {st : Stopped Node} (hn : P n.token)
    (hok : ∀ d, check c Γ n = .ok d → Accepted c Γ n d)
    (herror : ∀ st, check c Γ n = .error st → Untouched P n st)
    (h : requireValue n (check c Γ n) = .error st) : Untouched P n st := by
  cases hcheck : check c Γ n with
  | error st' =>
      rw [hcheck] at h
      cases h
      exact herror st hcheck
  | ok d =>
      obtain ⟨t, rfl, -⟩ := hok d hcheck
      rw [hcheck, requireValue] at h
      split at h
      · cases h
        exact ⟨rfl, hn⟩
      · cases h
        exact ⟨rfl, hn⟩
      · cases h

theorem checkArgs_stops {name : Bytes} {args : List Node} (htokens : ∀ a ∈ args, P a.token)
    (hok : ∀ a ∈ args, ∀ d, check c Γ a = .ok d → Accepted c Γ a d)
    (herror : ∀ a ∈ args, ∀ st, check c Γ a = .error st → Untouched P a st) :
    ∀ {params : List Decl} {k : Nat} {st : Stopped (List Node)},
      checkArgs c Γ name k params args = .error st → st.tree = args ∧ P st.error.token := by
  induction args with
  | nil =>
      intro params k st h
      simp [checkArgs] at h
  | cons a args ih =>
      intro params k st h
      rw [List.forall_mem_cons] at htokens hok herror
      rw [checkArgs] at h
      split at h
      · rename_i st' hst'
        cases h
        obtain ⟨htree, htoken⟩ := requireValue_stops htokens.1 hok.1 herror.1 hst'
        exact ⟨by rw [htree], htoken⟩
      rename_i d t hd
      obtain ⟨hcheck, -, -⟩ := requireValue_eq_ok_iff.1 hd
      obtain ⟨t', rfl, -⟩ := hok.1 d hcheck
      split at h
      · cases h
      split at h
      · cases h
        exact ⟨rfl, htokens.1⟩
      obtain ⟨st', hst', rfl⟩ := within_eq_error_iff.1 h
      obtain ⟨htree, htoken⟩ := ih htokens.2 hok.2 herror.2 hst'
      exact ⟨by rw [htree], htoken⟩

theorem checkRef_error {name : Token} {e : Error} (h : checkRef c Γ name = .error e) :
    e.token = name := by
  unfold checkRef at h
  split at h
  · cases h
  split at h
  · split at h
    · cases h
    · cases h
      rfl
  · cases h
    rfl

/-- **An expression in which the checker stops is left as it is**, and the error is at one of its
tokens. -/
theorem check_stops (hc : c.Annotated) {n : Node} (hn : n.IsExpr P) :
    ∀ st, check c Γ n = .error st → Untouched P n st := by
  induction hn with
  | int v ht | float v ht | bool v ht | string v ht =>
      intro st h
      simp [check] at h
  | ref hname =>
      intro st h
      rw [check] at h
      split at h
      · rename_i e he
        cases h
        exact ⟨rfl, checkRef_error he ▸ hname.holds⟩
      · cases h
  | binary o hop ht hl hr ihl ihr =>
      intro st h
      rw [check] at h
      split at h
      · rename_i st' hst'
        cases h
        obtain ⟨htree, htoken⟩ :=
          requireValue_stops hl.token_holds (HasType.of_check hc hl) ihl hst'
        exact ⟨by rw [htree], htoken⟩
      rename_i dl tl hdl
      obtain ⟨hcheck, -, -⟩ := requireValue_eq_ok_iff.1 hdl
      obtain ⟨t, rfl, -⟩ := HasType.of_check hc hl dl hcheck
      split at h
      · rename_i st' hst'
        cases h
        obtain ⟨htree, htoken⟩ :=
          requireValue_stops hr.token_holds (HasType.of_check hc hr) ihr hst'
        exact ⟨by rw [htree], htoken⟩
      rename_i dr tr hdr
      obtain ⟨hcheck, -, -⟩ := requireValue_eq_ok_iff.1 hdr
      obtain ⟨t, rfl, -⟩ := HasType.of_check hc hr dr hcheck
      split at h
      · cases h
        exact ⟨rfl, ht⟩
      split at h
      · cases h
      · cases h
        exact ⟨rfl, ht⟩
  | call hname hargs ih =>
      intro st h
      rw [check] at h
      split at h
      · cases h
        exact ⟨rfl, hname.holds⟩
      split at h
      · cases h
        exact ⟨rfl, hname.holds⟩
      split at h
      · rename_i st' hst'
        cases h
        obtain ⟨htree, htoken⟩ := checkArgs_stops (fun a ha => (hargs a ha).token_holds)
          (fun a ha => HasType.of_check hc (hargs a ha)) ih hst'
        exact ⟨by rw [htree], htoken⟩
      · cases h

/-! ## Bodies -/

/-- What may have been made of the body `ns`: up to some place it is well typed and filled in, behind
it everything is as it was. -/
inductive BodyFilled (program : List Node) (s : Signature) :
    Scope → List Node → List Node → Prop where
  | stop (Γ : Scope) (ns : List Node) : BodyFilled program s Γ ns ns
  | expr {Γ : Scope} {e : Node} {t : Ty} {ns ns' : List Node} (he : HasType program s Γ e t)
      (hrest : BodyFilled program s Γ ns ns') : BodyFilled program s Γ (e :: ns) (e :: ns')
  /-- A missing type is that of the value, and a type that is there stays. -/
  | assign {Γ : Scope} {d : Decl} {v : Node} {t : Ty} {ns ns' : List Node}
      (hv : HasType program s Γ v t) (hvoid : t ≠ .void) (hd : d.type = none ∨ d.type = some t)
      (hnew : d.name.lexeme ∉ namesOf s.params ++ Γ.names)
      (hrest : BodyFilled program s ((d.name.lexeme, t) :: Γ) ns ns') :
      BodyFilled program s Γ (.assign d v :: ns) (.assign { d with type := some t } v :: ns')
  | print {Γ : Scope} (token : Token) {a : Node} (more : List Node) {t : Ty} {ns ns' : List Node}
      (ha : HasType program s Γ a t) (hvoid : t ≠ .void) (hrest : BodyFilled program s Γ ns ns') :
      BodyFilled program s Γ (.print token (a :: more) :: ns) (.print token (a :: more) :: ns')
  | ret {Γ : Scope} (token : Token) {v : Node} {t : Ty} {ns ns' : List Node}
      (hv : HasType program s Γ v t) (hret : s.ret = some t)
      (hrest : BodyFilled program s Γ ns ns') :
      BodyFilled program s Γ (.ret token v :: ns) (.ret token v :: ns')
  | cond {Γ : Scope} (token : Token) {e : Node} {body body' ns ns' : List Node}
      (he : HasType program s Γ e .bool) (hbody : BodyTyped program s Γ body body')
      (hrest : BodyFilled program s Γ ns ns') :
      BodyFilled program s Γ (.cond token e body :: ns) (.cond token e body' :: ns')
  /-- The place is within the body of an `if`. -/
  | within {Γ : Scope} (token : Token) {e : Node} {body body' : List Node} (ns : List Node)
      (he : HasType program s Γ e .bool) (hbody : BodyFilled program s Γ body body') :
      BodyFilled program s Γ (.cond token e body :: ns) (.cond token e body' :: ns)

theorem BodyTyped.filled {program : List Node} {s : Signature} {ns ns' : List Node}
    (h : BodyTyped program s Γ ns ns') : BodyFilled program s Γ ns ns' := by
  induction h with
  | nil Γ => exact .stop Γ []
  | expr he _ ih => exact .expr he ih
  | assign hv hvoid hd hnew _ ih => exact .assign hv hvoid hd hnew ih
  | print token more ha hvoid _ ih => exact .print token more ha hvoid ih
  | ret token hv hret _ ih => exact .ret token hv hret ih
  | cond token he hbody _ _ ih => exact .cond token he hbody ih

/-- Behind a statement that is accepted, a body can be filled in further. -/
theorem BodyFilled.cons_of_check {n : Node} (hn : n.IsStatement P) (hc : c.Fits Γ)
    (hnames : namesOf (boundBy n) ⊆ c.names) {bound bound' : List Bytes} (hbound : Γ.names ⊆ bound)
    (hcollect : collectNode c.signature bound n = .ok bound') {d : Done Node}
    (hd : check c Γ n = .ok d) :
    c.Fits d.scope ∧ d.scope.names ⊆ bound' ∧ ∀ {rest rest' : List Node},
      BodyFilled c.program c.signature d.scope rest rest' →
      BodyFilled c.program c.signature Γ (n :: rest) (d.tree :: rest') := by
  have hbound' : Γ.names ⊆ bound' := by
    rw [(collectNode_spec n hcollect).1]
    exact List.Subset.trans hbound (List.subset_append_right _ _)
  have hsingle : BodyTyped c.program c.signature Γ [n] [d.tree] := by
    have hcheck : checkBody c Γ [n] = .ok ⟨[d.tree], d.scope, none⟩ := by
      simp only [checkBody, hd, Outcome.within]
    have hcollect' : collectBody c.signature bound [n] = .ok bound' := by
      simp only [collectBody, hcollect]
    exact BodyTyped.of_checkBody [n] (by simpa using hn) hc (by simpa [boundByAll] using hnames)
      hbound hcollect' hcheck
  generalize htree : d.tree = n' at hsingle
  cases hsingle with
  | expr he _ =>
      cases hd.symm.trans (he.check_eq hc)
      exact ⟨hc, hbound', .expr he⟩
  | assign hv hvoid hdecl hnew _ =>
      cases hd.symm.trans (check_assign_eq hc hv hvoid hdecl)
      obtain ⟨-, -, rfl⟩ := collectNode_assign_iff.1 hcollect
      exact ⟨hc.bind _ hnew (hnames (by simp [boundBy])), List.cons_subset_cons _ hbound,
        .assign hv hvoid hdecl hnew⟩
  | print token more ha hvoid _ =>
      cases hd.symm.trans (check_print_eq hc token ha hvoid more)
      exact ⟨hc, hbound', .print token more ha hvoid⟩
  | ret token hv hret _ =>
      cases hd.symm.trans (check_ret_eq hc token hv hret)
      exact ⟨hc, hbound', .ret token hv hret⟩
  | cond token he hbody _ =>
      obtain ⟨Δ, hinner⟩ := hbody.checkBody_eq hc hnames
      cases hd.symm.trans (check_cond_eq hc token he hinner)
      exact ⟨hc, hbound', .cond token he hbody⟩

theorem bindType_error {d : Decl} {t : Ty} {token : Token} {e : Error}
    (h : bindType d t token = .error e) : e.token = token := by
  unfold bindType at h
  split at h
  · rename_i hnone
    simp [Decl.resolve, hnone] at h
  split at h
  · cases h
  · cases h
    rfl

/-- A statement in which the checker stops is as it was, unless the place is in the body of an `if`. -/
theorem check_stopped (hc : c.Fits Γ) {n : Node} (hn : n.IsStatement P) {bound bound' : List Bytes}
    (hcollect : collectNode c.signature bound n = .ok bound') {st : Stopped Node}
    (h : check c Γ n = .error st) :
    Untouched P n st ∨ ∃ token e body st', n = .cond token e body ∧
      HasType c.program c.signature Γ e .bool ∧ checkBody c Γ body = .error st' ∧
      st = ⟨st'.error, .cond token e st'.tree⟩ := by
  have hvalue : ∀ {e : Node}, e.IsExpr P → ∀ {st}, requireValue e (check c Γ e) = .error st →
      Untouched P e st := fun he _ hst =>
    requireValue_stops he.token_holds (HasType.of_check hc.toAnnotated he)
      (check_stops hc.toAnnotated he) hst
  cases hn with
  | expr he => exact .inl (check_stops hc.toAnnotated he st h)
  | decl hd => cases hcollect
  | signature hs =>
      simp only [check, Except.error.injEq] at h
      subst h
      exact .inl ⟨rfl, hs.name.holds⟩
  | func hs hbody =>
      simp only [check, Except.error.injEq] at h
      subst h
      exact .inl ⟨rfl, hs.name.holds⟩
  | assign hd hv =>
      rw [check] at h
      split at h
      · rename_i st' hst'
        cases h
        obtain ⟨htree, htoken⟩ := hvalue hv hst'
        exact .inl ⟨by rw [htree], htoken⟩
      rename_i d t hokay
      obtain ⟨hcheck, -, -⟩ := requireValue_eq_ok_iff.1 hokay
      obtain ⟨t', rfl, -⟩ := HasType.of_check hc.toAnnotated hv d hcheck
      split at h
      · rename_i e he
        cases h
        exact .inl ⟨rfl, bindType_error he ▸ hv.token_holds⟩
      · cases h
  | @print t args ht hargs =>
      cases args with
      | nil =>
          simp only [check, Except.error.injEq] at h
          subst h
          exact .inl ⟨rfl, ht⟩
      | cons a more =>
          rw [check] at h
          split at h
          · rename_i st' hst'
            cases h
            obtain ⟨htree, htoken⟩ := hvalue (hargs a List.mem_cons_self) hst'
            exact .inl ⟨by rw [htree], htoken⟩
          · cases h
  | ret ht hv =>
      rw [check] at h
      split at h
      · rename_i st' hst'
        cases h
        obtain ⟨htree, htoken⟩ := check_stops hc.toAnnotated hv st' hst'
        exact .inl ⟨by rw [htree], htoken⟩
      rename_i d hd
      obtain ⟨t', rfl, -⟩ := HasType.of_check hc.toAnnotated hv d hd
      split at h
      · cases h
      · cases h
        exact .inl ⟨rfl, hv.token_holds⟩
  | @cond t e body ht he hbody =>
      rw [check] at h
      split at h
      · rename_i st' hst'
        cases h
        obtain ⟨htree, htoken⟩ := check_stops hc.toAnnotated he st' hst'
        exact .inl ⟨by rw [htree], htoken⟩
      rename_i d hd
      obtain ⟨t', rfl, htyped⟩ := HasType.of_check hc.toAnnotated he d hd
      split at h
      · cases h
        exact .inl ⟨rfl, he.token_holds⟩
      rename_i hbool
      rw [not_not, Option.some.injEq] at hbool
      subst hbool
      split at h
      · rename_i st' hst'
        cases h
        exact .inr ⟨t, e, body, st', rfl, htyped, hst', rfl⟩
      · cases h

/-- **Where the checker stops, the body is filled in up to that place**, and the error is at one of its
tokens. -/
theorem BodyFilled.of_checkBody : ∀ (ns : List Node) {Γ : Scope} {bound bound' : List Bytes}
    {st : Stopped (List Node)}, (∀ n ∈ ns, n.IsStatement P) → c.Fits Γ →
    namesOf (boundByAll ns) ⊆ c.names → Γ.names ⊆ bound →
    collectBody c.signature bound ns = .ok bound' → checkBody c Γ ns = .error st →
    BodyFilled c.program c.signature Γ ns st.tree ∧ P st.error.token
  | [], Γ, _, _, st, _, _, _, _, _, h => by simp [checkBody] at h
  | n :: rest, Γ, bound, bound', st, hns, hc, hnames, hbound, hcollect, h => by
    obtain ⟨hn, hrest⟩ := List.forall_mem_cons.1 hns
    rw [boundByAll, namesOf, List.map_append, List.append_subset] at hnames
    rw [collectBody] at hcollect
    split at hcollect
    · cases hcollect
    rename_i bound₁ hcollect₁
    rw [checkBody] at h
    split at h
    · rename_i st₁ hst₁
      cases h
      rcases check_stopped hc hn hcollect₁ hst₁ with
        ⟨hsame, htoken⟩ | ⟨token, e, body, st', rfl, he, hst', rfl⟩
      · rw [hsame]
        exact ⟨.stop Γ _, htoken⟩
      · obtain ⟨hbody, htoken⟩ :=
          of_checkBody body hn.cond_parts.2 hc hnames.1 hbound hcollect₁ hst'
        exact ⟨.within token rest he hbody, htoken⟩
    · rename_i d hd
      obtain ⟨st', hst', rfl⟩ := within_eq_error_iff.1 h
      obtain ⟨hc', hbound', hcons⟩ :=
        BodyFilled.cons_of_check hn hc hnames.1 hbound hcollect₁ hd
      obtain ⟨hfilled, htoken⟩ := of_checkBody rest hrest hc' hnames.2 hbound' hcollect hst'
      exact ⟨hcons hfilled, htoken⟩
termination_by ns => sizeOf ns

/-- **All that may have been made of a body is checked with the same outcome.** -/
theorem BodyFilled.checkBody_eq {ns ns' : List Node}
    (h : BodyFilled c.program c.signature Γ ns ns') : c.Fits Γ →
    namesOf (boundByAll ns) ⊆ c.names → checkBody c Γ ns' = checkBody c Γ ns := by
  induction h with
  | stop Γ ns => exact fun _ _ => rfl
  | expr he _ ih =>
      intro hc hnames
      rw [boundByAll, namesOf, List.map_append, List.append_subset] at hnames
      simp only [checkBody, he.check_eq hc, ih hc hnames.2]
  | @assign Γ d v t ns ns' hv hvoid hd hnew _ ih =>
      intro hc hnames
      rw [boundByAll, namesOf, List.map_append, List.append_subset] at hnames
      have hc' := hc.bind t hnew (hnames.1 (by simp [boundBy]))
      have hd' : (⟨d.mutable, d.name, some t⟩ : Decl).type = some t := rfl
      simp only [checkBody, check_assign_eq hc hv hvoid hd, check_assign_eq hc hv hvoid (.inr hd'),
        ih hc' hnames.2]
  | print token more ha hvoid _ ih =>
      intro hc hnames
      rw [boundByAll, namesOf, List.map_append, List.append_subset] at hnames
      simp only [checkBody, check_print_eq hc token ha hvoid more, ih hc hnames.2]
  | ret token hv hret _ ih =>
      intro hc hnames
      rw [boundByAll, namesOf, List.map_append, List.append_subset] at hnames
      simp only [checkBody, check_ret_eq hc token hv hret, ih hc hnames.2]
  | cond token he hbody _ ih =>
      intro hc hnames
      rw [boundByAll, namesOf, List.map_append, List.append_subset] at hnames
      have hnames' := hnames.1
      rw [boundBy, ← namesOf, ← hbody.namesOf_boundByAll] at hnames'
      obtain ⟨Δ, hinner⟩ := hbody.checkBody_eq hc hnames.1
      obtain ⟨Δ', hinner'⟩ := hbody.resolved.checkBody_eq hc hnames'
      simp only [checkBody, check_cond_eq hc token he hinner, check_cond_eq hc token he hinner',
        ih hc hnames.2]
  | within token ns he _ ih =>
      intro hc hnames
      rw [boundByAll, namesOf, List.map_append, List.append_subset] at hnames
      simp only [checkBody, check_cond_congr hc token he (ih hc hnames.1)]

section

variable {program : List Node} {s : Signature} {ns ns' : List Node}

theorem BodyFilled.namesOf_boundByAll (h : BodyFilled program s Γ ns ns') :
    namesOf (boundByAll ns') = namesOf (boundByAll ns) := by
  induction h with
  | stop Γ ns => rfl
  | expr he _ ih => simpa [boundByAll] using ih
  | assign _ _ _ _ _ ih => simpa [boundByAll, boundBy] using ih
  | print _ _ _ _ _ ih => simpa [boundByAll, boundBy] using ih
  | ret _ _ _ _ ih => simpa [boundByAll, boundBy] using ih
  | cond _ _ hbody _ ih =>
      simpa [boundByAll, boundBy] using congrArg₂ (· ++ ·) hbody.namesOf_boundByAll ih
  | within _ ns _ _ ih => simpa [boundByAll, boundBy] using ih

theorem collectBody_cons (s : Signature) {n n' : Node} {rest rest' : List Node}
    (hn : ∀ bound, collectNode s bound n' = collectNode s bound n)
    (hrest : ∀ bound, collectBody s bound rest' = collectBody s bound rest) (bound : List Bytes) :
    collectBody s bound (n' :: rest') = collectBody s bound (n :: rest) := by
  simp only [collectBody, hn, hrest]

/-- The collecting pass does not look at the types. -/
theorem BodyTyped.collectBody_same (h : BodyTyped program s Γ ns ns') :
    ∀ bound, collectBody s bound ns' = collectBody s bound ns := by
  induction h with
  | nil Γ => exact fun _ => rfl
  | expr _ _ ih | print _ _ _ _ _ ih | ret _ _ _ _ ih =>
      exact collectBody_cons s (fun _ => rfl) ih
  | assign _ _ _ _ _ ih => exact collectBody_cons s (fun _ => rfl) ih
  | cond _ _ _ _ ihb ih => exact collectBody_cons s ihb ih

theorem BodyFilled.collectBody_same (h : BodyFilled program s Γ ns ns') :
    ∀ bound, collectBody s bound ns' = collectBody s bound ns := by
  induction h with
  | stop Γ ns => exact fun _ => rfl
  | expr _ _ ih | print _ _ _ _ _ ih | ret _ _ _ _ ih =>
      exact collectBody_cons s (fun _ => rfl) ih
  | assign _ _ _ _ _ ih => exact collectBody_cons s (fun _ => rfl) ih
  | cond _ _ hbody _ ih => exact collectBody_cons s hbody.collectBody_same ih
  | within _ ns _ _ ih => exact collectBody_cons s ih fun _ => rfl

/-- Filling in some of the types keeps the shape of statements. -/
theorem BodyFilled.isStatement (h : BodyFilled program s Γ ns ns')
    (hns : ∀ n ∈ ns, n.IsStatement P) : ∀ n ∈ ns', n.IsStatement P := by
  induction h with
  | stop Γ ns => exact hns
  | expr _ _ ih | print _ _ _ _ _ ih | ret _ _ _ _ ih =>
      rw [List.forall_mem_cons] at hns ⊢
      exact ⟨hns.1, ih hns.2⟩
  | assign _ _ _ _ _ ih =>
      rw [List.forall_mem_cons] at hns ⊢
      exact ⟨isStatement_assign hns.1 _, ih hns.2⟩
  | cond _ _ hbody _ ih =>
      rw [List.forall_mem_cons] at hns ⊢
      exact ⟨isStatement_cond hns.1 hbody.isStatement, ih hns.2⟩
  | within _ ns _ _ ih =>
      rw [List.forall_mem_cons] at hns ⊢
      exact ⟨isStatement_cond hns.1 ih, hns.2⟩

end

/-! ## Items -/

/-- What may have been made of the items `ns`, in the same way. -/
inductive ItemsFilled (program : List Node) : List Node → List Node → Prop where
  | stop (ns : List Node) : ItemsFilled program ns ns
  | typed {n n' : Node} {ns ns' : List Node} (hn : ItemTyped program n n')
      (hrest : ItemsFilled program ns ns') : ItemsFilled program (n :: ns) (n' :: ns')
  /-- The place is within the body of a function. -/
  | within {s : Signature} {body body' : List Node} (ns : List Node) (hs : WellFormedSignature s)
      (hnames : (namesOf (s.params ++ boundByAll body)).Nodup)
      (hbody : BodyFilled program s [] body body') :
      ItemsFilled program (.func s body :: ns) (.func s body' :: ns)

/-- The same item, except for what is in its body. -/
def SameItem (n n' : Node) : Prop :=
  n' = n ∨ ∃ s body body', n = .func s body ∧ n' = .func s body'

section

variable {program : List Node} {ns ns' : List Node}

theorem forall₂_sameItem_refl (ns : List Node) : List.Forall₂ SameItem ns ns := by
  induction ns with
  | nil => exact .nil
  | cons n ns ih => exact .cons (.inl rfl) ih

theorem ItemsFilled.sameItems (h : ItemsFilled program ns ns') : List.Forall₂ SameItem ns ns' := by
  induction h with
  | stop ns => exact forall₂_sameItem_refl ns
  | typed hn _ ih =>
      cases hn with
      | signature _ => exact .cons (.inl rfl) ih
      | func _ _ _ => exact .cons (.inr ⟨_, _, _, rfl, rfl⟩) ih
  | within ns _ _ _ => exact .cons (.inr ⟨_, _, _, rfl, rfl⟩) (forall₂_sameItem_refl ns)

theorem ItemsFilled.isStatement (h : ItemsFilled program ns ns')
    (hns : ∀ n ∈ ns, n.IsStatement P) : ∀ n ∈ ns', n.IsStatement P := by
  induction h with
  | stop ns => exact hns
  | typed hn _ ih =>
      rw [List.forall_mem_cons] at hns ⊢
      exact ⟨hn.isStatement hns.1, ih hns.2⟩
  | within ns _ _ hbody =>
      rw [List.forall_mem_cons] at hns ⊢
      exact ⟨.func (hns.1.isParsed rfl) (hbody.isStatement hns.1.func_body), hns.2⟩

theorem SameItem.signature?_eq {n n' : Node} (h : SameItem n n') :
    n'.signature? = n.signature? := by
  rcases h with rfl | ⟨s, body, body', rfl, rfl⟩
  · rfl
  · rfl

theorem map_signature?_of_same (h : List.Forall₂ SameItem ns ns') :
    ns'.map Node.signature? = ns.map Node.signature? := by
  induction h with
  | nil => rfl
  | cons hn _ ih => rw [List.map_cons, List.map_cons, hn.signature?_eq, ih]

theorem lastSignature?_of_same (h : List.Forall₂ SameItem ns ns') :
    lastSignature? ns' = lastSignature? ns := by
  funext x
  rw [lastSignature?, lastSignature?, filterMap_signature?_congr (map_signature?_of_same h)]

/-! ### The entry function -/

theorem entryTokens_of_same (entry : Bytes) (h : List.Forall₂ SameItem ns ns') :
    (ns'.filter (isEntry entry)).map Node.token = (ns.filter (isEntry entry)).map Node.token := by
  induction h with
  | nil => rfl
  | cons hn _ ih =>
      rcases hn with rfl | ⟨s, body, body', rfl, rfl⟩
      · rw [List.filter_cons, List.filter_cons]
        split
        · rw [List.map_cons, List.map_cons, ih]
        · exact ih
      · by_cases hentry : s.name.lexeme = entry
        · simpa [isEntry, hentry, Node.token] using ih
        · simpa [isEntry, hentry] using ih

theorem checkEntry_func (entry : Bytes) (s : Signature) (body body' : List Node)
    (h : (ns'.filter (isEntry entry)).map Node.token = (ns.filter (isEntry entry)).map Node.token) :
    checkEntry entry (.func s body' :: ns') = checkEntry entry (.func s body :: ns) := by
  rw [checkEntry, checkEntry]
  cases hns : ns.filter (isEntry entry) with
  | nil =>
      rw [hns, List.map_nil, List.map_eq_nil_iff] at h
      rw [h]
  | cons again more =>
      rw [hns, List.map_cons, List.map_eq_cons_iff] at h
      obtain ⟨again', more', hns', htoken, hmore⟩ := h
      have hlength := congrArg List.length hmore
      rw [List.length_map, List.length_map] at hlength
      rw [hns']
      simp only [htoken, hlength]

theorem checkEntry_of_same (entry : Bytes) (h : List.Forall₂ SameItem ns ns') :
    checkEntry entry ns' = checkEntry entry ns := by
  cases h with
  | nil => rfl
  | cons hn hrest =>
      have htokens := entryTokens_of_same entry hrest
      rcases hn with rfl | ⟨s, body, body', rfl, rfl⟩
      · rename_i n _ _
        cases n with
        | func s body => exact checkEntry_func entry s body body htokens
        | _ => rfl
      · exact checkEntry_func entry s body body' htokens

/-! ### The functions -/

theorem collectItem_func {s : Signature} {body : List Node}
    (h : collectItem (.func s body) = .ok ()) :
    WellFormedSignature s ∧ (namesOf (s.params ++ boundByAll body)).Nodup ∧
      ∃ bound, collectBody s [] body = .ok bound := by
  have hs := wellFormedSignature_of_collectItem h rfl
  rw [collectItem] at h
  split at h
  · cases h
  split at h
  · cases h
  rename_i bound hbound
  refine ⟨hs, ?_, bound, hbound⟩
  obtain ⟨heq, hnodup⟩ := collectBody_spec body hbound
  have hnodup := hnodup (by simpa using hs.nodup)
  rw [heq, List.append_nil] at hnodup
  rw [namesOf, List.map_append]
  exact (List.perm_append_left_iff _ |>.2 (List.reverse_perm _)).nodup_iff.1 hnodup

theorem fits_start (hsigs : Signatures program) {s : Signature} {body : List Node}
    (hmem : .func s body ∈ program) : (Context.of program s body).Fits [] :=
  hsigs.fits hmem (by simpa using (hsigs _ hmem s rfl).1.nodup) (List.nil_subset _)

/-- **Where the checker stops, the program is filled in up to that place**, and the error is at one of
its tokens. -/
theorem ItemsFilled.of_checkItems (hsigs : Signatures program) (hmem : ∀ n ∈ ns, n ∈ program)
    (hshape : ∀ n ∈ ns, n.IsStatement P) (hcollect : ∀ n ∈ ns, collectItem n = .ok ())
    {st : Stopped (List Node)} (h : checkItems program ns = .error st) :
    ItemsFilled program ns st.tree ∧ P st.error.token := by
  induction ns generalizing st with
  | nil => cases h
  | cons n ns ih =>
      rw [List.forall_mem_cons] at hmem hshape hcollect
      rw [checkItems] at h
      split at h
      · rename_i st₁ hst₁
        cases h
        cases n with
        | func s body =>
            obtain ⟨st', hst', rfl⟩ := within_eq_error_iff.1 hst₁
            obtain ⟨hs, hnames, bound, hbound⟩ := collectItem_func hcollect.1
            obtain ⟨hbody, htoken⟩ := BodyFilled.of_checkBody body hshape.1.func_body
              (fits_start hsigs hmem.1) (by simp) (List.nil_subset _) hbound hst'
            exact ⟨.within ns hs hnames hbody, htoken⟩
        | _ => cases hst₁
      · rename_i d hd
        obtain ⟨st', hst', rfl⟩ := within_eq_error_iff.1 h
        obtain ⟨hrest, htoken⟩ := ih hmem.2 hshape.2 hcollect.2 hst'
        exact ⟨.typed (ItemTyped.of_checkItem hsigs hmem.1 hshape.1 hcollect.1 hd) hrest, htoken⟩

theorem ItemsFilled.of_items (h : List.Forall₂ (ItemTyped program) ns ns') :
    ItemsFilled program ns ns' := by
  induction h with
  | nil => exact .stop []
  | cons hn _ ih => exact .typed hn ih

theorem collectItem_of_filled {s : Signature} {body body' : List Node}
    (h : BodyFilled program s [] body body') :
    collectItem (.func s body') = collectItem (.func s body) := by
  rw [collectItem, collectItem, h.collectBody_same]

theorem checkItem_of_filled (hsigs : Signatures program) {s : Signature} {body body' : List Node}
    (hmem : .func s body ∈ program) (h : BodyFilled program s [] body body') :
    checkItem program (.func s body') = checkItem program (.func s body) := by
  have hnames : namesOf (s.params ++ boundByAll body') = namesOf (s.params ++ boundByAll body) := by
    simpa only [namesOf, List.map_append] using congrArg (namesOf s.params ++ ·) h.namesOf_boundByAll
  have hbody : checkBody (.of program s body) [] body' = checkBody (.of program s body) [] body :=
    h.checkBody_eq (fits_start hsigs hmem) (by simp)
  show (checkBody (.of program s body') [] body').within (Node.func s) =
    (checkBody (.of program s body) [] body).within (Node.func s)
  rw [Context.of, hnames, hbody]

theorem ItemsFilled.collectItems_eq (h : ItemsFilled program ns ns') :
    collectItems ns' = collectItems ns := by
  induction h with
  | stop ns => rfl
  | typed hn _ ih =>
      cases hn with
      | signature _ => rw [collectItems, collectItems, ih]
      | func _ _ hbody =>
          rw [collectItems, collectItems, collectItem_of_filled hbody.filled, ih]
  | within ns _ _ hbody => rw [collectItems, collectItems, collectItem_of_filled hbody]

/-- **All that may have been made of a program is checked with the same outcome.** -/
theorem ItemsFilled.checkItems_eq (hsigs : Signatures program) (hmem : ∀ n ∈ ns, n ∈ program)
    (h : ItemsFilled program ns ns') : checkItems program ns' = checkItems program ns := by
  induction h with
  | stop ns => rfl
  | @typed n n' ns ns' hn _ ih =>
      rw [List.forall_mem_cons] at hmem
      have hsame : checkItem program n' = checkItem program n := by
        cases hn with
        | signature _ => rfl
        | func _ _ hbody => exact checkItem_of_filled hsigs hmem.1 hbody.filled
      obtain ⟨-, d, hd, -⟩ := hn.checkItem_eq hsigs hmem.1
      simp only [checkItems, hsame, hd, ih hmem.2]
  | within ns _ _ hbody =>
      rw [List.forall_mem_cons] at hmem
      simp only [checkItems, checkItem_of_filled hsigs hmem.1 hbody]

end

/-! ## The same program checked against another tree -/

section

variable {program program' : List Node} {s : Signature} {names : List Bytes}

mutual

/-- The checker looks at the rest of the program only for the last signature of a name. -/
theorem check_congr (heq : lastSignature? program' = lastSignature? program) :
    ∀ (n : Node) (Γ : Scope), check ⟨program', s, names⟩ Γ n = check ⟨program, s, names⟩ Γ n
  | .int .., Γ | .float .., Γ | .bool .., Γ | .string .., Γ | .decl .., Γ | .signature .., Γ
  | .func .., Γ | .print _ [], Γ => by simp only [check]
  | .ref name, Γ => by
    simp only [check]
    rfl
  | .assign d v, Γ => by simp only [check, check_congr heq v]
  | .binary l op r, Γ => by simp only [check, check_congr heq l, check_congr heq r]
  | .call name args, Γ => by simp only [check, heq, checkArgs_congr heq args]
  | .print t (a :: rest), Γ => by simp only [check, check_congr heq a]
  | .ret t v, Γ => by simp only [check, check_congr heq v]
  | .cond t e body, Γ => by simp only [check, check_congr heq e, checkBody_congr heq body]

theorem checkArgs_congr (heq : lastSignature? program' = lastSignature? program) :
    ∀ (args : List Node) (Γ : Scope) (name : Bytes) (k : Nat) (params : List Decl),
      checkArgs ⟨program', s, names⟩ Γ name k params args =
        checkArgs ⟨program, s, names⟩ Γ name k params args
  | [], Γ, name, k, params => by simp only [checkArgs]
  | a :: rest, Γ, name, k, params => by
    simp only [checkArgs, check_congr heq a, checkArgs_congr heq rest]

theorem checkBody_congr (heq : lastSignature? program' = lastSignature? program) :
    ∀ (ns : List Node) (Γ : Scope),
      checkBody ⟨program', s, names⟩ Γ ns = checkBody ⟨program, s, names⟩ Γ ns
  | [], Γ => by simp only [checkBody]
  | n :: rest, Γ => by simp only [checkBody, check_congr heq n, checkBody_congr heq rest]

end

theorem checkItem_congr (heq : lastSignature? program' = lastSignature? program) (n : Node) :
    checkItem program' n = checkItem program n := by
  cases n with
  | func s body => simp only [checkItem, checkBody_congr heq]
  | _ => rfl

theorem checkItems_congr (heq : lastSignature? program' = lastSignature? program)
    (ns : List Node) : checkItems program' ns = checkItems program ns := by
  induction ns with
  | nil => rfl
  | cons n ns ih => simp only [checkItems, checkItem_congr heq n, ih]

end

/-! ## Programs -/

/-- What is said of a program; `none` if it is accepted. -/
def verdict (entry : Bytes) (program : List Node) : Option Error :=
  match analyze entry program with
  | .error st => some st.error
  | .ok _ => none

/-- What is left of a program that has been checked, accepted or not. -/
def after (entry : Bytes) (program : List Node) : List Node :=
  match analyze entry program with
  | .error st => st.tree
  | .ok tree => tree

/-- The tree of an outcome. -/
def Outcome.tree {α : Type} : Outcome α → α
  | .error st => st.tree
  | .ok d => d.tree

/-- The program is left as it was, or as the last pass leaves it; its names are in order then. -/
theorem after_cases (entry : Bytes) (program : List Node) :
    after entry program = program ∨
      collectItems program = .ok () ∧ after entry program = (checkItems program program).tree := by
  rw [after, analyze]
  cases checkEntry entry program with
  | error e => exact .inl rfl
  | ok _ =>
      cases collectItems program with
      | error e => exact .inl rfl
      | ok _ =>
          refine .inr ⟨rfl, ?_⟩
          cases checkItems program program with
          | error st => rfl
          | ok d =>
              dsimp only
              split
              · rename_i h
                split at h
                · cases h
                  rfl
                · cases h
              · rename_i h
                split at h
                · cases h
                · cases h
                  rfl

/-- Every pass says the same of two trees. -/
structure SamePasses (program tree : List Node) : Prop where
  entry : ∀ entry, checkEntry entry tree = checkEntry entry program
  collect : collectItems tree = collectItems program
  check : checkItems tree tree = checkItems program program

section

variable {program tree : List Node}

theorem SamePasses.verdict_eq (h : SamePasses program tree) (entry : Bytes) :
    verdict entry tree = verdict entry program := by
  simp only [verdict, analyze, h.entry, h.collect, h.check]
  cases checkEntry entry program with
  | error e => rfl
  | ok _ =>
      cases collectItems program with
      | error e => rfl
      | ok _ => rfl

theorem ItemsFilled.samePasses (hsigs : Signatures program)
    (h : ItemsFilled program program tree) : SamePasses program tree := by
  refine ⟨fun entry => checkEntry_of_same entry h.sameItems, h.collectItems_eq, ?_⟩
  rw [checkItems_congr (lastSignature?_of_same h.sameItems)]
  exact h.checkItems_eq hsigs fun _ hn => hn

/-- **The last pass fills in only what the rules give.** -/
theorem filled_of_checkItems (hshape : ∀ n ∈ program, n.IsStatement P)
    (hcollect : collectItems program = .ok ()) :
    Signatures program ∧ ItemsFilled program program (checkItems program program).tree := by
  rw [collectItems_eq_ok_iff] at hcollect
  have hsigs : Signatures program := .of_collect hshape hcollect
  refine ⟨hsigs, ?_⟩
  cases hcheck : checkItems program program with
  | error st => exact (ItemsFilled.of_checkItems hsigs (fun _ hn => hn) hshape hcollect hcheck).1
  | ok d => exact .of_items (items_of_checkItems hshape hcollect hcheck)

/-- The trees that can be left of a program: itself, and what the last pass makes of it. -/
def Left (program tree : List Node) : Prop :=
  tree = program ∨
    collectItems program = .ok () ∧ tree = (checkItems program program).tree

/-- What the last pass makes of a program is not changed again. -/
theorem after_tree (hshape : ∀ n ∈ program, n.IsStatement P)
    (hcollect : collectItems program = .ok ()) (entry : Bytes) :
    after entry (checkItems program program).tree = (checkItems program program).tree := by
  obtain ⟨hsigs, hfilled⟩ := filled_of_checkItems hshape hcollect
  rcases after_cases entry (checkItems program program).tree with hsame | ⟨-, hafter⟩
  · exact hsame
  · rw [hafter, (hfilled.samePasses hsigs).check]

theorem Left.after (hshape : ∀ n ∈ program, n.IsStatement P) (h : Left program tree)
    (entry : Bytes) : Left program (after entry tree) := by
  rcases h with rfl | ⟨hcollect, rfl⟩
  · exact after_cases entry tree
  · exact .inr ⟨hcollect, after_tree hshape hcollect entry⟩

theorem Left.afterAll (hshape : ∀ n ∈ program, n.IsStatement P) (h : Left program tree)
    (entries : List Bytes) :
    Left program (entries.foldl (fun tree entry => Typing.after entry tree) tree) := by
  induction entries generalizing tree with
  | nil => exact h
  | cons entry entries ih => exact ih (h.after hshape entry)

theorem Left.filled (hshape : ∀ n ∈ program, n.IsStatement P) (h : Left program tree) :
    ItemsFilled program program tree := by
  rcases h with rfl | ⟨hcollect, rfl⟩
  · exact .stop _
  · exact (filled_of_checkItems hshape hcollect).2

theorem Left.isStatement (hshape : ∀ n ∈ program, n.IsStatement P) (h : Left program tree) :
    ∀ n ∈ tree, n.IsStatement P :=
  (h.filled hshape).isStatement hshape

theorem Left.verdict_eq (hshape : ∀ n ∈ program, n.IsStatement P) (h : Left program tree)
    (entry : Bytes) : verdict entry tree = verdict entry program := by
  rcases h with rfl | ⟨hcollect, rfl⟩
  · rfl
  · obtain ⟨hsigs, hfilled⟩ := filled_of_checkItems hshape hcollect
    exact (hfilled.samePasses hsigs).verdict_eq entry

/-- A tree that is left is filled in by the next call at once or not at all. -/
theorem Left.next (hshape : ∀ n ∈ program, n.IsStatement P) (h : Left program tree)
    (entry : Bytes) :
    ItemsFilled program tree (Typing.after entry tree) ∧
      Typing.after entry (Typing.after entry tree) = Typing.after entry tree := by
  rcases h with rfl | ⟨hcollect, rfl⟩
  · rcases after_cases entry tree with hsame | ⟨hcollect, hafter⟩
    · rw [hsame]
      exact ⟨.stop _, hsame⟩
    · rw [hafter]
      exact ⟨(filled_of_checkItems hshape hcollect).2, after_tree hshape hcollect entry⟩
  · rw [after_tree hshape hcollect entry]
    exact ⟨.stop _, after_tree hshape hcollect entry⟩

/-- **Checking a parsed program fills in types that are missing, once, and repeating it changes
nothing.** Whatever calls have been made before, with whatever entry functions and results: the tree is
the program with some types filled in, each of them that of the value; the next call fills in no more
than that, and says what it would have said of the fresh program; and the same call once more says the
same and changes nothing. -/
theorem analyze_repeated {tokens : List Token} (hparse : Parsing.parse tokens = .ok program)
    (entries : List Bytes) (entry : Bytes)
    (htree : entries.foldl (fun tree e => after e tree) program = tree) :
    ItemsFilled program program tree ∧ ItemsFilled program tree (after entry tree) ∧
      verdict entry tree = verdict entry program ∧
      verdict entry (after entry tree) = verdict entry tree ∧
      after entry (after entry tree) = after entry tree := by
  have hshape := Parsing.parse_grown (fun _ _ => trivial) hparse
  have hleft : Left program tree := htree ▸ Left.afterAll hshape (.inl rfl) entries
  obtain ⟨hnext, hagain⟩ := hleft.next hshape entry
  have hverdict := hleft.verdict_eq hshape entry
  refine ⟨hleft.filled hshape, hnext, hverdict, ?_, hagain⟩
  rw [(hleft.after hshape entry).verdict_eq hshape entry, hverdict]

end

end Typing

namespace Parsing

/-- The tokens of a program in which the second of two bindings is refused. -/
def refusedTokens : List Token :=
  spelled ["func", "main", "(", ")", "\x7b", "let", "a", "=", "1", ";", "let", "b", "=", "c", "\x7d"]

/-- The tree of `refusedTokens`, with the type of the first binding. -/
def refused (a : Option Ty) : List Node :=
  [.func ⟨named "main", [], some .void⟩
    [.assign ⟨false, named "a", a⟩ (.int ⟨.int, utf8 "1", Pos.start⟩ 1),
      .assign ⟨false, named "b", none⟩ (.ref (named "c"))]]

end Parsing

open Parsing Typing in
/-- A program that is refused with one of its types filled in, and is refused for the same reason once
it has the type. -/
theorem analyze_repeated_refused :
    parse refusedTokens = .ok (refused none) ∧
      after defaultEntry (after (utf8 "start") (refused none)) = refused (some .int) ∧
      verdict defaultEntry (refused (some .int)) =
        some ⟨.undeclared (utf8 "c"), named "c"⟩ ∧
      after defaultEntry (refused (some .int)) = refused (some .int) := by
  have hparse : parse refusedTokens = .ok (refused none) := by rfl
  have hleft : after (utf8 "start") (refused none) = refused none := by rfl
  have hafter : after defaultEntry (refused none) = refused (some .int) := by rfl
  have hverdict : verdict defaultEntry (refused none) =
      some ⟨.undeclared (utf8 "c"), named "c"⟩ := by rfl
  obtain ⟨-, -, hsame, hagain, hstays⟩ :=
    analyze_repeated hparse [utf8 "start"] defaultEntry hleft
  rw [hafter] at hagain hstays
  exact ⟨hparse, by rw [hleft, hafter], hagain.trans hverdict, hstays⟩

end Swiftlet
