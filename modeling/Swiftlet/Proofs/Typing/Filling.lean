import Swiftlet.Proofs.CSource.Expressions
import Swiftlet.Proofs.Typing.Repeated

/-!
# No type is left open

The last thing the checker does is to look for a declaration without a type, and it has an error for
that case. The error is never reported. What the first pass collects, the last pass has given the type
of a value, and where there is no such type it has stopped before.

* `Error.IsForeseen` — any error but that one.
* `check_foreseen`, `checkArgs_foreseen` and `checkBody_foreseen` — the errors in a body; the passes
  before have their own lemmas.
* `Node.declared` — the declarations that a node makes itself. Together with `Node.IsPart` these are all
  the declarations in a tree, wherever they stand.
* `BodyTyped.isConcrete` and `ItemTyped.isConcrete` — what the rules fill in has the type of a value.

Principal result: `analyze_resolves`.
-/

namespace Swiftlet

/-- A declaration of something that has a value. -/
def Decl.IsConcrete (d : Decl) : Prop := ∃ t, d.type = some t ∧ t ≠ .void

namespace Node

/-- The declarations that a node makes itself, not those of its parts. -/
def declared : Node → List Decl
  | .decl d | .assign d _ => [d]
  | .signature s | .func s _ => s.params
  | _ => []

/-- Every declaration in a tree is of something that has a value. -/
def IsConcrete (n : Node) : Prop := ∀ m : Node, m.IsPart n → ∀ d ∈ m.declared, d.IsConcrete

variable {P : Token → Prop}

theorem IsConcrete.of_children {n : Node} (hself : ∀ d ∈ n.declared, d.IsConcrete)
    (hchildren : ∀ m ∈ n.children, m.IsConcrete) : n.IsConcrete := by
  intro m hm
  cases hm with
  | self => exact hself
  | child hk h => exact hchildren _ hk m h

theorem IsExpr.children {n : Node} (h : n.IsExpr P) : ∀ m ∈ n.children, m.IsExpr P := by
  cases h with
  | binary _ _ _ hl hr => simpa [Node.children] using ⟨hl, hr⟩
  | call _ hargs => exact hargs
  | _ => exact List.forall_mem_nil _

/-- There is no declaration in an expression. -/
theorem IsExpr.isConcrete {n : Node} (h : n.IsExpr P) : n.IsConcrete := by
  intro m hm
  induction hm with
  | self => cases h <;> exact List.forall_mem_nil _
  | child hk _ ih => exact ih (h.children _ hk)

end Node

namespace Typing

/-! ## The errors of each pass -/

/-- Any error but that of a declaration which is left without a type. -/
def Error.IsForeseen (e : Error) : Prop := ∀ x, e.cause ≠ .unresolved x

theorem checkEntry_foreseen {entry : Bytes} {program : List Node} {e : Error}
    (h : checkEntry entry program = .error e) : e.IsForeseen := by
  unfold checkEntry at h
  split at h
  · cases h
    rintro x ⟨⟩
  · split at h
    · cases h
      rintro x ⟨⟩
    split at h
    · cases h
      rintro x ⟨⟩
    split at h
    · cases h
      rintro x ⟨⟩
    split at h
    · cases h
      rintro x ⟨⟩
    · cases h
  · cases h
    rintro x ⟨⟩

theorem checkParams_foreseen {params : List Decl} {seen : List Bytes} {e : Error}
    (h : checkParams seen params = .error e) : e.IsForeseen := by
  induction params generalizing seen with
  | nil => cases h
  | cons p params ih =>
      rw [checkParams] at h
      split at h
      · cases h
        rintro x ⟨⟩
      split at h
      · cases h
        rintro x ⟨⟩
      · exact ih h

mutual

theorem collectNode_foreseen {s : Signature} {e : Error} : ∀ {n : Node} {bound : List Bytes},
    collectNode s bound n = .error e → e.IsForeseen
  | .decl d, bound, h => by
    cases h
    rintro x ⟨⟩
  | .assign d v, bound, h => by
    rw [collectNode] at h
    split at h
    · cases h
      rintro x ⟨⟩
    split at h
    · cases h
      rintro x ⟨⟩
    · cases h
  | .cond t c body, bound, h => by
    rw [collectNode] at h
    exact collectBody_foreseen h
  | .int .., _, h | .float .., _, h | .bool .., _, h | .string .., _, h | .binary .., _, h
  | .ref _, _, h | .call .., _, h | .signature _, _, h | .func .., _, h | .ret .., _, h
  | .print .., _, h => by cases h

theorem collectBody_foreseen {s : Signature} {e : Error} : ∀ {body : List Node} {bound : List Bytes},
    collectBody s bound body = .error e → e.IsForeseen
  | [], bound, h => by cases h
  | n :: rest, bound, h => by
    rw [collectBody] at h
    split at h
    · rename_i he
      cases h
      exact collectNode_foreseen he
    · exact collectBody_foreseen h

end

theorem collectItem_foreseen {n : Node} {e : Error} (h : collectItem n = .error e) : e.IsForeseen := by
  cases n with
  | signature s => exact checkParams_foreseen h
  | func s body =>
      rw [collectItem] at h
      split at h
      · rename_i he
        cases h
        exact checkParams_foreseen he
      split at h
      · rename_i he
        cases h
        exact collectBody_foreseen he
      · cases h
  | _ =>
      cases h
      rintro x ⟨⟩

theorem collectItems_foreseen {ns : List Node} {e : Error} (h : collectItems ns = .error e) :
    e.IsForeseen := by
  induction ns with
  | nil => cases h
  | cons n ns ih =>
      rw [collectItems] at h
      split at h
      · rename_i he
        cases h
        exact collectItem_foreseen he
      · exact ih h

theorem checkRef_foreseen {c : Context} {Γ : Scope} {name : Token} {e : Error}
    (h : checkRef c Γ name = .error e) : e.IsForeseen := by
  unfold checkRef at h
  split at h
  · cases h
  split at h
  · split at h
    · cases h
    · cases h
      rintro x ⟨⟩
  · cases h
    rintro x ⟨⟩

/-- **A declaration without a type can be given one**, since the type of a value is always known. -/
theorem bindType_foreseen {d : Decl} {t : Ty} {token : Token} {e : Error}
    (h : bindType d t token = .error e) : e.IsForeseen := by
  unfold bindType at h
  split at h
  · rename_i hnone
    have hresolve : d.resolve (some t) = .ok { d with type := some t } := by
      simp only [Decl.resolve, hnone]
    rw [hresolve] at h
    cases h
  split at h
  · cases h
  · cases h
    rintro x ⟨⟩

theorem requireValue_foreseen {n : Node} {o : Outcome Node} {st : Stopped Node}
    (ho : ∀ st, o = .error st → st.error.IsForeseen) (h : requireValue n o = .error st) :
    st.error.IsForeseen := by
  unfold requireValue at h
  split at h
  · cases h
    exact ho st rfl
  split at h
  · cases h
    rintro x ⟨⟩
  · cases h
    rintro x ⟨⟩
  · cases h

section

variable {c : Context}

mutual

/-- **No error in a body is that of a missing type.** -/
theorem check_foreseen : ∀ (n : Node) (Γ : Scope) (st : Stopped Node),
    check c Γ n = .error st → st.error.IsForeseen
  | .assign d v, Γ, st, h => by
    rw [check] at h
    split at h
    · rename_i hv
      cases h
      have hpart := requireValue_foreseen (check_foreseen v Γ) hv
      exact hpart
    split at h
    · rename_i hbind
      cases h
      exact bindType_foreseen hbind
    · cases h
  | .binary l op r, Γ, st, h => by
    rw [check] at h
    split at h
    · rename_i hl
      cases h
      have hpart := requireValue_foreseen (check_foreseen l Γ) hl
      exact hpart
    split at h
    · rename_i hr
      cases h
      have hpart := requireValue_foreseen (check_foreseen r _) hr
      exact hpart
    split at h
    · cases h
      rintro x ⟨⟩
    split at h
    · cases h
    · cases h
      rintro x ⟨⟩
  | .ref name, Γ, st, h => by
    rw [check] at h
    split at h
    · rename_i href
      cases h
      exact checkRef_foreseen href
    · cases h
  | .call name args, Γ, st, h => by
    rw [check] at h
    split at h
    · cases h
      rintro x ⟨⟩
    split at h
    · cases h
      rintro x ⟨⟩
    split at h
    · rename_i hargs
      cases h
      exact checkArgs_foreseen args Γ _ _ _ _ hargs
    · cases h
  | .print t [], Γ, st, h => by
    rw [check] at h
    cases h
    rintro x ⟨⟩
  | .print t (a :: more), Γ, st, h => by
    rw [check] at h
    split at h
    · rename_i ha
      cases h
      have hpart := requireValue_foreseen (check_foreseen a Γ) ha
      exact hpart
    · cases h
  | .ret t v, Γ, st, h => by
    rw [check] at h
    split at h
    · rename_i hv
      cases h
      have hpart := check_foreseen v Γ _ hv
      exact hpart
    split at h
    · cases h
    · cases h
      rintro x ⟨⟩
  | .cond t e body, Γ, st, h => by
    rw [check] at h
    split at h
    · rename_i he
      cases h
      have hpart := check_foreseen e Γ _ he
      exact hpart
    split at h
    · cases h
      rintro x ⟨⟩
    split at h
    · rename_i hbody
      cases h
      exact checkBody_foreseen body _ _ hbody
    · cases h
  | .func .., Γ, st, h | .signature _, Γ, st, h => by
    rw [check] at h
    cases h
    rintro x ⟨⟩
  | .int .., Γ, st, h | .float .., Γ, st, h | .bool .., Γ, st, h | .string .., Γ, st, h
  | .decl _, Γ, st, h => by
    rw [check] at h
    cases h
termination_by n => sizeOf n

theorem checkArgs_foreseen : ∀ (args : List Node) (Γ : Scope) (name : Bytes) (k : Nat)
    (params : List Decl) (st : Stopped (List Node)),
    checkArgs c Γ name k params args = .error st → st.error.IsForeseen
  | [], Γ, name, k, params, st, h => by
    rw [checkArgs] at h
    cases h
  | a :: args, Γ, name, k, params, st, h => by
    rw [checkArgs] at h
    split at h
    · rename_i ha
      cases h
      exact requireValue_foreseen (check_foreseen a Γ) ha
    split at h
    · cases h
    split at h
    · cases h
      rintro x ⟨⟩
    · obtain ⟨st', hst', rfl⟩ := within_eq_error_iff.1 h
      exact checkArgs_foreseen args _ _ _ _ st' hst'
termination_by args => sizeOf args

theorem checkBody_foreseen : ∀ (body : List Node) (Γ : Scope) (st : Stopped (List Node)),
    checkBody c Γ body = .error st → st.error.IsForeseen
  | [], Γ, st, h => by
    rw [checkBody] at h
    cases h
  | n :: rest, Γ, st, h => by
    rw [checkBody] at h
    split at h
    · rename_i hn
      cases h
      exact check_foreseen n Γ _ hn
    · obtain ⟨st', hst', rfl⟩ := within_eq_error_iff.1 h
      exact checkBody_foreseen rest _ st' hst'
termination_by body => sizeOf body

end

end

theorem checkItem_foreseen {program : List Node} {n : Node} {st : Stopped Node}
    (h : checkItem program n = .error st) : st.error.IsForeseen := by
  cases n with
  | func s body =>
      rw [checkItem] at h
      obtain ⟨st', hst', rfl⟩ := within_eq_error_iff.1 h
      exact checkBody_foreseen body [] st' hst'
  | _ => cases h

theorem checkItems_foreseen {program ns : List Node} {st : Stopped (List Node)}
    (h : checkItems program ns = .error st) : st.error.IsForeseen := by
  induction ns generalizing st with
  | nil => cases h
  | cons n ns ih =>
      rw [checkItems] at h
      split at h
      · rename_i hn
        cases h
        exact checkItem_foreseen hn
      · obtain ⟨st', hst', rfl⟩ := within_eq_error_iff.1 h
        have hrest := ih hst'
        exact hrest

/-! ## What has been filled in -/

section

variable {P : Token → Prop} {program tree : List Node} {s : Signature} {Γ : Scope}

/-- **Every declaration in a body with its types filled in has the type of a value**, in an `if` or not
and behind a `return` or not. -/
theorem BodyTyped.isConcrete {ns ns' : List Node} (h : BodyTyped program s Γ ns ns')
    (hns : ∀ n ∈ ns, n.IsStatement P) : ∀ n ∈ ns', n.IsConcrete := by
  induction h with
  | nil Γ => exact List.forall_mem_nil _
  | expr he _ ih =>
      rw [List.forall_mem_cons] at hns ⊢
      exact ⟨(he.isExpr hns.1).isConcrete, ih hns.2⟩
  | assign _ hvoid _ _ _ ih =>
      rw [List.forall_mem_cons] at hns ⊢
      refine ⟨.of_children ?_ ?_, ih hns.2⟩
      · simpa [Node.declared] using ⟨_, rfl, hvoid⟩
      · simpa [Node.children] using hns.1.assign_value.isConcrete
  | print _ _ _ _ _ ih =>
      rw [List.forall_mem_cons] at hns ⊢
      refine ⟨.of_children (List.forall_mem_nil _) fun a ha => ?_, ih hns.2⟩
      exact (hns.1.print_args a ha).isConcrete
  | ret _ _ _ _ ih =>
      rw [List.forall_mem_cons] at hns ⊢
      refine ⟨.of_children (List.forall_mem_nil _) ?_, ih hns.2⟩
      simpa [Node.children] using hns.1.ret_value.isConcrete
  | cond _ _ _ _ ihb ih =>
      rw [List.forall_mem_cons] at hns ⊢
      obtain ⟨hcondition, hbody⟩ := hns.1.cond_parts
      refine ⟨.of_children (List.forall_mem_nil _) ?_, ih hns.2⟩
      exact List.forall_mem_cons.2 ⟨hcondition.isConcrete, ihb hbody⟩

theorem WellFormedSignature.isConcrete (hs : WellFormedSignature s)
    (htypes : ∀ p ∈ s.params, p.type.isSome) : ∀ p ∈ s.params, p.IsConcrete := by
  intro p hp
  obtain ⟨t, ht⟩ := Option.isSome_iff_exists.1 (htypes p hp)
  refine ⟨t, ht, ?_⟩
  rintro rfl
  exact hs.storable p hp ht

theorem ItemTyped.isConcrete {n n' : Node} (h : ItemTyped program n n') (hn : n.IsStatement P) :
    n'.IsConcrete := by
  cases h with
  | signature hs =>
      have htypes := (hn.isParsed rfl).params
      exact .of_children (hs.isConcrete fun p hp => (htypes p hp).type) (List.forall_mem_nil _)
  | func hs _ hbody =>
      have htypes := (hn.isParsed rfl).params
      exact .of_children (hs.isConcrete fun p hp => (htypes p hp).type)
        (hbody.isConcrete hn.func_body)

/-- **What is wrong with a program is never that a type is missing.** -/
theorem analyze_foreseen {entry : Bytes} {st : Stopped (List Node)}
    (hshape : ∀ n ∈ program, n.IsStatement P) (h : analyze entry program = .error st) :
    st.error.IsForeseen := by
  have hrefused := h
  unfold analyze at h
  split at h
  · rename_i he
    cases h
    exact checkEntry_foreseen he
  rename_i hentry
  split at h
  · rename_i he
    cases h
    exact collectItems_foreseen he
  rename_i hcollect
  split at h
  · rename_i hcheck
    cases h
    exact checkItems_foreseen hcheck
  -- what passes all three is well typed, and a well-typed program is accepted
  · rename_i d hcheck
    rw [collectItems_eq_ok_iff] at hcollect
    have htyped : WellTyped entry program d.tree :=
      ⟨checkEntry_eq_ok_iff.1 hentry, items_of_checkItems hshape hcollect hcheck⟩
    cases hrefused.symm.trans (htyped.analyze_eq hshape)

/-- **The checker leaves no type open and never has to say so.** Take a parsed program, checked before
with whatever entry functions and results or not at all. If it is refused, then not for a declaration
without a type. If it is accepted, every declaration of the tree, wherever it stands, has a type, and
the type is not Void. -/
theorem analyze_resolves {tokens : List Token} (hparse : Parsing.parse tokens = .ok program)
    (entries : List Bytes) (htree : entries.foldl (fun tree e => after e tree) program = tree)
    (entry : Bytes) :
    (∀ st, analyze entry tree = .error st → ∀ x, st.error.cause ≠ .unresolved x) ∧
      ∀ resolved, analyze entry tree = .ok resolved →
        ∀ n ∈ resolved, ∀ m : Node, m.IsPart n → ∀ d ∈ m.declared,
          ∃ t, d.type = some t ∧ t ≠ .void := by
  have hfresh := Parsing.parse_grown (fun _ _ => trivial) hparse
  have hleft : Left program tree := htree ▸ Left.afterAll hfresh (.inl rfl) entries
  have hshape := hleft.isStatement hfresh
  refine ⟨fun st h => analyze_foreseen hshape h, fun resolved h n hn => ?_⟩
  have htyped : WellTyped entry tree resolved := .of_analyze hshape h
  obtain ⟨n₀, hn₀, hitem⟩ := item_of_mem htyped.items hn
  exact hitem.isConcrete (hshape n₀ hn₀)

end

open Parsing in
/-- A program that is first refused for its entry function and then accepted. -/
theorem analyze_resolves_halving :
    parse halvingTokens = .ok (halving none none) ∧
      after (utf8 "start") (halving none none) = halving none none ∧
      analyze defaultEntry (halving none none) = .ok (halving (some .int) (some .string)) ∧
      ∀ n ∈ halving (some .int) (some .string), n.IsConcrete := by
  have hbefore : after (utf8 "start") (halving none none) = halving none none := by rfl
  have hanalyze : analyze defaultEntry (halving none none) =
      .ok (halving (some .int) (some .string)) := by rfl
  obtain ⟨-, hresolved⟩ :=
    analyze_resolves parse_halvingTokens [utf8 "start"] hbefore defaultEntry
  exact ⟨parse_halvingTokens, hbefore, hanalyze, hresolved _ hanalyze⟩

end Typing

end Swiftlet
