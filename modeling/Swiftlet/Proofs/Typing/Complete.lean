import Mathlib.Data.List.Pairwise
import Swiftlet.Proofs.Parsing.Shape
import Swiftlet.Proofs.Typing.Judgment

/-!
# Complete programs

The checker types a call by a signature alone, and a function need not end in a `return`. A program
is `Complete` if, on top of being well typed, it has all that a run can ask for: one item a name, a
body for every function that is called, and a `return` among the statements of every function that
is not Void.

* `DistinctNames` — no two items have the same name.

Principal results: `lastSignature?_eq_some_iff_mem`, that an item is then found by its name,
`Complete.resolved`, that filling in types keeps a program complete, and
`Complete.findFunction?_eq`, that a call runs the function by whose signature it is typed.
-/

namespace Swiftlet

mutual

/-- The functions called in a node. -/
def Node.calls : Node → List Bytes
  | .assign _ value => value.calls
  | .binary left _ right => left.calls ++ right.calls
  | .call name args => name.lexeme :: callsIn args
  | .func _ body => callsIn body
  | .cond _ condition body => condition.calls ++ callsIn body
  | .ret _ value => value.calls
  | .print _ args => callsIn args
  | _ => []

/-- The functions called in a list of nodes. -/
def callsIn : List Node → List Bytes
  | [] => []
  | n :: rest => n.calls ++ callsIn rest

end

theorem calls_subset_callsIn {n : Node} {ns : List Node} (h : n ∈ ns) : n.calls ⊆ callsIn ns := by
  induction h with
  | head => exact List.subset_append_left _ _
  | tail _ _ ih => exact List.Subset.trans ih (List.subset_append_right _ _)

def DistinctNames (program : List Node) : Prop :=
  ((program.filterMap Node.signature?).map (·.name.lexeme)).Nodup

instance (program : List Node) : Decidable (DistinctNames program) :=
  inferInstanceAs (Decidable (List.Nodup _))

/-- A function called `name` that has a body. -/
def HasBody (program : List Node) (name : Bytes) : Prop :=
  ∃ s body, .func s body ∈ program ∧ s.name.lexeme = name

structure Complete (program : List Node) : Prop where
  distinct : DistinctNames program
  bodies : ∀ x ∈ callsIn program, HasBody program x
  returns : ∀ s body, .func s body ∈ program → s.ret ≠ some .void → ∃ n ∈ body, n.isReturn

theorem mem_of_findFunction? {program : List Node} {name : Bytes} {s : Signature}
    {body : List Node} (h : findFunction? program name = some (s, body)) :
    .func s body ∈ program ∧ s.name.lexeme = name := by
  obtain ⟨n, hn, hfound⟩ := List.exists_of_findSome?_eq_some h
  cases n with
  | func s' body' =>
      simp only [Option.ite_none_right_eq_some, Option.some.injEq, Prod.mk.injEq] at hfound
      obtain ⟨hname, rfl, rfl⟩ := hfound
      exact ⟨hn, hname⟩
  | _ => cases hfound

theorem HasBody.findFunction?_eq {program : List Node} {name : Bytes} (h : HasBody program name) :
    ∃ s body, findFunction? program name = some (s, body) := by
  obtain ⟨s, body, hmem, hname⟩ := h
  have hsome : (findFunction? program name).isSome := by
    rw [findFunction?, List.findSome?_isSome_iff]
    exact ⟨_, hmem, by simp [hname]⟩
  obtain ⟨⟨s', body'⟩, hfound⟩ := Option.isSome_iff_exists.1 hsome
  exact ⟨s', body', hfound⟩

open Typing

section

variable {program tree : List Node}

theorem DistinctNames.congr (h : DistinctNames program)
    (heq : tree.filterMap Node.signature? = program.filterMap Node.signature?) : DistinctNames tree := by
  rwa [DistinctNames, heq]

/-- An item is known by its name. -/
theorem DistinctNames.item_unique (h : DistinctNames program) {n n' : Node} {s s' : Signature}
    (hn : n ∈ program) (hn' : n' ∈ program) (hs : n.signature? = some s) (hs' : n'.signature? = some s')
    (hname : s.name.lexeme = s'.name.lexeme) : n = n' := by
  rw [DistinctNames, List.Nodup, List.pairwise_map, List.pairwise_filterMap] at h
  by_contra hne
  have hsymm : Std.Symm fun n n' : Node => ∀ s, n.signature? = some s → ∀ s', n'.signature? = some s' →
      s.name.lexeme ≠ s'.name.lexeme :=
    ⟨fun _ _ hdiffer s hs s' hs' heq => hdiffer s' hs' s hs heq.symm⟩
  exact h.forall hn hn' hne s hs s' hs' hname

theorem lastSignature?_eq_some_iff_mem (h : DistinctNames program) {x : Bytes} {s : Signature} :
    lastSignature? program x = some s ↔
      ∃ n ∈ program, n.signature? = some s ∧ s.name.lexeme = x := by
  constructor
  · intro hlast
    obtain ⟨before, n, rest, rfl, hn, hname, -⟩ := lastSignature?_eq_some_iff.1 hlast
    exact ⟨n, by simp, hn, hname⟩
  · rintro ⟨n, hmem, hn, hname⟩
    cases hlast : lastSignature? program x with
    | none =>
        have hnone := List.find?_eq_none.1 hlast s
          (List.mem_reverse.2 (List.mem_filterMap.2 ⟨n, hmem, hn⟩))
        exact absurd hname (by simpa using hnone)
    | some s' =>
        obtain ⟨before, n', rest, rfl, hn', hname', -⟩ := lastSignature?_eq_some_iff.1 hlast
        obtain rfl := h.item_unique hmem (by simp) hn hn' (hname.trans hname'.symm)
        exact hn'.symm.trans hn

theorem DistinctNames.lastSignature?_eq (h : DistinctNames program) {n : Node} {s : Signature}
    (hn : n ∈ program) (hs : n.signature? = some s) : lastSignature? program s.name.lexeme = some s :=
  (lastSignature?_eq_some_iff_mem h).2 ⟨n, hn, hs, rfl⟩

end

/-- **A call runs the function by whose signature it is typed.** -/
theorem Complete.findFunction?_eq {program : List Node} (h : Complete program) {name : Bytes}
    {callee : Signature} (hcallee : IsLastItem program name callee) (hbody : HasBody program name) :
    ∃ body, findFunction? program name = some (callee, body) ∧ .func callee body ∈ program := by
  obtain ⟨s, body, hfound⟩ := hbody.findFunction?_eq
  obtain ⟨hmem, hname⟩ := mem_of_findFunction? hfound
  obtain ⟨before, item, after, heq, hitem, hcalled, -⟩ := hcallee
  obtain rfl := h.distinct.item_unique hmem (by simp [heq]) rfl hitem (hname.trans hcalled.symm)
  cases hitem
  exact ⟨body, hfound, hmem⟩

/-! ## Filling in types -/

variable {program : List Node} {s : Signature} {Γ : Scope}

theorem Typing.BodyTyped.callsIn_eq {ns ns' : List Node} (h : BodyTyped program s Γ ns ns') :
    callsIn ns' = callsIn ns := by
  induction h with
  | nil Γ => rfl
  | expr _ _ ih => rw [callsIn, callsIn, ih]
  | assign _ _ _ _ _ ih => rw [callsIn, callsIn, ih, Node.calls, Node.calls]
  | print _ _ _ _ _ ih => rw [callsIn, callsIn, ih]
  | ret _ _ _ _ ih => rw [callsIn, callsIn, ih]
  | cond _ _ _ _ ihb ih => rw [callsIn, callsIn, ih, Node.calls, Node.calls, ihb]

theorem Typing.BodyTyped.returns {ns ns' : List Node} (h : BodyTyped program s Γ ns ns')
    (hret : ∃ n ∈ ns, n.isReturn) : ∃ n ∈ ns', n.isReturn := by
  simp only [← List.any_eq_true] at hret ⊢
  induction h with
  | nil Γ => exact hret
  | expr _ _ ih | assign _ _ _ _ _ ih | print _ _ _ _ _ ih | cond _ _ _ _ _ ih =>
      simp only [List.any_cons, Bool.or_eq_true] at hret ⊢
      exact hret.imp id ih
  | ret => rfl

theorem Typing.callsIn_of_items {ns ns' : List Node}
    (h : List.Forall₂ (ItemTyped program) ns ns') : callsIn ns' = callsIn ns := by
  induction h with
  | nil => rfl
  | cons hitem _ ih =>
      rw [callsIn, callsIn, ih]
      cases hitem with
      | signature _ => rfl
      | func _ _ hbody => rw [Node.calls, Node.calls, hbody.callsIn_eq]

theorem Typing.hasBody_of_items {ns ns' : List Node}
    (h : List.Forall₂ (ItemTyped program) ns ns') {x : Bytes} (hx : HasBody ns x) :
    HasBody ns' x := by
  obtain ⟨s, body, hmem, hname⟩ := hx
  induction h with
  | nil => cases hmem
  | cons hitem _ ih =>
      rcases List.mem_cons.1 hmem with rfl | hmem
      · cases hitem with
        | func _ _ _ => exact ⟨s, _, List.mem_cons_self, hname⟩
      · obtain ⟨s', body', hmem', hname'⟩ := ih hmem
        exact ⟨s', body', List.mem_cons_of_mem _ hmem', hname'⟩

/-- **Filling in the types of a complete program keeps it complete.** -/
theorem Complete.resolved {entry : Bytes} {tree : List Node} (hc : Complete program)
    (h : WellTyped entry program tree) : Complete tree := by
  have hsigs := filterMap_signature?_congr h.map_signature?
  refine ⟨hc.distinct.congr hsigs, ?_, ?_⟩
  · intro x hx
    rw [callsIn_of_items h.items] at hx
    exact hasBody_of_items h.items (hc.bodies x hx)
  · intro s body hmem hret
    obtain ⟨n, hn, hitem⟩ := item_of_mem h.items hmem
    cases hitem with
    | func _ _ hbody => exact hbody.returns (hc.returns _ _ hn hret)

/-- The entry function of a well-typed program is the one that a run begins with. -/
theorem Typing.WellTyped.findFunction?_entry {entry : Bytes} {tree : List Node}
    (h : WellTyped entry program tree) :
    ∃ s body, findFunction? tree entry = some (s, body) ∧ .func s body ∈ tree ∧ s.params = [] ∧
      s.ret = some .void := by
  obtain ⟨s, body, rest, heq, hname, hparams, hret, -⟩ := h.entry
  have hitems := h.items
  rw [heq] at hitems
  cases hitems with
  | cons hitem _ =>
      cases hitem with
      | func _ _ _ =>
          refine ⟨s, _, ?_, List.mem_cons_self, hparams, hret⟩
          rw [findFunction?, List.findSome?_cons]
          simp [hname]

theorem complete_halving : Complete (Parsing.halving none none) := by
  refine ⟨by decide, ?_, ?_⟩
  · intro x hx
    have hx : x ∈ [utf8 "halve", utf8 "halve"] := hx
    simp only [List.mem_cons, List.not_mem_nil, or_false, or_self] at hx
    subst hx
    exact ⟨_, _, List.mem_cons_of_mem _ List.mem_cons_self, rfl⟩
  · intro s body hmem hret
    simp only [Parsing.halving, List.mem_cons, Node.func.injEq, List.not_mem_nil, or_false] at hmem
    obtain ⟨rfl, rfl⟩ | ⟨rfl, rfl⟩ := hmem
    · exact absurd rfl hret
    · exact ⟨_, List.mem_cons_of_mem _ List.mem_cons_self, rfl⟩

end Swiftlet
