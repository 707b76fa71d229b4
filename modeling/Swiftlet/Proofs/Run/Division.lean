import Swiftlet.Proofs.Run.Visits
import Swiftlet.Proofs.Typing.Complete

/-!
# Divisions out of range

The least integer divided by -1 has no quotient of 32 bits. A run wraps around there; elsewhere the
operation is not defined.

* `Config.Overflows` — a configuration is such a division, and `Config.InRange` says that it needs
  none.
* `Node.divisors` — what a node divides by.

Principal results: `Visited.within`, that a run divides only by what stands in the program, and
`Visited.not_overflows`, a condition that can be read off the program.
-/

namespace Swiftlet

mutual

/-- The divisors in a node. -/
def Node.divisors : Node → List Node
  | .assign _ value => value.divisors
  | .binary left op right =>
    (if op.kind = .operator .slash then [right] else []) ++ (left.divisors ++ right.divisors)
  | .call _ args => divisorsIn args
  | .func _ body => divisorsIn body
  | .cond _ condition body => condition.divisors ++ divisorsIn body
  | .ret _ value => value.divisors
  | .print _ args => divisorsIn args
  | _ => []

/-- The divisors in a list of nodes. -/
def divisorsIn : List Node → List Node
  | [] => []
  | n :: rest => n.divisors ++ divisorsIn rest

end

theorem divisors_subset_divisorsIn {n : Node} {ns : List Node} (h : n ∈ ns) :
    n.divisors ⊆ divisorsIn ns := by
  induction h with
  | head => exact List.subset_append_left _ _
  | tail _ _ ih => exact List.Subset.trans ih (List.subset_append_right _ _)

namespace Run

/-- A division of integers whose quotient is out of range. -/
def Config.Overflows (program : List Node) (c : Config) : Prop :=
  ∃ l op r m₁ m₂, c.code = .node (.binary l op r) ∧ op.kind = .operator .slash ∧
    Config.outcome program ⟨c.depth, c.args, .node l, c.machine⟩ =
      .ok (.int Int32.minValue, m₁) ∧
    Config.outcome program ⟨c.depth, c.args, .node r, m₁⟩ = .ok (.int (-1), m₂)

/-- Nothing that is evaluated as part of `c` overflows. -/
def Config.InRange (program : List Node) (c : Config) : Prop :=
  ∀ c', Relation.ReflTransGen (Config.Needs program) c c' → ¬c'.Overflows program

theorem Config.InRange.needs {program : List Node} {c c' : Config} (h : c.InRange program)
    (hneeds : Config.Needs program c c') : c'.InRange program :=
  fun c'' hreach => h c'' (.head hneeds hreach)

/-- An argument all of whose divisors, those of the frames it comes from included, are in `ds`. -/
inductive Suspended.Within (ds : List Node) : Suspended → Prop where
  | mk {depth : Nat} {args : List Suspended} {n : Node} (hn : n.divisors ⊆ ds)
      (hargs : ∀ a ∈ args, a.Within ds) : Within ds (.mk depth args n)

def Code.divisors : Code → List Node
  | .node n => n.divisors
  | .body ns => divisorsIn ns

structure Config.Within (ds : List Node) (c : Config) : Prop where
  code : c.code.divisors ⊆ ds
  args : ∀ a ∈ c.args, a.Within ds

/-- Evaluation comes to no divisor that is not in the program. -/
theorem Config.Within.needs {program : List Node} {c c' : Config}
    (h : c.Within (divisorsIn program)) (hneeds : Config.Needs program c c') :
    c'.Within (divisorsIn program) := by
  obtain ⟨hcode, hargs⟩ := h
  cases hneeds with
  | assign | ret =>
      rw [Code.divisors, Node.divisors] at hcode
      exact ⟨hcode, hargs⟩
  | printed =>
      rw [Code.divisors, Node.divisors, divisorsIn, List.append_subset] at hcode
      exact ⟨hcode.1, hargs⟩
  | left =>
      rw [Code.divisors, Node.divisors, List.append_subset, List.append_subset] at hcode
      exact ⟨hcode.2.1, hargs⟩
  | right =>
      rw [Code.divisors, Node.divisors, List.append_subset, List.append_subset] at hcode
      exact ⟨hcode.2.2, hargs⟩
  | argument _ _ _ harg =>
      cases hargs _ (List.mem_of_getElem? harg) with
      | mk hn hargs' => exact ⟨hn, hargs'⟩
  | call hfound =>
      rw [Code.divisors, Node.divisors] at hcode
      refine ⟨divisors_subset_divisorsIn (mem_of_findFunction? hfound).1, fun a ha => ?_⟩
      obtain ⟨n, hn, rfl⟩ := List.mem_map.1 ha
      exact .mk (List.Subset.trans (divisors_subset_divisorsIn hn) hcode) hargs
  | condition =>
      rw [Code.divisors, Node.divisors, List.append_subset] at hcode
      exact ⟨hcode.1, hargs⟩
  | branch =>
      rw [Code.divisors, Node.divisors, List.append_subset] at hcode
      exact ⟨hcode.2, hargs⟩
  | first =>
      rw [Code.divisors, divisorsIn, List.append_subset] at hcode
      exact ⟨hcode.1, hargs⟩
  | rest =>
      rw [Code.divisors, divisorsIn, List.append_subset] at hcode
      exact ⟨hcode.2, hargs⟩

theorem Visited.within {entry : Bytes} {program : List Node} {sink : Sink} {c : Config}
    (h : Visited entry program sink c) : c.Within (divisorsIn program) := by
  have hvisited := h
  obtain ⟨s, body, hfound, -⟩ := h
  refine Visited.induction hfound ⟨?_, by simp [Config.start]⟩ (fun _ _ h hneeds => h.needs hneeds)
    hvisited
  exact divisors_subset_divisorsIn (mem_of_findFunction? hfound).1

/-- **Division by literals other than -1 does not overflow.** -/
theorem Visited.not_overflows {entry : Bytes} {program : List Node} {sink : Sink}
    (hdivisors : ∀ n ∈ divisorsIn program, ∃ t v, n = .int t v ∧ v ≠ -1) {c : Config}
    (h : Visited entry program sink c) : ¬c.Overflows program := by
  rintro ⟨l, op, r, m₁, m₂, hcode, hop, -, hr⟩
  have hmem : r ∈ divisorsIn program := by
    refine h.within.code ?_
    rw [hcode, Code.divisors, Node.divisors, if_pos hop]
    simp
  obtain ⟨t, v, rfl, hv⟩ := hdivisors r hmem
  simp only [Config.outcome, eval, Except.ok.injEq, Prod.mk.injEq, Value.int.injEq] at hr
  exact hv hr.1

end Run

end Swiftlet
