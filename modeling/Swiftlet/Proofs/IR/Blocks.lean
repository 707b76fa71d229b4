import Swiftlet.Proofs.IR.Emission

/-!
# The blocks of a body

An `if` takes two blocks, one for its body and one in which the code goes on after it; the blocks of
the `if`s in its body come behind them. All blocks of a function end with a terminator but possibly
the one in which the body ends.

* `blocksIn` and `lastMerge?` — how many blocks a body adds, and in which one it goes on after its
  last `if`, read off the statements.
* `Closes σ σ'` — of the blocks from the current one of `σ` on, all have ended but the current one
  of `σ'`.

Principal results: `LowersBody.closes` and `LowersBody.counts`.
-/

namespace Swiftlet

namespace IR

open Typing

/-! ## Counting blocks -/

mutual

/-- The number of blocks that a statement adds to its function. -/
def blocksOf : Node → Nat
  | .cond _ _ body => 2 + blocksIn body
  | _ => 0

/-- The number of blocks that a body adds; what stands behind a `return` adds none. -/
def blocksIn : List Node → Nat
  | [] => 0
  | n :: rest => blocksOf n + if n.isReturn then 0 else blocksIn rest

end

/-- The block in which the code goes on after a statement that branches, where `next` blocks are
there before it. -/
def mergeOf? (next : Nat) : Node → Option Nat
  | .cond .. => some (next + 1)
  | _ => none

/-- The block in which the code goes on after the last `if` of a body, where `next` blocks are there
before it. -/
def lastMerge? (next : Nat) : List Node → Option Nat
  | [] => none
  | n :: rest => (lastMerge? (next + blocksOf n) rest).or (mergeOf? next n)

/-- The statement neither branches nor returns. -/
structure IsPlain (n : Node) : Prop where
  blocks : blocksOf n = 0
  merge : ∀ next, mergeOf? next n = none
  isReturn : n.isReturn = false

theorem isPlain_of_hasType {program : List Node} {s : Signature} {Γ : Scope} {e : Node}
    {t : Swiftlet.Ty} (h : HasType program s Γ e t) : IsPlain e := by
  cases h <;> exact ⟨by simp [blocksOf], fun _ => rfl, rfl⟩

/-- What a body adds does not depend on its plain statements. -/
theorem IsPlain.counts {n : Node} (h : IsPlain n) (rest : List Node) :
    blocksIn (n :: rest) = blocksIn rest ∧
      (∀ next, lastMerge? next (n :: rest) = lastMerge? next rest) ∧
      (n :: rest).any Node.isReturn = rest.any Node.isReturn := by
  simp [blocksIn, lastMerge?, h.blocks, h.merge, h.isReturn]

section

variable {c : Context} {s : Signature} {Γ : Scope} {ns : List Node} {σ σ' σ'' : State}

theorem join_length (σ : State) (merge : Nat) :
    (σ.join merge).blocks.length = σ.blocks.length := by
  unfold State.join
  split <;> simp [State.terminate]

/-- **How many blocks a body adds, and in which one it ends** if it has no `return`. -/
theorem LowersBody.counts (h : LowersBody c s Γ ns σ σ') :
    σ'.blocks.length = σ.blocks.length + blocksIn ns ∧
      (ns.any Node.isReturn = false →
        σ'.current = (lastMerge? σ.blocks.length ns).getD σ.current) := by
  induction h with
  | nil => exact ⟨by rw [blocksIn]; rfl, fun _ => rfl⟩
  | @expr _ _ _ ns _ _ _ _ hopen he hvalue _ ih =>
      have hstraight := hvalue.straight hopen
      obtain ⟨hblocks, hmerge, hreturn⟩ := (isPlain_of_hasType he).counts ns
      rw [hblocks, hmerge, hreturn, ← hstraight.length, ← hstraight.same]
      exact ih
  | @assign _ d v _ ns o _ σ₁ _ hopen _ _ hvalue _ _ ih =>
      have hstraight := hvalue.straight hopen
      have hplain : IsPlain (.assign d v) := ⟨by simp [blocksOf], fun _ => rfl, rfl⟩
      obtain ⟨hblocks, hmerge, hreturn⟩ := hplain.counts ns
      rw [hblocks, hmerge, hreturn, ← hstraight.length, ← hstraight.same,
        ← bind_length σ₁ d.name.lexeme o]
      exact ih
  | @print _ token a more ns name text o _ _ _ hopen hvalue _ _ ih =>
      have hstraight := hvalue.straight hopen
      have hall := hstraight.trans (print_straight hstraight.isOpen o name text)
      have hplain : IsPlain (.print token (a :: more)) := ⟨by simp [blocksOf], fun _ => rfl, rfl⟩
      obtain ⟨hblocks, hmerge, hreturn⟩ := hplain.counts ns
      rw [hblocks, hmerge, hreturn, ← hall.length, ← hall.same]
      exact ih
  | ret hopen hvalue _ _ =>
      have hstraight := hvalue.straight hopen
      simp [blocksIn, blocksOf, Node.isReturn, State.terminate, hstraight.length]
  | @cond _ _ _ body ns o σ σ₁ σ₂ _ hopen hvalue _ _ _ ihb ih =>
      have hstraight := hvalue.straight hopen
      have hjoined : (σ₂.join (σ₁.blocks.length + 1)).blocks.length =
          σ.blocks.length + (2 + blocksIn body) := by
        rw [join_length, ihb.1, (branch_new σ₁ o).1, hstraight.length, Nat.add_assoc]
      rw [hjoined] at ih
      refine ⟨?_, fun hreturn => ?_⟩
      · rw [ih.1, Nat.add_assoc]
        simp [blocksIn, blocksOf, Node.isReturn]
      · rw [ih.2 (by simpa [Node.isReturn] using hreturn), lastMerge?, blocksOf, mergeOf?]
        show Option.getD _ (σ₁.blocks.length + 1) = _
        rw [hstraight.length]
        cases lastMerge? (σ.blocks.length + (2 + blocksIn body)) ns <;> rfl

/-! ## Blocks that have ended -/

/-- The block has ended. -/
def State.Ended (σ : State) (k : Nat) : Prop := (terminatorOf? σ.blocks k).isSome

structure Closes (σ σ' : State) : Prop where
  before : σ'.current ≠ σ.current → σ'.Ended σ.current
  between : ∀ k, σ.blocks.length ≤ k → k < σ'.blocks.length → k ≠ σ'.current → σ'.Ended k

theorem State.Ended.grow {k : Nat} (h : σ.Ended k) (hgrow : BlocksGrow σ.blocks σ'.blocks) :
    σ'.Ended k := by
  obtain ⟨t, ht⟩ := Option.isSome_iff_exists.1 h
  exact Option.isSome_iff_exists.2 ⟨t, hgrow.terminatorOf? ht⟩

theorem Closes.of_same (hcurrent : σ'.current = σ.current)
    (hlength : σ'.blocks.length = σ.blocks.length) : Closes σ σ' :=
  ⟨fun hne => absurd hcurrent hne, fun k hk hk' _ => by omega⟩

theorem Straight.closes (h : Straight c σ σ') : Closes σ σ' := .of_same h.same h.length

theorem Closes.trans (h : Closes σ σ') (h' : Closes σ' σ'')
    (hgrow : BlocksGrow σ'.blocks σ''.blocks) : Closes σ σ'' := by
  refine ⟨fun hne => ?_, fun k hk hk' hne => ?_⟩
  · by_cases hsame : σ'.current = σ.current
    · rw [← hsame] at hne ⊢
      exact h'.before hne
    · exact (h.before hsame).grow hgrow
  · rcases Nat.lt_or_ge k σ'.blocks.length with hlt | hge
    · by_cases hsame : k = σ'.current
      · subst hsame
        exact h'.before (Ne.symm hne)
      · exact (h.between k hk hlt hsame).grow hgrow
    · exact h'.between k hge hk' hne

theorem ended_branch (hopen : σ.Open) (v : Operand) : (σ.branch v).Ended σ.current := by
  rw [State.Ended, branch_terminatorOf? hopen.lt, if_pos rfl]
  rfl

theorem isTerminated_iff_ended (hlt : σ.current < σ.blocks.length) :
    σ.isTerminated = true ↔ σ.Ended σ.current := by
  have hb := List.getElem?_eq_getElem hlt
  rw [State.isTerminated, State.block_eq hb, State.Ended, terminatorOf?, hb, Option.bind_some]

theorem ended_join (hlt : σ.current < σ.blocks.length) (merge : Nat) :
    (σ.join merge).Ended σ.current := by
  rw [State.Ended, join_terminatorOf? hlt]
  cases hended : σ.isTerminated with
  | true =>
      rw [if_neg (by simp)]
      exact (isTerminated_iff_ended hlt).1 hended
  | false => simp

/-- An `if` closes the block in front of it and all of its own but the one after it. -/
theorem closes_join (hopen : σ.Open) {v : Operand} (h : Closes (σ.branch v) σ')
    (hgrows : Grows c (σ.branch v) σ') (hlt : σ'.current < σ'.blocks.length) :
    Closes σ (σ'.join (σ.blocks.length + 1)) := by
  have hjoin := join_blocks hlt (σ.blocks.length + 1)
  have hlen := (branch_new σ v).1
  refine ⟨fun _ => ?_, fun k hk hk' hne => ?_⟩
  · exact ((ended_branch hopen v).grow hgrows.blocks).grow hjoin
  rw [join_length] at hk'
  have hmerge : k ≠ σ.blocks.length + 1 := hne
  by_cases hlast : k = σ'.current
  · exact hlast ▸ ended_join hlt _
  · rcases Nat.lt_or_ge k (σ.branch v).blocks.length with hlt' | hge
    · -- Of the two blocks of the `if`, this is the one with its body.
      have hfirst : k = (σ.branch v).current := by
        show k = σ.blocks.length
        omega
      subst hfirst
      exact (h.before (Ne.symm hlast)).grow hjoin
    · exact (h.between k hge hk' hlast).grow hjoin

/-- **A body leaves no block open but the one in which it ends.** -/
theorem LowersBody.closes (h : LowersBody c s Γ ns σ σ') : Closes σ σ' := by
  induction h with
  | nil => exact .of_same rfl rfl
  | expr hopen _ hvalue hrest ih =>
      exact (hvalue.straight hopen).closes.trans ih hrest.follows.blocks
  | @assign _ d _ _ _ o _ σ₁ _ hopen _ _ hvalue _ hrest ih =>
      have hstraight := hvalue.straight hopen
      have hbound : Closes σ₁ (σ₁.bind d.name.lexeme o) := .of_same rfl (bind_length _ _ _)
      have hgrow := (bind_follows (c := c) hstraight.isOpen d.name.lexeme o).blocks
      exact (hstraight.closes.trans hbound hgrow).trans ih hrest.follows.blocks
  | print hopen hvalue _ hrest ih =>
      have hstraight := hvalue.straight hopen
      exact (hstraight.trans (print_straight hstraight.isOpen _ _ _)).closes.trans ih
        hrest.follows.blocks
  | ret hopen hvalue _ _ =>
      have hstraight := hvalue.straight hopen
      exact hstraight.closes.trans (.of_same rfl (by simp [State.terminate]))
        (hstraight.isOpen.terminate _)
  | cond hopen hvalue _ hbody hrest ihb ih =>
      have hstraight := hvalue.straight hopen
      have hjoin := closes_join hstraight.isOpen ihb hbody.follows.toGrows hbody.follows.inRange
      have hjoined := join_follows hstraight.isOpen hbody.follows.toGrows hbody.follows.inRange
      exact (hstraight.closes.trans hjoin hjoined.1.blocks).trans ih hrest.follows.blocks

/-- The block in which a body ends has a terminator if the body ended it or its function is Void. -/
theorem ended_finish_iff (hlt : σ.current < σ.blocks.length) (isVoid : Bool) :
    (σ.finish isVoid).Ended σ.current ↔ isVoid = true ∨ σ.isTerminated = true := by
  unfold State.finish
  cases hended : σ.isTerminated with
  | true => simpa using (isTerminated_iff_ended hlt).1 hended
  | false =>
      cases isVoid with
      | true => simp [State.Ended, terminate_terminatorOf? hlt]
      | false => simpa [hended] using (isTerminated_iff_ended hlt).not.1 (by simp [hended])

end

end IR

end Swiftlet
