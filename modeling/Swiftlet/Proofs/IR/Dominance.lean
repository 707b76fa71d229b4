import Mathlib.Logic.Relation
import Swiftlet.Proofs.IR.Emission

/-!
# Blocks that dominate others

A block dominates another if every path from the first block to the other passes through it. In the
code of a body the branches nest: every block but the first is opened by the one block that branches
to it, and a block that goes on elsewhere goes on after an `if` that it is part of. So a block
dominates all blocks that are opened, directly or not, from it.

* `Path`, `Dominates` — paths through the blocks of a function, and dominance.
* `Opens`, `Above` — a block branches to another; the same in any number of steps.
* `Nested` — the branches nest.

Principal results: `Nested.dominates`, and `LowersBody.nested`, that the branches of a body nest.
-/

namespace Swiftlet

namespace IR

open Typing

/-- The blocks in which the code may go on. -/
def Terminator.targets : Terminator → List Nat
  | .ret _ => []
  | .br target => [target]
  | .condBr _ ifTrue ifFalse => [ifTrue, ifFalse]

/-- Blocks that may be passed one after the other from the first one on, latest first. -/
inductive Path (blocks : List Block) : List Nat → Prop where
  | start : Path blocks [0]
  | step {k next : Nat} {before : List Nat} {t : Terminator} (hpath : Path blocks (k :: before))
      (ht : terminatorOf? blocks k = some t) (hnext : next ∈ t.targets) :
      Path blocks (next :: k :: before)

/-- Every path to `b` passes through `a`. -/
def Dominates (blocks : List Block) (a b : Nat) : Prop :=
  ∀ before, Path blocks (b :: before) → a ∈ b :: before

/-! ## Nested branches -/

/-- Block `a` branches to `b`. -/
def Opens (blocks : List Block) (a b : Nat) : Prop :=
  ∃ v ifTrue ifFalse, terminatorOf? blocks a = some (.condBr v ifTrue ifFalse) ∧
    (b = ifTrue ∨ b = ifFalse)

def Above (blocks : List Block) : Nat → Nat → Prop := Relation.ReflTransGen (Opens blocks)

structure Nested (blocks : List Block) : Prop where
  targets : ∀ k t, terminatorOf? blocks k = some t → ∀ b ∈ t.targets, 0 < b ∧ b < blocks.length
  opener : ∀ a a' b, Opens blocks a b → Opens blocks a' b → a = a'
  merge : ∀ k b, terminatorOf? blocks k = some (.br b) → ∃ a, Opens blocks a b ∧ Above blocks a k

section

variable {bs bs' : List Block}

theorem Opens.grow {a b : Nat} (h : Opens bs a b) (hgrow : BlocksGrow bs bs') : Opens bs' a b := by
  obtain ⟨v, k, l, ht, hb⟩ := h
  exact ⟨v, k, l, hgrow.terminatorOf? ht, hb⟩

theorem Above.grow {a b : Nat} (h : Above bs a b) (hgrow : BlocksGrow bs bs') : Above bs' a b :=
  Relation.ReflTransGen.mono (fun _ _ hopens => Opens.grow hopens hgrow) _ _ h

theorem Opens.above {a b : Nat} (h : Opens bs a b) : Above bs a b := .single h

theorem Nested.opens_bounds (h : Nested bs) {a b : Nat} (hopens : Opens bs a b) :
    0 < b ∧ b < bs.length := by
  obtain ⟨v, k, l, ht, hb⟩ := hopens
  exact h.targets a _ ht b (by simpa [Terminator.targets] using hb)

/-- **A block dominates what is opened from it.** -/
theorem Nested.dominates (h : Nested bs) {a b : Nat} (hab : Above bs a b) : Dominates bs a b := by
  intro before hpath
  generalize hblocks : b :: before = path at hpath
  induction hpath generalizing b before with
  | start =>
      cases hblocks
      rcases hab.cases_tail with rfl | ⟨p, -, hopens⟩
      · exact List.mem_singleton_self _
      · exact absurd (h.opens_bounds hopens).1 (Nat.lt_irrefl 0)
  | @step k next before' t _ ht hnext ih =>
      cases hblocks
      rcases hab.cases_tail with rfl | ⟨p, hap, hopens⟩
      · exact List.mem_cons_self
      · -- Whichever way the path comes, its block before is in turn opened from `a`.
        refine List.mem_cons_of_mem _ (ih (b := k) ?_ _ rfl)
        match t with
        | .ret _ => cases hnext
        | .br target =>
            obtain rfl := List.mem_singleton.1 hnext
            obtain ⟨p', hopens', habove⟩ := h.merge k _ ht
            obtain rfl := h.opener _ _ _ hopens hopens'
            exact hap.trans habove
        | .condBr v ifTrue ifFalse =>
            have hk : Opens bs k next :=
              ⟨v, ifTrue, ifFalse, ht, by simpa [Terminator.targets] using hnext⟩
            exact h.opener _ _ _ hopens hk ▸ hap

theorem Nested.congr (h : Nested bs) (hends : ∀ k, terminatorOf? bs' k = terminatorOf? bs k)
    (hlength : bs'.length = bs.length) : Nested bs' := by
  have hopens : Opens bs' = Opens bs := by
    funext a b
    simp only [Opens, hends]
  refine ⟨?_, ?_, ?_⟩
  · simpa only [hends, hlength] using h.targets
  · simpa only [hopens] using h.opener
  · simpa only [hends, Above, hopens] using h.merge

/-- Branches go on nesting when block `k` ends: with a branch to new blocks, or in a block that was
opened from above it. -/
theorem Nested.ends (h : Nested bs) {k : Nat} {t : Terminator} (hopen : terminatorOf? bs k = none)
    (hends : ∀ j, terminatorOf? bs' j = if j = k then some t else terminatorOf? bs j)
    (hlength : bs.length ≤ bs'.length) (htargets : ∀ b ∈ t.targets, 0 < b ∧ b < bs'.length)
    (hnew : ∀ v l r, t = .condBr v l r → bs.length ≤ l ∧ bs.length ≤ r)
    (hmerge : ∀ b, t = .br b → ∃ a, Opens bs a b ∧ Above bs a k) : Nested bs' := by
  have hkeep : ∀ a b, Opens bs a b → Opens bs' a b := by
    rintro a b ⟨v, l, r, ht, hb⟩
    refine ⟨v, l, r, ?_, hb⟩
    rw [hends, if_neg, ht]
    rintro rfl
    rw [hopen] at ht
    cases ht
  have hopens : ∀ a b, Opens bs' a b → Opens bs a b ∨ a = k ∧ bs.length ≤ b := by
    rintro a b ⟨v, l, r, ht, hb⟩
    rw [hends] at ht
    split at ht
    · rename_i hak
      obtain ⟨hl, hr⟩ := hnew v l r (Option.some.inj ht)
      exact .inr ⟨hak, by rcases hb with rfl | rfl <;> assumption⟩
    · exact .inl ⟨v, l, r, ht, hb⟩
  have habove : ∀ a b, Above bs a b → Above bs' a b := Relation.ReflTransGen.mono hkeep
  refine ⟨fun j e he b hb => ?_, fun a a' b ha ha' => ?_, fun j b he => ?_⟩
  · rw [hends] at he
    split at he
    · cases he
      exact htargets b hb
    · have := h.targets j e he b hb
      exact ⟨this.1, by omega⟩
  · rcases hopens a b ha with ha | ⟨rfl, hge⟩ <;> rcases hopens a' b ha' with ha' | ⟨rfl, hge'⟩
    · exact h.opener a a' b ha ha'
    · exact absurd (h.opens_bounds ha).2 (by omega)
    · exact absurd (h.opens_bounds ha').2 (by omega)
    · rfl
  · rw [hends] at he
    split at he
    · rename_i hjk
      obtain ⟨a, ha, hak⟩ := hmerge b (Option.some.inj he)
      exact ⟨a, hkeep a b ha, habove a j (hjk ▸ hak)⟩
    · obtain ⟨a, ha, hak⟩ := h.merge j b he
      exact ⟨a, hkeep a b ha, habove a j hak⟩

end

/-! ## Bodies -/

section

variable {c : Context} {s : Signature} {Γ : Scope} {ns : List Node} {σ σ' : State}

theorem State.Open.terminatorOf?_current (h : σ.Open) :
    terminatorOf? σ.blocks σ.current = none := by
  obtain ⟨b, hb, hnone⟩ := h
  rw [terminatorOf?, hb, Option.bind_some, hnone]

/-- Straight code ends no block. -/
theorem Straight.terminatorOf?_eq (h : Straight c σ σ') (hopen : σ.Open) (k : Nat) :
    terminatorOf? σ'.blocks k = terminatorOf? σ.blocks k := by
  by_cases hk : k = σ.current
  · have hend := h.isOpen.terminatorOf?_current
    rw [h.same] at hend
    rw [hk, hend, hopen.terminatorOf?_current]
  · rcases Nat.lt_or_ge k σ.blocks.length with hlt | hge
    · rw [terminatorOf?, h.others k hlt hk, terminatorOf?]
    · rw [terminatorOf?, terminatorOf?, List.getElem?_eq_none hge,
        List.getElem?_eq_none (by rw [h.length]; exact hge)]

theorem Straight.nested (h : Straight c σ σ') (hopen : σ.Open) (hσ : Nested σ.blocks) :
    Nested σ'.blocks :=
  hσ.congr (h.terminatorOf?_eq hopen) h.length

/-- The blocks of an `if` are opened by the block in front of it. -/
theorem branch_opens (hopen : σ.Open) (v : Operand) :
    Opens (σ.branch v).blocks σ.current σ.blocks.length ∧
      Opens (σ.branch v).blocks σ.current (σ.blocks.length + 1) := by
  have ht := branch_terminatorOf? hopen.lt v σ.current
  rw [if_pos rfl] at ht
  exact ⟨⟨v, _, _, ht, .inl rfl⟩, ⟨v, _, _, ht, .inr rfl⟩⟩

theorem Nested.branch (h : Nested σ.blocks) (hopen : σ.Open) (v : Operand) :
    Nested (σ.branch v).blocks := by
  have hlen := (branch_new σ v).1
  have hlt := hopen.lt
  refine h.ends hopen.terminatorOf?_current (branch_terminatorOf? hlt v) (by omega) ?_ ?_ ?_
  · simp only [Terminator.targets, List.mem_cons, List.not_mem_nil, or_false]
    rintro b (rfl | rfl) <;> omega
  · rintro _ _ _ ⟨⟩
    exact ⟨Nat.le_refl _, Nat.le_add_right _ _⟩
  · rintro b ⟨⟩

theorem Nested.join (h : Nested σ.blocks) (hlt : σ.current < σ.blocks.length) {a merge : Nat}
    (hopens : Opens σ.blocks a merge) (habove : Above σ.blocks a σ.current) :
    Nested (σ.join merge).blocks := by
  unfold State.join
  split
  · exact h
  · rename_i hended
    have hopen := State.open_of_not_terminated hlt (by simpa using hended)
    refine h.ends hopen.terminatorOf?_current (terminate_terminatorOf? hlt _) ?_ ?_ ?_ ?_
    · simp [State.terminate]
    · simpa [Terminator.targets, State.terminate] using h.opens_bounds hopens
    · rintro _ _ _ ⟨⟩
    · rintro b ⟨⟩
      exact ⟨a, hopens, habove⟩

theorem Nested.ret (h : Nested σ.blocks) (hopen : σ.Open) (v : Option Operand) :
    Nested (σ.terminate (.ret v)).blocks := by
  refine h.ends hopen.terminatorOf?_current (terminate_terminatorOf? hopen.lt _) ?_ ?_ ?_ ?_
  · simp [State.terminate]
  · simp [Terminator.targets]
  · rintro _ _ _ ⟨⟩
  · rintro b ⟨⟩

/-- **The branches of a body nest**, and a body ends in a block that is opened from the one in which
it begins. -/
theorem LowersBody.nested (h : LowersBody c s Γ ns σ σ') (hσ : Nested σ.blocks) :
    Nested σ'.blocks ∧ Above σ'.blocks σ.current σ'.current := by
  induction h with
  | nil => exact ⟨hσ, .refl⟩
  | expr hopen _ hvalue _ ih =>
      have hstraight := hvalue.straight hopen
      rw [← hstraight.same]
      exact ih (hstraight.nested hopen hσ)
  | @assign _ d _ _ _ o _ _ _ hopen _ _ hvalue _ _ ih =>
      have hstraight := hvalue.straight hopen
      have hbound := bind_straight (c := c) hstraight.isOpen d.name.lexeme o
      rw [← hstraight.same]
      exact ih (hbound.nested hstraight.isOpen (hstraight.nested hopen hσ))
  | @print _ _ _ _ _ name text o _ _ _ hopen hvalue _ _ ih =>
      have hstraight := hvalue.straight hopen
      have hprinted := hstraight.trans (print_straight hstraight.isOpen o name text)
      rw [← hprinted.same]
      exact ih (hprinted.nested hopen hσ)
  | ret hopen hvalue _ _ =>
      have hstraight := hvalue.straight hopen
      rw [← hstraight.same]
      exact ⟨(hstraight.nested hopen hσ).ret hstraight.isOpen _, .refl⟩
  | @cond _ _ _ _ _ o _ σ₁ σ₂ σ' hopen hvalue _ hbody hrest ihb ih =>
      have hstraight := hvalue.straight hopen
      have hfollows := hbody.follows
      obtain ⟨hthen, hmerge⟩ := branch_opens hstraight.isOpen o
      obtain ⟨hinner, habove⟩ := ihb ((hstraight.nested hopen hσ).branch hstraight.isOpen o)
      have hmerge₂ := hmerge.grow hfollows.blocks
      have habove₂ : Above σ₂.blocks σ₁.current σ₂.current :=
        .head (hthen.grow hfollows.blocks) habove
      obtain ⟨hnested, hafter⟩ := ih (hinner.join hfollows.inRange hmerge₂ habove₂)
      have hgrow := (join_blocks hfollows.inRange (σ₁.blocks.length + 1)).trans hrest.follows.blocks
      rw [← hstraight.same]
      exact ⟨hnested, .head (hmerge₂.grow hgrow) hafter⟩

/-- A body begins without branches. -/
theorem nested_fresh (σ : State) : Nested σ.fresh.blocks := by
  have hnone : ∀ k, terminatorOf? σ.fresh.blocks k = none := by
    intro k
    cases k <;> rfl
  refine ⟨?_, ?_, ?_⟩ <;> simp [hnone, Opens]

end

end IR

end Swiftlet
