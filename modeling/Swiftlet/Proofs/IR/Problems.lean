import Swiftlet.IR.Verify
import Swiftlet.Proofs.IR.Blocks

/-!
# The problems of a module

Of a program that the checker accepts, the module has one kind of problem only: a function that has
to return a value and may run to its end leaves its last block open.

* `Instruction.Fits` and `Terminator.Fits` — a call has arguments for its callee's parameters, a `ret`
  the type of its function. They hold of all code (`LowersBody.fits`).
* `missingReturn?` — the problem of a function without a `return` among its statements.
* `functionProblems_of_code` — a function has that problem or none.

Principal results: `problems_perm` and `lower_problems`.
-/

namespace Swiftlet

namespace IR

open Typing

/-! ## Calls and returns -/

/-- The arguments are a format and a value for `printf`, or they have the types of the last signature
of the callee's name. -/
def CallFits (program : List Node) (fs : List Function) (callee : Nat) (args : List Operand) :
    Prop :=
  (callee = 0 ∧ ∃ format v, args = [format, v] ∧ format.type = .pointer) ∨
    ∃ s, lastSignature? program s.name.lexeme = some s ∧
      numberOf? fs s.name.lexeme = some callee ∧
      args.map Operand.type = s.params.map fun p => (paramOf p).type

def Instruction.Fits (program : List Node) (fs : List Function) : Instruction → Prop
  | .call callee _ args => CallFits program fs callee args
  | _ => True

def Terminator.Fits (ret : Ty) : Terminator → Prop
  | .ret none => ret = .void
  | .ret (some v) => v.type = ret
  | _ => True

/-- The code so far fits the functions so far. -/
def State.Fits (c : Context) (σ : State) : Prop :=
  Everywhere (fun _ i => i.Fits c.program σ.functions) (fun _ t => t.Fits c.ret) σ.blocks

theorem Instruction.Fits.mono {program : List Node} {fs fs' : List Function} {i : Instruction}
    (h : i.Fits program fs)
    (hfs : ∀ x k, numberOf? fs x = some k → numberOf? fs' x = some k) : i.Fits program fs' := by
  cases i with
  | call callee ret args =>
      rcases h with hprintf | ⟨s, hs, hcallee, hargs⟩
      · exact .inl hprintf
      · exact .inr ⟨s, hs, hfs _ _ hcallee, hargs⟩
  | _ => trivial

section

variable {c : Context} {s : Signature} {Γ : Scope} {σ σ' : State}

theorem State.Fits.emit (h : σ.Fits c) (hopen : σ.Open) {i : Instruction}
    (hi : i.Fits c.program σ.functions) : (σ.emit i).2.Fits c :=
  Everywhere.emit h hopen hi

/-- Code goes on fitting when constants and functions are added. -/
theorem State.Fits.added (h : σ.Fits c)
    (hadded : FunctionsAdded c.entry c.program σ.functions σ'.functions)
    (hblocks : σ'.blocks = σ.blocks) : σ'.Fits c := by
  rw [State.Fits, hblocks]
  exact Everywhere.mono h (fun _ _ hi => hi.mono fun _ _ hk => hadded.number hk) fun _ _ ht => ht

theorem State.Fits.constant (h : σ.Fits c) (name content : Bytes) :
    (σ.constant name content).2.Fits c := by
  unfold State.constant
  split <;> exact h

theorem Emits.fits {os : List Operand} (h : Emits c s Γ σ os σ') (hopen : σ.Open)
    (hσ : Declarations c.entry c.program σ.functions) (hfits : σ.Fits c) : σ'.Fits c := by
  induction h with
  | nil => exact hfits
  | literal _ _ ih => exact ih hopen hσ hfits
  | @string v _ σ _ _ ih =>
      have hstring : Straight c σ (σ.stringConstant v).2 := constant_straight hopen _ _
      exact ih hstring.isOpen (hσ.added hstring.functions) (hfits.constant _ _)
  | param _ _ _ ih => exact ih hopen hσ hfits
  | load _ _ _ ih => exact ih (hopen.emit _).1 hσ (hfits.emit hopen trivial)
  | arithmetic _ hvalues _ _ _ ihv ih =>
      have hstraight := hvalues.straight hopen
      exact ih (hstraight.isOpen.emit _).1 (hσ.added hstraight.functions)
        ((ihv hopen hσ hfits).emit hstraight.isOpen trivial)
  | @call callee i args t _ σ σ₁ σ₂ _ hcallee hdeclare hvalues hargs _ _ ihv ih =>
      have hdeclared := declare_straight hopen hcallee hdeclare
      have hσ₁ := hσ.added hdeclared.functions
      have hfits₁ : σ₁.Fits c :=
        hfits.added hdeclared.functions (by rw [(declare_added hcallee hdeclare).1])
      have hstraight := hvalues.straight hdeclared.isOpen
      have hnumber := hstraight.functions.number (declare_number hσ.ne_nil hdeclare)
      have hcall : (Instruction.call i (Ty.of t) args).Fits c.program σ₂.functions :=
        .inr ⟨callee, hcallee, hnumber, hargs⟩
      exact ih (hstraight.isOpen.emit _).1 (hσ₁.added hstraight.functions)
        ((ihv hdeclared.isOpen hσ₁ hfits₁).emit hstraight.isOpen hcall)

theorem State.Fits.print (h : σ.Fits c) (hopen : σ.Open) (v : Operand) (name text : Bytes) :
    (σ.print v name text).Fits c := by
  have hwidened : (σ.widen v).2.Fits c := by
    unfold State.widen
    split
    · exact h.emit hopen trivial
    · exact h
  have hstraight : Straight c σ (σ.widen v).2 := widen_straight hopen
  have hconstant : Straight c _ _ := constant_straight hstraight.isOpen name (text ++ [0])
  exact (hwidened.constant name (text ++ [0])).emit hconstant.isOpen
    (.inl ⟨rfl, _, _, rfl, constant_type _ _ _⟩)

theorem returned_fits {o : Operand} (h : o.type = c.ret) :
    (Terminator.ret (c.returned o)).Fits c.ret := by
  unfold Context.returned
  split
  · rename_i hvoid
    rw [h, or_self] at hvoid
    exact hvoid
  · exact h

/-- **All code of a typed body fits.** -/
theorem LowersBody.fits {ns : List Node} (h : LowersBody c s Γ ns σ σ')
    (hret : ∀ t, s.ret = some t → c.ret = Ty.of t)
    (hσ : Declarations c.entry c.program σ.functions) (hfits : σ.Fits c) : σ'.Fits c := by
  induction h with
  | nil => exact hfits
  | expr hopen _ hvalue _ ih =>
      exact ih (hσ.added (hvalue.straight hopen).functions) (hvalue.fits hopen hσ hfits)
  | @assign _ _ _ _ _ o _ σ₁ _ hopen _ _ hvalue _ _ ih =>
      have hstraight := hvalue.straight hopen
      have hslot : (σ₁.emit (.alloca o.type)).2.Fits c :=
        (hvalue.fits hopen hσ hfits).emit hstraight.isOpen trivial
      exact ih (hσ.added hstraight.functions)
        (Everywhere.emit hslot (hstraight.isOpen.emit _).1 trivial)
  | @print _ _ _ _ _ name text o _ _ _ hopen hvalue _ _ ih =>
      have hstraight := hvalue.straight hopen
      have hprinted := hstraight.trans (print_straight hstraight.isOpen o name text)
      exact ih (hσ.added hprinted.functions)
        ((hvalue.fits hopen hσ hfits).print hstraight.isOpen o name text)
  | ret hopen hvalue htype ht =>
      have hstraight := hvalue.straight hopen
      exact Everywhere.terminate (hvalue.fits hopen hσ hfits) hstraight.isOpen.lt
        (returned_fits (htype.trans (hret _ ht).symm))
  | @cond _ _ _ _ _ o _ σ₁ σ₂ _ hopen hvalue _ hbody _ ihb ih =>
      have hstraight := hvalue.straight hopen
      have hσ₁ := hσ.added hstraight.functions
      have hinner := ihb hσ₁
        (Everywhere.branch (hvalue.fits hopen hσ hfits) hstraight.isOpen.lt trivial)
      have hjoin := join_shared σ₂ (σ₁.blocks.length + 1)
      refine ih ?_ ?_
      · rw [hjoin.2.1]
        exact hσ₁.added hbody.follows.functions
      · rw [State.Fits, hjoin.2.1]
        exact Everywhere.join hinner hbody.follows.inRange fun _ => trivial

end

/-! ## What is wrong with a function -/

theorem argumentProblems_eq_nil (start : Bytes) {params : List Param} {args : List Operand}
    (i : Nat) (h : args.map Operand.type = params.map Param.type) :
    argumentProblems start i params args = [] := by
  induction params generalizing args i with
  | nil => rfl
  | cons p params ih =>
      cases args with
      | nil => cases h
      | cons a args =>
          simp only [List.map_cons, List.cons.injEq] at h
          rw [argumentProblems, if_pos h.1, List.nil_append, ih _ h.2]

/-- Nothing is wrong with a call that fits. -/
theorem Instruction.Fits.problems {entry : Bytes} {program : List Node} {m : Module}
    (hlow : Emittable entry program) (hm : Declarations entry program m.functions) {i : Instruction}
    (hi : i.Fits program m.functions) (f : Function) (b : Nat) :
    instructionProblems m f b i = [] := by
  cases i with
  | call callee ret args =>
      rcases hi with ⟨rfl, format, v, rfl, hformat⟩ | ⟨s, hs, hcallee, hargs⟩
      · simp only [instructionProblems, hm.printf, callProblems, printf]
        simp [argumentProblems, hformat]
      · obtain ⟨hpos, ⟨g, hg, hname⟩, -⟩ := numberOf?_eq_some_iff.1 hcallee
        obtain ⟨t, ht⟩ := Option.isSome_iff_exists.1
          (hlow.signatures.of_isLastItem (lastSignature?_eq_some_iff.1 hs)).2.1
        have hparams := (hlow.declared (hm.declared _ _ hpos hg) (hname ▸ hs) ht).1
        have htypes : args.map Operand.type = g.params.map Param.type := by
          rw [hargs, hparams, List.map_map]
          rfl
        have hlength : args.length = g.params.length := by
          simpa using congrArg List.length htypes
        simp only [instructionProblems, hg, callProblems, hm.arity _ _ hpos hg, Bool.false_eq_true,
          if_false, hlength, ne_eq, not_true_eq_false]
        exact argumentProblems_eq_nil _ _ htypes
  | _ => rfl

/-- Nothing is wrong with code that fits, but a block may lack its terminator. -/
theorem blockProblems_of_fits {entry : Bytes} {program : List Node} {m : Module}
    (hlow : Emittable entry program) (hm : Declarations entry program m.functions) (f : Function)
    (k : Nat) {b : Block} (hinstructions : ∀ i ∈ b.instructions, i.Fits program m.functions)
    (hterminator : ∀ t, b.terminator = some t → t.Fits f.ret) :
    blockProblems m f k b =
      if b.terminator.isSome then [] else [placeText f.name k ++ utf8 "missing terminator"] := by
  have hnone : b.instructions.flatMap (instructionProblems m f k) = [] :=
    List.flatMap_eq_nil_iff.2 fun i hi => (hinstructions i hi).problems hlow hm f k
  rw [blockProblems, hnone, List.append_nil]
  cases ht : b.terminator with
  | none => rfl
  | some t =>
      have hfits := hterminator t ht
      match t with
      | .ret none => exact if_pos hfits
      | .ret (some v) => exact if_pos hfits
      | .br _ | .condBr .. => rfl

theorem blocksProblems_eq_nil (m : Module) (f : Function) {bs : List Block} {first : Nat}
    (h : ∀ j b, bs[j]? = some b → blockProblems m f (first + j) b = []) :
    blocksProblems m f first bs = [] := by
  induction bs generalizing first with
  | nil => rfl
  | cons b bs ih =>
      have hb : blockProblems m f first b = [] := h 0 b rfl
      rw [blocksProblems, hb, List.nil_append]
      refine ih fun j b' hj => ?_
      rw [Nat.add_right_comm]
      exact h (j + 1) b' hj

/-- If there is nothing wrong with the other blocks, then only with this one. -/
theorem blocksProblems_of_others (m : Module) (f : Function) {bs : List Block} {k : Nat} {b : Block}
    (hb : bs[k]? = some b) {first : Nat}
    (hothers : ∀ j b', j ≠ k → bs[j]? = some b' → blockProblems m f (first + j) b' = []) :
    blocksProblems m f first bs = blockProblems m f (first + k) b := by
  induction bs generalizing k first with
  | nil => cases hb
  | cons b' bs ih =>
      have hshift : ∀ j b'', j + 1 ≠ k → bs[j]? = some b'' →
          blockProblems m f (first + 1 + j) b'' = [] := by
        intro j b'' hne hj
        rw [Nat.add_right_comm]
        exact hothers (j + 1) b'' hne hj
      rw [blocksProblems]
      cases k with
      | zero =>
          cases hb
          rw [blocksProblems_eq_nil m f fun j b' hj => hshift j b' (by omega) hj, List.append_nil]
          rfl
      | succ k =>
          have hb' : blockProblems m f first b' = [] := hothers 0 b' (by omega) rfl
          rw [hb', List.nil_append, ih hb fun j b'' hne hj => hshift j b'' (by omega) hj,
            Nat.add_right_comm]
          rfl

/-- The block in which a body without `return` ends: the one in which the code goes on after its last
`if`, or else the first. -/
def lastBlock (body : List Node) : Nat := (lastMerge? 1 body).getD 0

/-- The problem of a function that returns a value and has no `return` among its statements. -/
def missingReturn? : Node → Option Bytes
  | .func s body =>
    if s.ret = some .void ∨ body.any Node.isReturn then none
    else some (placeText s.name.lexeme (lastBlock body) ++ utf8 "missing terminator")
  | _ => none

section

variable {entry : Bytes} {program : List Node} {m : Module} {s : Signature} {body : List Node}
  {i : Nat} {f : Function} {σ₀ σ₁ : State}

/-- Of the blocks of a function only the one in which its body ends may be open. -/
theorem BodyCode.ended (h : BodyCode entry program m.shared s body i f σ₀ σ₁)
    (hlow : Emittable entry program) (hm : Declarations entry program m.functions)
    (hmem : .func s body ∈ program) {k : Nat} (hk : k < f.blocks.length) (hne : k ≠ σ₁.current) :
    (terminatorOf? f.blocks k).isSome := by
  obtain ⟨hlowers, -⟩ := h.lowers hlow hm hmem
  have hlt := hlowers.follows.inRange
  rw [h.blocks] at hk ⊢
  rw [State.finish_length] at hk
  have hended : σ₁.Ended k := by
    cases k with
    | zero => exact hlowers.closes.before (Ne.symm hne)
    | succ k => exact hlowers.closes.between (k + 1) (Nat.le_add_left 1 k) hk hne
  exact hended.grow (State.finish_blocks hlt _)

theorem BodyCode.fits (h : BodyCode entry program m.shared s body i f σ₀ σ₁)
    (hlow : Emittable entry program) (hm : Declarations entry program m.functions)
    (hmem : .func s body ∈ program) :
    Everywhere (fun _ i => i.Fits program m.functions) (fun _ t => t.Fits f.ret) f.blocks := by
  obtain ⟨hlowers, -, t, ht, hret⟩ := h.lowers hlow hm hmem
  have hfits : σ₁.Fits ⟨entry, program, f.ret, paramOperands f⟩ := by
    refine hlowers.fits (fun t' ht' => ?_) h.declarations everywhere_fresh
    rw [ht, Option.some.injEq] at ht'
    rw [← ht', hret]
  have hlater : Everywhere (fun _ i => i.Fits program m.functions) (fun _ t => t.Fits f.ret)
      σ₁.blocks := hfits.mono (fun _ _ hi => hi.mono h.later.numbers) fun _ _ ht => ht
  have hlt := hlowers.follows.inRange
  rw [h.blocks]
  refine finish_blocks_of hlater hlt fun hvoid _ => hlater.terminate hlt ?_
  rw [hlow.isVoid_eq hmem, decide_eq_true_iff, ht, Option.some.injEq] at hvoid
  show f.ret = .void
  rw [hret, hvoid]
  rfl

/-- That one has ended exactly if the function is Void or has a `return` among its statements. -/
theorem BodyCode.ended_current_iff (h : BodyCode entry program m.shared s body i f σ₀ σ₁)
    (hlow : Emittable entry program) (hm : Declarations entry program m.functions)
    (hmem : .func s body ∈ program) :
    (terminatorOf? f.blocks σ₁.current).isSome ↔
      s.ret = some .void ∨ body.any Node.isReturn = true := by
  obtain ⟨hlowers, -⟩ := h.lowers hlow hm hmem
  rw [h.blocks, ← hlowers.follows.isTerminated]
  refine (ended_finish_iff hlowers.follows.inRange _).trans ?_
  rw [hlow.isVoid_eq hmem, decide_eq_true_iff]

/-- Nothing is wrong with a block of a function but that it may not have ended. -/
theorem BodyCode.blockProblems_eq (h : BodyCode entry program m.shared s body i f σ₀ σ₁)
    (hlow : Emittable entry program) (hm : Declarations entry program m.functions)
    (hmem : .func s body ∈ program) {k : Nat} {b : Block} (hb : f.blocks[k]? = some b) :
    blockProblems m f k b =
      if (terminatorOf? f.blocks k).isSome then []
      else [placeText f.name k ++ utf8 "missing terminator"] := by
  have hfits := h.fits hlow hm hmem
  rw [blockProblems_of_fits hlow hm f k, terminatorOf?, hb, Option.bind_some]
  · intro i hi
    obtain ⟨j, hj⟩ := List.mem_iff_getElem?.1 hi
    exact hfits.instructions ⟨k, j⟩ i (by rw [instructionAt?, hb, Option.bind_some, hj])
  · intro t ht
    exact hfits.terminators k t (by rw [terminatorOf?, hb, Option.bind_some, ht])

/-- **A function that returns a value and has no `return` among its statements lacks the terminator
of the block in which its body ends**, and nothing else is wrong with any function. -/
theorem functionProblems_of_code (h : BodyCode entry program m.shared s body i f σ₀ σ₁)
    (hlow : Emittable entry program) (hm : Declarations entry program m.functions)
    (hmem : .func s body ∈ program) :
    functionProblems m f = (missingReturn? (.func s body)).toList := by
  obtain ⟨hlowers, -⟩ := h.lowers hlow hm hmem
  have hlast : σ₁.current < f.blocks.length := by
    rw [h.blocks, State.finish_length]
    exact hlowers.follows.inRange
  have hb := List.getElem?_eq_getElem hlast
  have hothers : ∀ j b, j ≠ σ₁.current → f.blocks[j]? = some b →
      blockProblems m f (0 + j) b = [] := by
    intro j b hne hj
    rw [Nat.zero_add, h.blockProblems_eq hlow hm hmem hj, if_pos]
    exact h.ended hlow hm hmem (List.getElem?_eq_some_iff.1 hj).1 hne
  have hiff := h.ended_current_iff hlow hm hmem
  rw [functionProblems, if_neg h.blocks_ne_nil, blocksProblems_of_others m f hb hothers,
    Nat.zero_add, h.blockProblems_eq hlow hm hmem hb, h.name_eq]
  by_cases hended : s.ret = some .void ∨ body.any Node.isReturn = true
  · rw [if_pos (hiff.2 hended), missingReturn?, if_pos hended]
    rfl
  · have hcurrent : σ₁.current = lastBlock body :=
      hlowers.counts.2 (by simpa using (not_or.1 hended).2)
    rw [if_neg (hiff.not.2 hended), missingReturn?, if_neg hended, hcurrent]
    rfl

end

/-! ## What is wrong with a module -/

/-- What is chosen of the elements of a list, by their keys. -/
def chosen {α γ : Type} (key : α → Bytes) (g : α → Option γ) (l : List α) : List (Bytes × γ) :=
  l.filterMap fun a => (g a).map (key a, ·)

theorem chosen_nodup {α γ : Type} {key : α → Bytes} (g : α → Option γ) {l : List α}
    (h : (l.map key).Nodup) : (chosen key g l).Nodup := by
  refine .of_map Prod.fst (h.sublist ?_)
  rw [chosen, List.map_filterMap, ← List.filterMap_eq_map]
  induction l with
  | nil => exact .slnil
  | cons a l ih =>
      have ih := ih (List.nodup_cons.1 h).2
      cases hg : g a with
      | none => simpa [hg] using ih.cons _
      | some y => simpa [hg] using ih

/-- Lists with different keys in which the same is chosen by the same keys. -/
theorem filterMap_perm_of_keys {α β γ : Type} {as : List α} {bs : List β} {ka : α → Bytes}
    {kb : β → Bytes} {ga : α → Option γ} {gb : β → Option γ} (has : (as.map ka).Nodup)
    (hbs : (bs.map kb).Nodup)
    (h : ∀ x y, (∃ a ∈ as, ka a = x ∧ ga a = some y) ↔ ∃ b ∈ bs, kb b = x ∧ gb b = some y) :
    (as.filterMap ga).Perm (bs.filterMap gb) := by
  have hperm : (chosen ka ga as).Perm (chosen kb gb bs) := by
    rw [List.perm_ext_iff_of_nodup (chosen_nodup ga has) (chosen_nodup gb hbs)]
    rintro ⟨x, y⟩
    simpa [chosen, and_comm] using h x y
  have hsnd := hperm.map Prod.snd
  simpa [chosen, List.map_filterMap, Function.comp_def] using hsnd

section

variable {entry : Bytes} {program : List Node}

/-- The name of an item. -/
def itemName (n : Node) : Bytes := (n.signature?.map (·.name.lexeme)).getD []

theorem Emittable.itemNames_nodup (h : Emittable entry program) :
    (program.map itemName).Nodup := by
  have hnames : (program.filterMap Node.signature?).map (·.name.lexeme) = program.map itemName := by
    rw [List.map_filterMap, List.filterMap_eq_map_iff_forall_eq_some]
    intro n hn
    obtain ⟨s, hs⟩ := Option.isSome_iff_exists.1 (h.items n hn)
    simp [itemName, hs]
  exact hnames ▸ h.distinct

/-- A function of a module has one problem at most, and only if it has a body. -/
theorem functionProblems_cases (hlow : Emittable entry program) {m : Module}
    (hm : Declarations entry program m.functions) (hcoded : Coded entry program program m.shared)
    {i : Nat} {f : Function} (hi : 0 < i) (hf : m.functions[i]? = some f) :
    functionProblems m f = [] ∨ ∃ s body, .func s body ∈ program ∧ f.name = s.name.lexeme ∧
      functionProblems m f = (missingReturn? (.func s body)).toList := by
  rcases hcoded i f hi hf with hdecl | ⟨s, body, σ₀, σ₁, hmem, hbody⟩
  · left
    simp [functionProblems, hdecl.blocks, hdecl.hidden]
  · exact .inr ⟨s, body, hmem, hbody.name_eq, functionProblems_of_code hbody hlow hm hmem⟩

/-- **The problems of a module are the missing returns.** -/
theorem problems_perm (hlow : Emittable entry program) {sourceName : Bytes} {m : Module}
    (h : lower entry sourceName program = .ok m) :
    m.problems.Perm (program.filterMap missingReturn?) := by
  have hm := (lower_declarations h).1
  obtain ⟨hcoded, hcode⟩ := lower_code hlow.distinct h
  obtain ⟨fs, hfs⟩ := hm.eq_cons
  have hget : ∀ j : Nat, m.functions[j + 1]? = fs[j]? := fun j => by rw [hfs]; rfl
  have hproblems : ∀ f ∈ fs, functionProblems m f = [] ∨ ∃ s body, .func s body ∈ program ∧
      f.name = s.name.lexeme ∧ functionProblems m f = (missingReturn? (.func s body)).toList := by
    intro f hf
    obtain ⟨j, hj⟩ := List.mem_iff_getElem?.1 hf
    exact functionProblems_cases hlow hm hcoded (Nat.succ_pos j) ((hget j).trans hj)
  have hflat : m.problems = fs.filterMap fun f => (functionProblems m f).head? := by
    rw [Module.problems, hfs, List.flatMap_cons, List.filterMap_eq_flatMap_toList,
      show functionProblems m printf = [] from rfl, List.nil_append]
    refine List.flatMap_congr fun f hf => ?_
    rcases hproblems f hf with hnone | ⟨s, body, -, -, heq⟩
    · rw [hnone]
      rfl
    · rw [heq]
      cases missingReturn? (.func s body) <;> rfl
  have hnames : (fs.map (·.name)).Nodup := by
    have hdistinct := hm.distinct
    rwa [functionNames, hfs] at hdistinct
  rw [hflat]
  refine filterMap_perm_of_keys hnames hlow.itemNames_nodup fun x y => ⟨?_, ?_⟩
  · rintro ⟨f, hf, rfl, hy⟩
    rcases hproblems f hf with hnone | ⟨s, body, hmem, hname, heq⟩
    · rw [hnone] at hy
      cases hy
    · rw [heq] at hy
      exact ⟨_, hmem, hname.symm, by simpa using hy⟩
  · rintro ⟨n, hn, rfl, hy⟩
    cases n with
    | func s body =>
        obtain ⟨i, f, σ₀, σ₁, hbody⟩ := hcode s body hn
        obtain ⟨j, rfl⟩ : ∃ j, i = j + 1 :=
          ⟨i - 1, by have := (numberOf?_eq_some_iff.1 hbody.number).1; omega⟩
        have hf : f ∈ fs := List.mem_of_getElem? ((hget j).symm.trans hbody.function)
        refine ⟨f, hf, hbody.name_eq, ?_⟩
        rw [functionProblems_of_code hbody hlow hm hn, hy]
        rfl
    | _ => cases hy

end

/-- **Lowering never fails on a program that the checker accepts, and what is wrong with its module
are the missing returns**: one problem for each function that returns a value and has no `return`
among its statements, and no other. In particular there is none exactly if every function that returns
a value has one.

The tokens are those that the lexer gives (`Lexing.isScanned_of_lex`). -/
theorem lower_problems {tokens : List Token} (htokens : ∀ t ∈ tokens, t.IsScanned) {entry : Bytes}
    {program tree : List Node} (hparse : Parsing.parse tokens = .ok program)
    (hanalyze : analyze entry program = .ok tree) (hdistinct : DistinctNames program)
    (sourceName : Bytes) :
    ∃ m, lower entry sourceName tree = .ok m ∧ m.problems.Perm (tree.filterMap missingReturn?) ∧
      (m.problems = [] ↔ ∀ s body, .func s body ∈ tree → s.ret ≠ some .void →
        body.any Node.isReturn = true) := by
  have hlow := Emittable.of_analyze htokens hparse hanalyze hdistinct
  obtain ⟨m, hlower, -⟩ := lower_ok hlow sourceName
  have hperm := problems_perm hlow hlower
  refine ⟨m, hlower, hperm, ?_⟩
  rw [← List.length_eq_zero_iff, hperm.length_eq, List.length_eq_zero_iff,
    List.filterMap_eq_nil_iff]
  constructor
  · intro hnone s body hmem hret
    simpa [missingReturn?, hret] using hnone _ hmem
  · intro hall n hn
    cases n with
    | func s body =>
        rw [missingReturn?, if_pos]
        exact or_iff_not_imp_left.2 (hall s body hn)
    | _ => rfl

open Parsing (spelled named fixed)

/-- A program with a function that may run to its end, behind an `if` in an `if` and another `if`:
```
func main() { print(pick(true, 3)) }
func pick(a: Bool, n: Int) -> Int { if a { if a { return n } print(n) } if a { return 1 } }
```
-/
def pickTokens : List Token :=
  spelled ["func", "main", "(", ")", "\x7b", "print", "(", "pick", "(", "true", ",", "3", ")", ")",
    "\x7d", "func", "pick", "(", "a", ":", "Bool", ",", "n", ":", "Int", ")", "->", "Int", "\x7b",
    "if", "a", "\x7b", "if", "a", "\x7b", "return", "n", "\x7d", "print", "(", "n", ")", "\x7d",
    "if", "a", "\x7b", "return", "1", "\x7d", "\x7d"]

/-- The tree of `pickTokens`. -/
def pick : List Node :=
  [.func ⟨named "main", [], some .void⟩
      [.print (fixed (.keyword .printing))
        [.call (named "pick")
          [.bool (fixed (.bool true)) true, .int ⟨.int, utf8 "3", Pos.start⟩ 3]]],
    .func ⟨named "pick", [⟨false, named "a", some .bool⟩, ⟨false, named "n", some .int⟩], some .int⟩
      [.cond (fixed (.keyword .ifBranch)) (.ref (named "a"))
          [.cond (fixed (.keyword .ifBranch)) (.ref (named "a"))
              [.ret (fixed (.keyword .returning)) (.ref (named "n"))],
            .print (fixed (.keyword .printing)) [.ref (named "n")]],
        .cond (fixed (.keyword .ifBranch)) (.ref (named "a"))
          [.ret (fixed (.keyword .returning)) (.int ⟨.int, utf8 "1", Pos.start⟩ 1)]]]

/-- The first `if` takes the blocks 1 and 2 and the one inside it 3 and 4, so the code after the last
one is in block 6. -/
theorem lower_problems_pick :
    (∀ t ∈ pickTokens, t.IsScanned) ∧
      Parsing.parse pickTokens = .ok pick ∧
      analyze defaultEntry pick = .ok pick ∧
      DistinctNames pick ∧
      ∃ m, lower defaultEntry [] pick = .ok m ∧
        m.problems.Perm [utf8 "func pick, block 6: missing terminator"] ∧
        (m.problems = [] ↔ ∀ s body, .func s body ∈ pick → s.ret ≠ some .void →
          body.any Node.isReturn = true) := by
  have htokens : ∀ t ∈ pickTokens, t.IsScanned := Parsing.isScanned_of_spelled _
  have hparse : Parsing.parse pickTokens = .ok pick := by rfl
  have hanalyze : analyze defaultEntry pick = .ok pick := by rfl
  have hdistinct : DistinctNames pick := by decide
  have hmissing : pick.filterMap missingReturn? =
      [utf8 "func pick, block 6: missing terminator"] := by rfl
  have hproblems := lower_problems htokens hparse hanalyze hdistinct []
  rw [hmissing] at hproblems
  exact ⟨htokens, hparse, hanalyze, hdistinct, hproblems⟩

end IR

end Swiftlet
