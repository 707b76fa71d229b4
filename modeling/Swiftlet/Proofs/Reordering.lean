import Swiftlet.Proofs.Run.Visits
import Swiftlet.Proofs.Typing.Complete
import Swiftlet.Proofs.Typing.Repeated

/-!
# The order of the items

The checker and a run find a function by its name, the one from the end of the program and the other
from its beginning. Where every name has one item, both find the same item wherever it stands. So the
items behind the entry function can be written in any order.

* `Reordered` — the same first item, and the others in another order.
* `filled` — what the checker makes of an item; it depends on the item and on the signatures of the
  program only.
* `ItemPasses` — what the checker asks of an item.

Principal results: `lastSignature?_perm`, `findFunction?_perm`, `analyze_eq_ok_iff_items`, `run_congr` and
`analyze_reordered`.
-/

namespace Swiftlet

open Typing

/-! ## Names -/

/-- The entry function stays in front, and the others come in any order. -/
structure Reordered (program program' : List Node) : Prop where
  first : program'.head? = program.head?
  others : program'.tail.Perm program.tail

section

variable {program program' : List Node}

theorem Reordered.symm (h : Reordered program program') : Reordered program' program :=
  ⟨h.first.symm, h.others.symm⟩

theorem Reordered.perm (h : Reordered program program') : program'.Perm program := by
  obtain ⟨hfirst, hothers⟩ := h
  cases program with
  | nil =>
      cases program' with
      | nil => exact .nil
      | cons n' ns' => cases hfirst
  | cons n ns =>
      cases program' with
      | nil => cases hfirst
      | cons n' ns' =>
          cases hfirst
          exact hothers.cons n

theorem DistinctNames.perm (h : DistinctNames program) (hperm : program'.Perm program) :
    DistinctNames program' :=
  ((hperm.filterMap Node.signature?).map _).nodup_iff.2 h

theorem findFunction?_eq_some_iff_mem (h : DistinctNames program) {x : Bytes} {s : Signature}
    {body : List Node} :
    findFunction? program x = some (s, body) ↔ .func s body ∈ program ∧ s.name.lexeme = x := by
  refine ⟨mem_of_findFunction?, fun ⟨hmem, hname⟩ => ?_⟩
  obtain ⟨s', body', hfound⟩ := HasBody.findFunction?_eq ⟨s, body, hmem, hname⟩
  obtain ⟨hmem', hname'⟩ := mem_of_findFunction? hfound
  cases h.item_unique hmem hmem' rfl rfl (hname.trans hname'.symm)
  exact hfound

/-- **Both ways to look a name up are independent of the order.** -/
theorem lastSignature?_perm (h : DistinctNames program) (hperm : program'.Perm program) :
    lastSignature? program' = lastSignature? program := by
  funext x
  apply Option.ext
  intro s
  rw [lastSignature?_eq_some_iff_mem h, lastSignature?_eq_some_iff_mem (h.perm hperm)]
  simp only [hperm.mem_iff]

theorem findFunction?_perm (h : DistinctNames program) (hperm : program'.Perm program) :
    findFunction? program' = findFunction? program := by
  funext x
  apply Option.ext
  rintro ⟨s, body⟩
  rw [findFunction?_eq_some_iff_mem h, findFunction?_eq_some_iff_mem (h.perm hperm), hperm.mem_iff]

end

namespace Typing

/-! ## Item by item -/

section

variable {program program' tree tree' : List Node} {entry : Bytes}

/-- What the checker makes of an item. -/
def filled (program : List Node) (n : Node) : Node := (checkItem program n).tree

/-- An item that the checker accepts. -/
structure ItemPasses (program : List Node) (n : Node) : Prop where
  collect : collectItem n = .ok ()
  check : ∃ d, checkItem program n = .ok d
  typed : ∀ d ∈ definedNames [filled program n], d.type ≠ none

theorem definedNames_map (f : Node → Node) (ns : List Node) :
    definedNames (ns.map f) = ns.flatMap fun n => definedNames [f n] := by
  rw [definedNames, List.flatMap_map]
  simp only [definedNames, List.flatMap_singleton]

theorem checkItems_eq_ok_iff_filled {ns : List Node} :
    (∃ d, checkItems program ns = .ok d ∧ d.tree = tree) ↔
      (∀ n ∈ ns, ∃ d, checkItem program n = .ok d) ∧ tree = ns.map (filled program) := by
  rw [checkItems_eq_ok_iff]
  constructor
  · intro h
    induction h with
    | nil => exact ⟨by simp, rfl⟩
    | cons hn _ ih =>
        obtain ⟨d, hd, rfl⟩ := hn
        obtain ⟨hrest, rfl⟩ := ih
        refine ⟨List.forall_mem_cons.2 ⟨⟨d, hd⟩, hrest⟩, ?_⟩
        rw [List.map_cons, filled, hd]
        rfl
  · rintro ⟨h, rfl⟩
    induction ns with
    | nil => exact .nil
    | cons n ns ih =>
        obtain ⟨⟨d, hd⟩, hrest⟩ := List.forall_mem_cons.1 h
        refine .cons ⟨d, hd, ?_⟩ (ih hrest)
        rw [filled, hd]
        rfl

/-- **A program is accepted if its entry function is in order and every item is accepted.** -/
theorem analyze_eq_ok_iff_items :
    analyze entry program = .ok tree ↔ checkEntry entry program = .ok () ∧
      (∀ n ∈ program, ItemPasses program n) ∧ tree = program.map (filled program) := by
  have htyped : (definedNames (program.map (filled program))).find? (·.type.isNone) = none ↔
      ∀ n ∈ program, ∀ d ∈ definedNames [filled program n], d.type ≠ none := by
    rw [List.find?_eq_none, definedNames_map]
    simp only [List.mem_flatMap, Option.isNone_iff_eq_none]
    exact ⟨fun h n hn d hd => h d ⟨n, hn, hd⟩, fun h d ⟨n, hn, hd⟩ => h n hn d hd⟩
  constructor
  · intro h
    unfold analyze at h
    split at h
    · cases h
    rename_i hentry
    split at h
    · cases h
    rename_i hcollect
    split at h
    · cases h
    rename_i d hd
    split at h
    · cases h
    rename_i hnone
    cases h
    obtain ⟨hcheck, htree⟩ := checkItems_eq_ok_iff_filled.1 ⟨d, hd, rfl⟩
    rw [collectItems_eq_ok_iff] at hcollect
    rw [htree, htyped] at hnone
    exact ⟨hentry, fun n hn => ⟨hcollect n hn, hcheck n hn, hnone n hn⟩, htree⟩
  · rintro ⟨hentry, hitems, rfl⟩
    have hcollect : collectItems program = .ok () :=
      collectItems_eq_ok_iff.2 fun n hn => (hitems n hn).collect
    obtain ⟨d, hd, htree⟩ :=
      checkItems_eq_ok_iff_filled.2 ⟨fun n hn => (hitems n hn).check, rfl⟩
    have hnone := htyped.2 fun n hn => (hitems n hn).typed
    simp only [analyze, hentry, hcollect, hd, htree, hnone]

/-! ## Another order -/

theorem filled_congr (heq : lastSignature? program' = lastSignature? program) :
    filled program' = filled program := by
  funext n
  rw [filled, filled, checkItem_congr heq]

theorem ItemPasses.congr (heq : lastSignature? program' = lastSignature? program) {n : Node}
    (h : ItemPasses program n) : ItemPasses program' n := by
  refine ⟨h.collect, ?_, ?_⟩
  · rw [checkItem_congr heq]
    exact h.check
  · rw [filled_congr heq]
    exact h.typed

theorem signature?_filled (n : Node) : (filled program n).signature? = n.signature? := by
  cases n with
  | func s body =>
      rw [filled, checkItem]
      cases checkBody _ [] body <;> rfl
  | _ => rfl

theorem distinctNames_filled (h : DistinctNames program) :
    DistinctNames (program.map (filled program)) :=
  h.congr (filterMap_signature?_congr (by simp [signature?_filled]))

/-- The entry function is looked for in front, and behind it only that there is no other. -/
theorem EntryFirst.reordered (h : EntryFirst entry program) (hreordered : Reordered program program') :
    EntryFirst entry program' := by
  obtain ⟨s, body, rest, rfl, hname, hparams, hret, honly⟩ := h
  obtain ⟨hfirst, hothers⟩ := hreordered
  cases program' with
  | nil => cases hfirst
  | cons n' rest' =>
      cases hfirst
      exact ⟨s, body, rest', rfl, hname, hparams, hret,
        fun s' body' hmem => honly s' body' (hothers.mem_iff.1 hmem)⟩

/-- In another order, an accepted program is accepted, and every item is filled in as before. -/
theorem analyze_eq_ok_of_reordered (hdistinct : DistinctNames program)
    (hreordered : Reordered program program') (h : analyze entry program = .ok tree) :
    analyze entry program' = .ok (program'.map (filled program)) := by
  obtain ⟨hentry, hitems, -⟩ := analyze_eq_ok_iff_items.1 h
  have heq := lastSignature?_perm hdistinct hreordered.perm
  rw [analyze_eq_ok_iff_items, filled_congr heq]
  refine ⟨?_, fun n hn => (hitems n (hreordered.perm.mem_iff.1 hn)).congr heq, rfl⟩
  rw [checkEntry_eq_ok_iff] at hentry ⊢
  exact hentry.reordered hreordered

end

end Typing

namespace Run

/-! ## Runs -/

section

variable {program program' : List Node} {enter : Enter}

mutual

/-- A run looks at the program only for the functions that are called. -/
theorem eval_congr (heq : findFunction? program' = findFunction? program) (args : List Argument) :
    ∀ n : Node, eval program' enter args n = eval program enter args n
  | .int .. | .float .. | .bool .. | .string .. | .decl .. | .signature .. | .func .. | .print _ []
  | .ref _ => by
    funext m
    simp only [eval]
  | .assign _ v | .ret _ v | .print _ (v :: _) => by
    funext m
    simp only [eval, eval_congr heq args v]
  | .binary l op r => by
    funext m
    simp only [eval, eval_congr heq args l, eval_congr heq args r]
  | .call name actuals => by
    funext m
    simp only [eval, heq, suspend_congr heq args actuals]
  | .cond t c body => by
    funext m
    simp only [eval, eval_congr heq args c, runBody_congr heq args body]
termination_by n => sizeOf n

theorem suspend_congr (heq : findFunction? program' = findFunction? program) (args : List Argument) :
    ∀ ns : List Node, suspend program' enter args ns = suspend program enter args ns
  | [] => rfl
  | n :: rest => by simp only [suspend, eval_congr heq args n, suspend_congr heq args rest]
termination_by ns => sizeOf ns

theorem runBody_congr (heq : findFunction? program' = findFunction? program) (args : List Argument) :
    ∀ ns : List Node, runBody program' enter args ns = runBody program enter args ns
  | [] => by
    funext m
    simp only [runBody]
  | n :: rest => by
    -- An `if` hands on whether it returned, so as a statement it is more than its value.
    have hsingle : runBody program' enter args [n] = runBody program enter args [n] := by
      funext m
      by_cases hn : ∃ t c body, n = .cond t c body
      · obtain ⟨t, c, body, rfl⟩ := hn
        rw [runBody_cond, runBody_cond, eval_congr heq args c, runBody_congr heq args body]
      · have hne : ∀ t c body, n ≠ .cond t c body := fun t c body h => hn ⟨t, c, body, h⟩
        rw [runBody_single _ _ _ _ _ hne, runBody_single _ _ _ _ _ hne, eval_congr heq args n]
    funext m
    rw [runBody_cons, hsingle, runBody_congr heq args rest, ← runBody_cons]
termination_by ns => sizeOf ns

end

theorem enter_congr (heq : findFunction? program' = findFunction? program) (depth : Nat) :
    Run.enter program' depth = Run.enter program depth := by
  induction depth with
  | zero => rfl
  | succ depth ih =>
      funext s body args m
      simp only [Run.enter, ih, runBody_congr heq]

theorem run_congr (heq : findFunction? program' = findFunction? program) (entry : Bytes) (sink : Sink) :
    run entry program' sink = run entry program sink := by
  simp only [run, heq, enter_congr heq, runBody_congr heq]

end

end Run

/-- **The order of the items behind the entry function does not matter.** If no two items have the same
name, both orders are accepted or neither. Every item is filled in with the same types in both, and a run
gives the same result, output and log. -/
theorem analyze_reordered {program program' : List Node} (hdistinct : DistinctNames program)
    (hreordered : Reordered program program') (entry : Bytes) :
    ((∃ tree, analyze entry program = .ok tree) ↔ ∃ tree', analyze entry program' = .ok tree') ∧
      ∀ tree tree', analyze entry program = .ok tree → analyze entry program' = .ok tree' →
        (∃ fill : Node → Node, tree = program.map fill ∧ tree' = program'.map fill) ∧
          ∀ start sink, Run.run start tree' sink = Run.run start tree sink := by
  refine ⟨⟨fun ⟨tree, h⟩ => ⟨_, analyze_eq_ok_of_reordered hdistinct hreordered h⟩,
    fun ⟨tree', h'⟩ => ⟨_, analyze_eq_ok_of_reordered (hdistinct.perm hreordered.perm)
      hreordered.symm h'⟩⟩, fun tree tree' h h' => ?_⟩
  obtain ⟨-, -, rfl⟩ := analyze_eq_ok_iff_items.1 h
  cases h'.symm.trans (analyze_eq_ok_of_reordered hdistinct hreordered h)
  refine ⟨⟨filled program, rfl, rfl⟩, fun start sink => Run.run_congr ?_ start sink⟩
  exact findFunction?_perm (distinctNames_filled hdistinct) (hreordered.perm.map _)

namespace Parsing

/-- `func main() { let a = twice(4); print(a) }`, with the type of its binding. -/
def printTwice (a : Option Ty) : Node :=
  .func ⟨named "main", [], some .void⟩
    [.assign ⟨false, named "a", a⟩ (.call (named "twice") [.int ⟨.int, utf8 "4", Pos.start⟩ 4]),
      .print (fixed (.keyword .printing)) [.ref (named "a")]]

/-- `func twice(n: Int) -> Int { let m = add(n, n); return m }`, with the type of its binding. -/
def twice (m : Option Ty) : Node :=
  .func ⟨named "twice", [⟨false, named "n", some .int⟩], some .int⟩
    [.assign ⟨false, named "m", m⟩ (.call (named "add") [.ref (named "n"), .ref (named "n")]),
      .ret (fixed (.keyword .returning)) (.ref (named "m"))]

/-- `func add(a: Int, b: Int) -> Int { return a + b }`. -/
def add : Node :=
  .func ⟨named "add", [⟨false, named "a", some .int⟩, ⟨false, named "b", some .int⟩], some .int⟩
    [.ret (fixed (.keyword .returning))
      (.binary (.ref (named "a")) (fixed (.operator .plus)) (.ref (named "b")))]

end Parsing

open Parsing in
/-- A function that stands before the one it calls, and behind it. -/
theorem analyze_reordered_twice :
    DistinctNames [printTwice none, twice none, add] ∧
      Reordered [printTwice none, twice none, add] [printTwice none, add, twice none] ∧
      analyze defaultEntry [printTwice none, twice none, add] =
        .ok [printTwice (some .int), twice (some .int), add] ∧
      analyze defaultEntry [printTwice none, add, twice none] =
        .ok [printTwice (some .int), add, twice (some .int)] ∧
      ∀ sink, Run.run defaultEntry [printTwice (some .int), add, twice (some .int)] sink =
        Run.run defaultEntry [printTwice (some .int), twice (some .int), add] sink := by
  have hdistinct : DistinctNames [printTwice none, twice none, add] := by decide
  have hreordered : Reordered [printTwice none, twice none, add] [printTwice none, add, twice none] :=
    ⟨rfl, .swap _ _ _⟩
  have h : analyze defaultEntry [printTwice none, twice none, add] =
      .ok [printTwice (some .int), twice (some .int), add] := by rfl
  have h' : analyze defaultEntry [printTwice none, add, twice none] =
      .ok [printTwice (some .int), add, twice (some .int)] := by rfl
  obtain ⟨-, hsame⟩ := analyze_reordered hdistinct hreordered defaultEntry
  exact ⟨hdistinct, hreordered, h, h', (hsame _ _ h h').2 defaultEntry⟩

end Swiftlet
