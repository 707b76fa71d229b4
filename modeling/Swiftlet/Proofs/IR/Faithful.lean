import Swiftlet.Proofs.IR.Simulation
import Swiftlet.Proofs.Run.Soundness

/-!
# Lowering is faithful

Executing the module of a program prints what running the program prints.

* `Lowerable.of_analyze` — what lowering asks for holds of every complete program that the checker
  accepts.
* `BodyCode.defined?_eq` — the code of a function is found by its name.

Principal result: `prints_of_run`.
-/

namespace Swiftlet

namespace IR

open Typing Run

/-- **A complete program that the checker accepts can be lowered**, if its tokens come from a source
text. -/
theorem Lowerable.of_analyze {tokens : List Token} (htokens : ∀ t ∈ tokens, t.IsScanned)
    {entry : Bytes} {program tree : List Node} (hparse : Parsing.parse tokens = .ok program)
    (hanalyze : analyze entry program = .ok tree) (hcomplete : Complete program) :
    Lowerable entry tree :=
  ⟨.of_analyze htokens hparse hanalyze hcomplete.distinct, hcomplete.resolved
    (.of_analyze (Parsing.parse_grown (fun _ _ => trivial) hparse) hanalyze)⟩

theorem Lowerable.compiled {entry : Bytes} {program : List Node} (h : Lowerable entry program)
    (hplain : PlainArguments program) (sourceName : Bytes) :
    ∃ m, lower entry sourceName program = .ok m ∧ Compiled entry program m := by
  obtain ⟨m, hlower, hcode⟩ := lower_ok h.toEmittable sourceName
  exact ⟨m, hlower, h, hplain, (lower_declarations hlower).1, hcode⟩

/-- A function that has code is the one that its name stands for. -/
theorem BodyCode.defined?_eq {entry : Bytes} {program : List Node} {m : Module} {s : Signature}
    {body : List Node} {i : Nat} {f : Function} {σ₀ σ₁ : State}
    (h : BodyCode entry program m.shared s body i f σ₀ σ₁)
    (hm : Declarations entry program m.functions) : m.defined? s.name.lexeme = some i := by
  obtain ⟨-, ⟨g, hg, hname⟩, hbefore⟩ := numberOf?_eq_some_iff.1 h.number
  rw [h.function, Option.some.injEq] at hg
  subst hg
  have hfunction : m.functions[i]? = some f := h.function
  obtain ⟨hlt, hget⟩ := List.getElem?_eq_some_iff.1 hfunction
  refine List.findIdx?_eq_some_iff_getElem.2 ⟨hlt, ?_, fun j hj => ?_⟩
  · rw [hget]
    exact decide_eq_true ⟨hname, h.blocks_ne_nil⟩
  · have hlt' : j < m.functions.length := Nat.lt_trans hj hlt
    have hj' : m.functions[j]? = some m.functions[j] := List.getElem?_eq_getElem hlt'
    simp only [decide_eq_true_eq, not_and_or, ne_eq, not_not]
    cases j with
    | zero =>
        -- `printf` is the only function that is not looked up, and it has no body.
        rw [hm.printf, Option.some.injEq] at hj'
        rw [← hj']
        exact .inr rfl
    | succ j => exact .inl (hbefore _ _ (Nat.succ_pos j) hj hj')

/-- **Execution follows the run.** Of a complete program that the checker accepts and whose arguments
can wait, take a run that ends well and divides within range. Then the program is lowered, executing
the entry function of its module ends, in one way, and `printf` has been called once for each value
that the run prints, in order, with a format for its type and with what stands for it.

The tokens are those that the lexer gives (`Lexing.isScanned_of_lex`). -/
theorem prints_of_run {tokens : List Token} (htokens : ∀ t ∈ tokens, t.IsScanned)
    {entry : Bytes} {program tree : List Node} (hparse : Parsing.parse tokens = .ok program)
    (hanalyze : analyze entry program = .ok tree) (hcomplete : Complete program)
    (hplain : PlainArguments program) {room : Option Nat} {v : Value}
    (hrun : (run entry tree ⟨[], room⟩).result = .ok v)
    (hrange : ∀ c, Visited entry tree ⟨[], room⟩ c → ¬c.Overflows tree) (sourceName : Bytes) :
    ∃ m i printed, lower entry sourceName tree = .ok m ∧ m.defined? entry = some i ∧
      (∀ output, Prints m i output ↔ output = printed) ∧
        List.Forall₂ (PrintedAs m) (run entry tree ⟨[], room⟩).sink.values.reverse printed := by
  have htyped : WellTyped entry program tree :=
    .of_analyze (Parsing.parse_grown (fun _ _ => trivial) hparse) hanalyze
  obtain ⟨m, hlower, hcompiled⟩ :=
    (Lowerable.of_analyze htokens hparse hanalyze hcomplete).compiled (hplain.resolved htyped)
      sourceName
  obtain ⟨s, body, hfound, hmem, hparams, -⟩ := htyped.findFunction?_entry
  obtain ⟨i, f, σ₀, σ₁, hcode⟩ := hcompiled.code s body hmem
  obtain ⟨-, hname⟩ := mem_of_findFunction? hfound
  -- The entry function is called without arguments, and nothing waits for it.
  let S : Scene := ⟨entry, tree, m, maxCallDepth, [], s, [], [], i, f, []⟩
  obtain ⟨hvalid, -⟩ := Compiled.scene_valid (S := S) hcompiled hmem hcode
    ⟨fun _ => hparams, fun i v hv => nomatch hv⟩
  simp only [run, hfound] at hrun ⊢
  split at hrun
  · cases hrun
  rename_i u returned m' hbody
  have hstill : MachineStill (S.still [] :: S.callers) ⟨⟨s, [], []⟩, [], ⟨[], room⟩⟩ :=
    .cons ⟨rfl, fun _ _ hx => (nomatch hx), rfl⟩ .nil
  have hhanded : S.Handed [] := by
    intro j p t hp
    rw [show S.signature.params = [] from hparams] at hp
    cases hp
  have hinRange : Config.InRange tree (.start s body ⟨[], room⟩) :=
    fun c hreach => hrange c ⟨s, body, hfound, hreach⟩
  obtain ⟨value, printed, hsteps, hreturned⟩ :=
    callSim maxCallDepth hvalid rfl hmem hcode hstill hhanded .nil hinRange hbody
  have hprints : Prints m i printed.reverse := by
    rw [Prints, List.reverse_reverse]
    exact hsteps
  refine ⟨m, i, printed.reverse, hlower, hname ▸ hcode.defined?_eq hcompiled.declarations, ?_, ?_⟩
  · exact fun output => ⟨fun houtput => houtput.unique hprints, fun heq => heq ▸ hprints⟩
  · show List.Forall₂ (PrintedAs m) m'.sink.values.reverse printed.reverse
    exact List.forall₂_reverse_iff.2 hreturned.printed

/-- A run that prints a string and the result of a recursive call with an early return. -/
theorem prints_halving :
    (∀ t ∈ Parsing.halvingTokens, t.IsScanned) ∧
      Parsing.parse Parsing.halvingTokens = .ok (Parsing.halving none none) ∧
      analyze defaultEntry (Parsing.halving none none) =
        .ok (Parsing.halving (some .int) (some .string)) ∧
      Complete (Parsing.halving none none) ∧ PlainArguments (Parsing.halving none none) ∧
      (run defaultEntry (Parsing.halving (some .int) (some .string)) ⟨[], none⟩).result =
        .ok .void ∧
      (∀ c, Visited defaultEntry (Parsing.halving (some .int) (some .string)) ⟨[], none⟩ c →
        ¬c.Overflows (Parsing.halving (some .int) (some .string))) ∧
      ∃ m i printed, lower defaultEntry [] (Parsing.halving (some .int) (some .string)) = .ok m ∧
        m.defined? defaultEntry = some i ∧ (∀ output, Prints m i output ↔ output = printed) ∧
        List.Forall₂ (PrintedAs m) [.string (utf8 "go"), .int 4] printed := by
  have htokens : ∀ t ∈ Parsing.halvingTokens, t.IsScanned := Parsing.isScanned_of_spelled _
  have hanalyze : analyze defaultEntry (Parsing.halving none none) =
      .ok (Parsing.halving (some .int) (some .string)) := by rfl
  have hplain : PlainArguments (Parsing.halving none none) := by
    unfold PlainArguments
    decide
  have hrun : (run defaultEntry (Parsing.halving (some .int) (some .string)) ⟨[], none⟩).result =
      .ok .void := by rfl
  have hvalues : (run defaultEntry (Parsing.halving (some .int) (some .string))
      ⟨[], none⟩).sink.values.reverse = [.string (utf8 "go"), .int 4] := by rfl
  have hrange : ∀ c, Visited defaultEntry (Parsing.halving (some .int) (some .string)) ⟨[], none⟩ c →
      ¬c.Overflows (Parsing.halving (some .int) (some .string)) := by
    refine fun c hc => hc.not_overflows ?_
    have hdivisors : divisorsIn (Parsing.halving (some .int) (some .string)) =
        [.int ⟨.int, utf8 "2", Pos.start⟩ 2] := by rfl
    rw [hdivisors]
    simp
  have hprints := prints_of_run htokens Parsing.parse_halvingTokens hanalyze complete_halving hplain
    hrun hrange []
  rw [hvalues] at hprints
  exact ⟨htokens, Parsing.parse_halvingTokens, hanalyze, complete_halving, hplain, hrun, hrange,
    hprints⟩

end IR

end Swiftlet
