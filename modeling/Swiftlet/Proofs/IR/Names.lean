import Swiftlet.Proofs.IR.Growth
import Swiftlet.Proofs.Lexing.Spelling
import Swiftlet.Proofs.Typing.Judgment

/-!
# Parameters by name

A parameter is looked up by its name as messages show it, and a number is shown in quotes. No token
that the lexer takes for an identifier is a number, so every parameter of a source text is found.

* `shownName_of_isScanned` — an identifier is shown as it is spelled.
* `lowerParams_eq_ok_iff` — parameters can be lowered exactly if all of them have a type to store.

Principal result: `paramOperands_fit`, that a name stands for the parameter of that name and for no
other.
-/

namespace Swiftlet

theorem Parsing.isScanned_of_spelled (words : List String) :
    ∀ t ∈ spelled words, t.IsScanned := by
  intro t ht
  obtain ⟨word, -, hword⟩ := List.mem_filterMap.1 ht
  split at hword
  · cases hword
  rename_i b bs _
  split at hword
  · rename_i kind lexeme text rest hscan
    cases hword
    exact .inr ⟨b, bs, _, hscan, rfl⟩
  · cases hword

namespace IR

/-- **An identifier is shown as it is spelled.** -/
theorem shownName_of_isScanned {t : Token} (h : t.IsScanned) (hkind : t.kind = .identifier) :
    shownName t.lexeme = t.lexeme := by
  have hword := Lexing.isLexeme_of_isScanned h (by simp [hkind])
  simp only [Token.IsLexeme, hkind] at hword
  obtain ⟨b, rest, hlexeme, hstart, -⟩ := hword.1
  obtain ⟨hdigit, hplus, hminus⟩ := Lexing.not_number_of_startsName hstart
  have hsign : Numeral.splitSign (b :: rest) = (false, b :: rest) := by
    unfold Numeral.splitSign
    split
    · exact absurd (by simp_all) hplus
    · exact absurd (by simp_all) hminus
    · rfl
  have hnone : wholeNumber? (b :: rest) = none := by
    simp [wholeNumber?, Numeral.int?, hsign, hdigit]
  rw [hlexeme, shownName, if_neg (by simp), hnone]

/-! ## Parameters -/

/-- A parameter of a lowered function. -/
def paramOf (p : Decl) : Param := ⟨p.name.lexeme, Ty.of (p.type.getD .void)⟩

theorem lowerParams_eq_ok_iff {ps : List Decl} {params : List Param} :
    lowerParams ps = .ok params ↔
      (∀ p ∈ ps, ∃ t, p.type = some t ∧ t ≠ .void) ∧ params = ps.map paramOf := by
  induction ps generalizing params with
  | nil => simp [lowerParams, eq_comm]
  | cons p rest ih =>
      rw [lowerParams, List.forall_mem_cons]
      cases htype : p.type with
      | none => simp
      | some t =>
          cases t with
          | void => simp
          | _ =>
              cases hrest : lowerParams rest with
              | error e =>
                  simp only [reduceCtorEq, false_iff]
                  rintro ⟨⟨-, hall⟩, -⟩
                  have hok := ih.2 ⟨hall, rfl⟩
                  rw [hrest] at hok
                  cases hok
              | ok params' =>
                  obtain ⟨hall, rfl⟩ := ih.1 hrest
                  simp only [Except.ok.injEq, List.map_cons, paramOf, htype, Option.getD_some]
                  constructor
                  · rintro rfl
                    exact ⟨⟨⟨_, rfl, by simp⟩, hall⟩, rfl⟩
                  · rintro ⟨-, rfl⟩
                    rfl

/-- Names stand for the parameters of a signature. -/
structure ParamsFit (params : List (Bytes × Operand)) (s : Signature) : Prop where
  found : ∀ (i : Nat) (p : Decl) (t : Swiftlet.Ty), s.params[i]? = some p → p.type = some t →
    params.lookup p.name.lexeme = some (.param i (Ty.of t))
  absent : ∀ x, x ∉ Typing.namesOf s.params → params.lookup x = none

/-- **A name stands for the parameter of that name and for no other.** -/
theorem paramOperands_fit {f : Function} {s : Signature} (hf : f.params = s.params.map paramOf)
    (hnodup : (Typing.namesOf s.params).Nodup)
    (hshown : ∀ p ∈ s.params, shownName p.name.lexeme = p.name.lexeme) :
    ParamsFit (paramOperands f) s := by
  have hkeys : (paramOperands f).map Prod.fst = (Typing.namesOf s.params).reverse := by
    rw [paramOperands, List.map_reverse, hf]
    congr 1
    refine List.ext_getElem (by simp) fun i h₁ h₂ => ?_
    have hi : i < s.params.length := by simpa using h₁
    simp [paramOf, hshown _ (List.getElem_mem hi)]
  have hunique : ((paramOperands f).map Prod.fst).Nodup := by
    rw [hkeys]
    exact List.nodup_reverse.2 hnodup
  refine ⟨?_, ?_⟩
  · intro i p t hp ht
    rw [Typing.lookup_eq_some_iff_mem hunique, paramOperands, List.mem_reverse, List.mem_mapIdx]
    obtain ⟨hi, rfl⟩ := List.getElem?_eq_some_iff.1 hp
    refine ⟨i, by simpa [hf] using hi, ?_⟩
    simp [hf, paramOf, ht, hshown _ (List.getElem_mem hi)]
  · intro x hx
    rw [List.lookup_eq_none_iff]
    intro entry hentry
    have hmem : entry.1 ∈ (paramOperands f).map Prod.fst := List.mem_map_of_mem hentry
    rw [hkeys, List.mem_reverse] at hmem
    simp only [bne_iff_ne, ne_eq]
    rintro rfl
    exact hx hmem

end IR

end Swiftlet
