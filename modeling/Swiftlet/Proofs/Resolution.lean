import Swiftlet.Proofs.CSource.Types
import Swiftlet.Proofs.IR.Lowered
import Swiftlet.Proofs.Run.Soundness

/-!
# Which function a name means

More than one top-level item can have the same name; only the entry function may not be defined twice.
A run takes the first function of the name, all other stages take the last item, whether or not it has
a body.

* `Signature.Matches` — two signatures with the same parameters and the same return type.
* `Governs` — the signature by which calls are typed and which the module and the C source give to the
  function.
* `Settled` — the items behind the first function of a name leave its signature as it is.

Principal results: `governs_of_last`, `matches_last_iff` and `call_resolution`. That the stages need
not agree is `stages_disagree`.
-/

namespace Swiftlet

open Typing

/-- The same parameters, by name and type, and the same return type. -/
structure Signature.Matches (s s' : Signature) : Prop where
  names : namesOf s.params = namesOf s'.params
  types : s.params.map Decl.type = s'.params.map Decl.type
  ret : s.ret = s'.ret

instance (s s' : Signature) : Decidable (s.Matches s') :=
  decidable_of_iff (namesOf s.params = namesOf s'.params ∧
    s.params.map Decl.type = s'.params.map Decl.type ∧ s.ret = s'.ret)
    ⟨fun h => ⟨h.1, h.2.1, h.2.2⟩, fun h => ⟨h.names, h.types, h.ret⟩⟩

theorem Signature.Matches.refl (s : Signature) : s.Matches s := ⟨rfl, rfl, rfl⟩

/-! ## The first function and the last item -/

theorem findFunction?_eq_some_iff {program : List Node} {x : Bytes} {s : Signature}
    {body : List Node} :
    findFunction? program x = some (s, body) ↔ ∃ before after,
      program = before ++ .func s body :: after ∧ s.name.lexeme = x ∧
        ∀ s' body', .func s' body' ∈ before → s'.name.lexeme ≠ x := by
  rw [findFunction?, List.findSome?_eq_some_iff]
  constructor
  · rintro ⟨before, n, after, rfl, hn, hbefore⟩
    cases n with
    | func s' body' =>
        simp only [Option.ite_none_right_eq_some, Option.some.injEq, Prod.mk.injEq] at hn
        obtain ⟨hname, rfl, rfl⟩ := hn
        exact ⟨before, after, rfl, hname, fun s body hmem => by simpa using hbefore _ hmem⟩
    | _ => cases hn
  · rintro ⟨before, after, rfl, hname, hbefore⟩
    refine ⟨before, _, after, rfl, by simp [hname], fun n hn => ?_⟩
    cases n with
    | func s' body' => simpa using hbefore s' body' hn
    | _ => rfl

theorem lastSignature?_append (before after : List Node) (x : Bytes) :
    lastSignature? (before ++ after) x = (lastSignature? after x).or (lastSignature? before x) := by
  rw [lastSignature?, List.filterMap_append, List.reverse_append, List.find?_append]
  rfl

/-- The last item of a name is behind its first function, unless it is that function. -/
theorem lastSignature?_of_split {before after : List Node} {s : Signature} {body : List Node}
    {x : Bytes} (hname : s.name.lexeme = x) :
    lastSignature? (before ++ .func s body :: after) x =
      some ((lastSignature? after x).getD s) := by
  have hself : lastSignature? [.func s body] x = some s := by
    show [s].find? (·.name.lexeme = x) = some s
    simp [hname]
  rw [lastSignature?_append, ← List.singleton_append, lastSignature?_append, hself]
  cases lastSignature? after x <;> rfl

/-! ## Calls -/

section

variable {program : List Node} {f : Signature} {Γ : Scope}

theorem hasType_args_iff {args : List Node} {params : List Decl} :
    (∃ ts : List Ty, params.map Decl.type = ts.map some ∧ args.length = ts.length ∧
      ∀ p ∈ args.zip ts, HasType program f Γ p.1 p.2) ↔
    List.Forall₂ (fun a p => ∃ t, p.type = some t ∧ HasType program f Γ a t) args params := by
  constructor
  · rintro ⟨ts, hparams, hlength, hargs⟩
    have htyped : List.Forall₂ (fun a o => ∃ t, o = some t ∧ HasType program f Γ a t) args
        (params.map Decl.type) := by
      rw [hparams, List.forall₂_map_right_iff, List.forall₂_iff_zip]
      exact ⟨hlength, fun hp => ⟨_, rfl, hargs _ hp⟩⟩
    exact List.forall₂_map_right_iff.1 htyped
  · intro h
    induction h with
    | nil => exact ⟨[], rfl, rfl, by simp⟩
    | cons hp _ ih =>
        obtain ⟨t, ht, hp⟩ := hp
        obtain ⟨ts, hparams, hlength, hargs⟩ := ih
        refine ⟨t :: ts, by rw [List.map_cons, List.map_cons, ht, hparams],
          congrArg Nat.succ hlength, ?_⟩
        rw [List.zip_cons_cons, List.forall_mem_cons]
        exact ⟨hp, hargs⟩

/-- **Calls are typed by the last item of the name.** -/
theorem hasType_call_iff {x : Bytes} {s : Signature} (hs : IsLastItem program x s) {name : Token}
    (hname : name.lexeme = x) {args : List Node} {t : Ty} :
    HasType program f Γ (.call name args) t ↔ s.ret = some t ∧
      List.Forall₂ (fun a p => ∃ u, p.type = some u ∧ HasType program f Γ a u) args s.params := by
  subst hname
  rw [← hasType_args_iff]
  constructor
  · intro h
    cases h with
    | call hcallee hparams hlength hargs hret =>
        rw [hcallee.unique hs] at hparams hret
        exact ⟨hret, _, hparams, hlength, hargs⟩
  · rintro ⟨hret, ts, hparams, hlength, hargs⟩
    exact .call hs hparams hlength hargs hret

end

/-! ## Prototypes -/

namespace CSource

theorem mem_foldl_firstAppearances {names seen : List Bytes} {x : Bytes} :
    x ∈ names.foldl (fun seen n => if seen.contains n then seen else n :: seen) seen ↔
      x ∈ seen ∨ x ∈ names := by
  induction names generalizing seen with
  | nil => simp
  | cons n rest ih =>
      rw [List.foldl_cons, ih, List.mem_cons]
      by_cases hx : x = n
      · subst hx
        by_cases hseen : x ∈ seen <;> simp [hseen]
      · by_cases hseen : n ∈ seen <;> simp [hseen, hx]

theorem mem_functionNames {nodes : List Node} {n : Node} {s : Signature} (hn : n ∈ nodes)
    (hs : n.signature? = some s) : s.name.lexeme ∈ functionNames nodes := by
  rw [functionNames, firstAppearances, List.mem_reverse, mem_foldl_firstAppearances]
  exact .inr (List.mem_map.2 ⟨s, List.mem_filterMap.2 ⟨n, hn, hs⟩, rfl⟩)

theorem prototypes_infix {entry : Bytes} {nodes : List Node} {names : List Bytes} {text x : Bytes}
    {s : Signature} (h : prototypes entry nodes names = .ok text) (hx : x ∈ names)
    (hentry : x ≠ entry) (hs : lastSignature? nodes x = some s) :
    ∃ t, IsHeader entry s t ∧ t ++ utf8 ";\n" <:+: text := by
  induction names generalizing text with
  | nil => cases hx
  | cons name rest ih =>
      rw [prototypes] at h
      rcases List.mem_cons.1 hx with rfl | hx
      · rw [if_neg hentry, hs] at h
        simp only at h
        split at h
        · cases h
        rename_i t ht
        split at h
        · cases h
        cases h
        exact ⟨t, header_eq_ok_iff.1 ht, List.infix_append' [] _ _⟩
      · split at h
        · exact ih h hx
        split at h
        · exact ih h hx
        split at h
        · cases h
        split at h
        · cases h
        rename_i more hmore
        cases h
        obtain ⟨t, ht, hinfix⟩ := ih hmore hx
        exact ⟨t, ht, List.IsInfix.trans hinfix (List.suffix_append _ _).isInfix⟩

end CSource

/-! ## All stages -/

/-- The checker, the module and the C source go by `s` for the function called `x`. -/
structure Governs (entry : Bytes) (program tree : List Node) (x : Bytes) (s : Signature) : Prop where
  /-- A call is well typed if it has arguments for the parameters, and has the return type. -/
  calls : ∀ (f : Signature) (Γ : Scope) (name : Token) (args : List Node) (t : Ty),
    name.lexeme = x → (HasType program f Γ (.call name args) t ↔ s.ret = some t ∧
      List.Forall₂ (fun a p => ∃ u, p.type = some u ∧ HasType program f Γ a u) args s.params)
  /-- The function of the module has the parameters and, unless it is the entry function, the return
  type. -/
  module : ∀ (sourceName : Bytes) (m : IR.Module), IR.lower entry sourceName tree = .ok m →
    ∃ i f t, IR.numberOf? m.functions x = some i ∧ m.functions[i]? = some f ∧ s.ret = some t ∧
      f.params = s.params.map IR.paramOf ∧ f.ret = if x = entry then .void else IR.Ty.of t
  /-- The C source has its prototype, but none of the entry function. -/
  prototype : ∀ text, CSource.program entry tree = .ok text → x ≠ entry →
    ∃ t, CSource.IsHeader entry s t ∧ t ++ utf8 ";\n" <:+: text
  /-- The C source prints calls as what they return. -/
  printed : ∀ (vars : CSource.Variables) (name : Token) (args : List Node), name.lexeme = x →
    CSource.typeOf tree vars (.call name args) = s.ret

section

variable {entry : Bytes} {program tree : List Node} {x : Bytes} {s : Signature}

theorem governs_module (hs : lastSignature? tree x = some s) (hbody : HasBody tree x)
    {sourceName : Bytes} {m : IR.Module} (h : IR.lower entry sourceName tree = .ok m) :
    ∃ i f t, IR.numberOf? m.functions x = some i ∧ m.functions[i]? = some f ∧ s.ret = some t ∧
      f.params = s.params.map IR.paramOf ∧ f.ret = if x = entry then .void else IR.Ty.of t := by
  obtain ⟨hdeclarations, hthere⟩ := IR.lower_declarations h
  obtain ⟨s', body, hmem, rfl⟩ := hbody
  obtain ⟨i, hi⟩ := hthere s' body hmem
  obtain ⟨hpos, ⟨f, hf, hname⟩, -⟩ := IR.numberOf?_eq_some_iff.1 hi
  obtain ⟨last, t, hlast, hparams, hret, hfret⟩ := hdeclarations.declared i f hpos hf
  rw [hname, hs, Option.some.injEq] at hlast
  subst hlast
  exact ⟨i, f, t, hi, hf, hret, (IR.lowerParams_eq_ok_iff.1 hparams).2, hname ▸ hfret⟩

theorem governs_prototype (hs : lastSignature? tree x = some s) {text : Bytes}
    (h : CSource.program entry tree = .ok text) (hentry : x ≠ entry) :
    ∃ t, CSource.IsHeader entry s t ∧ t ++ utf8 ";\n" <:+: text := by
  obtain ⟨before, item, after, rfl, hitem, hname, -⟩ := lastSignature?_eq_some_iff.1 hs
  have hx : x ∈ CSource.functionNames (before ++ item :: after) :=
    hname ▸ CSource.mem_functionNames (by simp) hitem
  unfold CSource.program at h
  simp only at h
  split at h
  · cases h
  rename_i protos hprotos
  split at h
  · cases h
  cases h
  obtain ⟨t, ht, hinfix⟩ := CSource.prototypes_infix hprotos hx hentry hs
  rw [List.append_assoc (CSource.includes ++ protos)]
  exact ⟨t, ht, List.IsInfix.trans hinfix (List.infix_append _ _ _)⟩

/-- **The last item of a name governs every stage but the run.** -/
theorem governs_of_last (hsame : tree.map Node.signature? = program.map Node.signature?)
    (hs : lastSignature? tree x = some s) (hbody : HasBody tree x) :
    Governs entry program tree x s where
  calls := fun f Γ name args t hname =>
    hasType_call_iff ((lastSignature?_eq_some_iff.1 hs).congr hsame.symm) hname
  module := fun _ _ h => governs_module hs hbody h
  prototype := fun _ h hentry => governs_prototype hs h hentry
  printed := fun vars name args hname => by
    rw [CSource.typeOf, hname, hs]

end

/-- No item behind the first function called `x`, which has the signature `first`, has the last word
on `x` and says something else. -/
def Settled (tree : List Node) (x : Bytes) (first : Signature) (body : List Node) : Prop :=
  ∃ before after, tree = before ++ .func first body :: after ∧
    (∀ s body', .func s body' ∈ before → s.name.lexeme ≠ x) ∧
      ∀ s, IsLastItem after x s → first.Matches s

theorem matches_last_iff {tree : List Node} {x : Bytes} {first last : Signature} {body : List Node}
    (hfirst : findFunction? tree x = some (first, body))
    (hlast : lastSignature? tree x = some last) :
    first.Matches last ↔ Settled tree x first body := by
  constructor
  · intro hmatches
    obtain ⟨before, after, rfl, hname, hbefore⟩ := findFunction?_eq_some_iff.1 hfirst
    refine ⟨before, after, rfl, hbefore, fun s hs => ?_⟩
    rw [lastSignature?_of_split hname, lastSignature?_eq_some_iff.2 hs, Option.getD_some,
      Option.some.injEq] at hlast
    rwa [hlast]
  · rintro ⟨before, after, rfl, -, hafter⟩
    rw [lastSignature?_of_split (mem_of_findFunction? hfirst).2, Option.some.injEq] at hlast
    cases hs : lastSignature? after x with
    | none =>
        rw [hs] at hlast
        exact hlast ▸ .refl first
    | some s =>
        rw [hs] at hlast
        exact hlast ▸ hafter s (lastSignature?_eq_some_iff.1 hs)

/-- **Which function a name means.** In a program that the checker accepts, a call runs the first
function of its name that has a body. The checker, the module and the C source all go by the last item
of the name, with or without a body. So the stages agree on the name exactly if the items behind that
first function leave it as it is. -/
theorem call_resolution {tokens : List Token} {entry : Bytes} {program tree : List Node}
    (hparse : Parsing.parse tokens = .ok program) (hanalyze : analyze entry program = .ok tree)
    {x : Bytes} (hx : HasBody program x) :
    ∃ first body last, findFunction? tree x = some (first, body) ∧
      (∀ (enter : Run.Enter) (args : List Run.Argument) (name : Token) (actuals : List Node)
        (m : Run.Machine), name.lexeme = x → Run.eval tree enter args (.call name actuals) m =
          enter first body (Run.suspend tree enter args actuals) m) ∧
      IsLastItem tree x last ∧ Governs entry program tree x last ∧
      (first.Matches last ↔ Settled tree x first body) := by
  have htyped : WellTyped entry program tree :=
    .of_analyze (Parsing.parse_grown (fun _ _ => trivial) hparse) hanalyze
  have hbody := hasBody_of_items htyped.items hx
  obtain ⟨first, body, hfirst⟩ := hbody.findFunction?_eq
  obtain ⟨hmem, hname⟩ := mem_of_findFunction? hfirst
  obtain ⟨last, hlast⟩ := IR.lastSignature?_of_mem hmem rfl
  rw [hname] at hlast
  refine ⟨first, body, last, hfirst, fun enter args name actuals m hcalled => ?_,
    lastSignature?_eq_some_iff.1 hlast, governs_of_last htyped.map_signature? hlast hbody,
    matches_last_iff hfirst hlast⟩
  rw [Run.eval, hcalled, hfirst]

namespace Parsing

/-- The tokens of a program in which a signature behind a function has another type. -/
def clashingTokens : List Token :=
  spelled ["func", "main", "(", ")", "\x7b", "f", "(", "true", ")", "\x7d", "func", "f", "(", "a",
    ":", "Int", ")", "\x7b", "print", "(", "a", "+", "1", ")", "\x7d", "func", "f", "(", "a", ":",
    "Bool", ")"]

def taking (t : Ty) : Signature := ⟨named "f", [⟨false, named "a", some t⟩], some .void⟩

def clashingBody : List Node :=
  [.print (fixed (.keyword .printing))
    [.binary (.ref (named "a")) (fixed (.operator .plus)) (.int ⟨.int, utf8 "1", Pos.start⟩ 1)]]

def clashing : List Node :=
  [.func ⟨named "main", [], some .void⟩ [.call (named "f") [.bool (fixed (.bool true)) true]],
    .func (taking .int) clashingBody, .signature (taking .bool)]

end Parsing

open Parsing in
/-- The checker goes by the signature and accepts a call that the function cannot run. -/
theorem stages_disagree :
    parse clashingTokens = .ok clashing ∧ analyze defaultEntry clashing = .ok clashing ∧
      findFunction? clashing (utf8 "f") = some (taking .int, clashingBody) ∧
      lastSignature? clashing (utf8 "f") = some (taking .bool) ∧
      ¬(taking .int).Matches (taking .bool) ∧
      (Run.run defaultEntry clashing ⟨[], none⟩).result =
        .error (.breach .invalidPrint (fixed (.keyword .printing))) :=
  ⟨by rfl, by rfl, by rfl, by rfl, by decide, by rfl⟩

open Parsing in
theorem call_resolution_clashing :
    parse clashingTokens = .ok clashing ∧ analyze defaultEntry clashing = .ok clashing ∧
      HasBody clashing (utf8 "f") ∧
      Governs defaultEntry clashing clashing (utf8 "f") (taking .bool) ∧
      ¬Settled clashing (utf8 "f") (taking .int) clashingBody := by
  have hparse : parse clashingTokens = .ok clashing := by rfl
  have hanalyze : analyze defaultEntry clashing = .ok clashing := by rfl
  have hbody : HasBody clashing (utf8 "f") := ⟨taking .int, clashingBody, by simp [clashing], rfl⟩
  obtain ⟨first, body, last, hfirst, -, hlast, hgoverns, hiff⟩ :=
    call_resolution hparse hanalyze hbody
  obtain ⟨rfl, rfl⟩ : taking .int = first ∧ clashingBody = body := by
    have hfound : findFunction? clashing (utf8 "f") = some (taking .int, clashingBody) := by rfl
    simpa [hfound] using hfirst
  obtain rfl : taking .bool = last := by
    have hfound : lastSignature? clashing (utf8 "f") = some (taking .bool) := by rfl
    exact (lastSignature?_eq_some_iff.1 hfound).unique hlast
  exact ⟨hparse, hanalyze, hbody, hgoverns, hiff.not.1 (by decide)⟩

end Swiftlet
