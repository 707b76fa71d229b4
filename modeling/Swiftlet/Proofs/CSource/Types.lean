import Swiftlet.CSource
import Swiftlet.Proofs.Typing.Checking

/-!
# The types that the C source goes by

The C source of an accepted program is written without a fault, and where it asks for the type of an
expression it finds the type that the checker has found. The two look types up in different places: the
checker in the bindings that are visible, the other in a table of all the names written so far, from
which nothing is ever taken out.

* `TypeName` — the C type that stands for a type; `IsHeader` — the header of a function, with its types.
* `Covers` — the table has the parameters and the visible bindings with their types. What it has beside
  them does not matter, since a name that is bound later is always a new one.
* `typeOf_eq` and `expression_ok` — a typed expression can be written and has its type in the table.
* `block_ok` — so can a typed body, and the table still covers what was visible before it.
* `Within` — the statements of a body, at any depth; `Reached` — the places of a body at which both
  passes arrive, each with what it knows there.
* `Converts` — the conversion of `printf` for the values of a type, and how a value is handed to it.

Principal results: `Stands.within`, that the passes arrive at every statement, `Stands.reached`, that the
table covers the visible bindings wherever they arrive, and `program_types`.
-/

namespace Swiftlet

namespace CSource

open Typing (Scope HasType BodyTyped check checkBody checkItem namesOf boundBy boundByAll Signatures
  lastSignature?_eq_some_iff within_eq_ok_iff)

/-! ## Types and headers -/

/-- The C type that stands for a type. -/
inductive TypeName : Ty → Bytes → Prop where
  | int : TypeName .int (utf8 "int")
  | float : TypeName .float (utf8 "double")
  | bool : TypeName .bool (utf8 "bool")
  | string : TypeName .string (utf8 "const char*")
  | void : TypeName .void (utf8 "void")

/-- A parameter in C. -/
inductive IsParameter : Decl → Bytes → Prop where
  | intro {p : Decl} {t : Ty} {type : Bytes} (htype : p.type = some t) (hname : TypeName t type) :
      IsParameter p (type ++ utf8 " " ++ p.name.lexeme)

/-- What stands between the parentheses of a header. -/
inductive IsParameterList : List Decl → Bytes → Prop where
  | none : IsParameterList [] (utf8 "void")
  | some {p : Decl} {ps : List Decl} {texts : List Bytes}
      (h : List.Forall₂ IsParameter (p :: ps) texts) :
      IsParameterList (p :: ps) (Bytes.join (utf8 ", ") texts)

/-- The header of a function: what it returns, its name and its parameters. The entry function
returns an `int`. -/
inductive IsHeader (entry : Bytes) (s : Signature) : Bytes → Prop where
  | intro {t : Ty} {ret params : Bytes} (ht : s.ret = some t)
      (hret : TypeName (if s.name.lexeme = entry then .int else t) ret)
      (hparams : IsParameterList s.params params) :
      IsHeader entry s (ret ++ utf8 " " ++ s.name.lexeme ++ utf8 "(" ++ params ++ utf8 ")")

theorem typeText_eq_ok_iff {t : Option Ty} {text : Bytes} :
    typeText t = .ok text ↔ ∃ u, t = some u ∧ TypeName u text := by
  constructor
  · intro h
    cases t with
    | none => cases h
    | some u =>
        refine ⟨u, rfl, ?_⟩
        cases u <;> cases h <;> constructor
  · rintro ⟨u, rfl, h⟩
    cases h <;> rfl

theorem typeText_ok {t : Option Ty} (h : t.isSome) : ∃ text, typeText t = .ok text := by
  obtain ⟨t, rfl⟩ := Option.isSome_iff_exists.1 h
  cases t <;> exact ⟨_, rfl⟩

theorem parameters_eq_ok_iff {ps : List Decl} {texts : List Bytes} :
    parameters ps = .ok texts ↔ List.Forall₂ IsParameter ps texts := by
  induction ps generalizing texts with
  | nil => simp [parameters, eq_comm]
  | cons p ps ih =>
      rw [parameters, List.forall₂_cons_left_iff]
      constructor
      · intro h
        split at h
        · cases h
        rename_i t ht
        split at h
        · cases h
        rename_i ts hts
        cases h
        obtain ⟨u, hu, hname⟩ := typeText_eq_ok_iff.1 ht
        exact ⟨_, ts, .intro hu hname, ih.1 hts, rfl⟩
      · rintro ⟨_, ts, ⟨hu, hname⟩, hps, rfl⟩
        rw [typeText_eq_ok_iff.2 ⟨_, hu, hname⟩, ih.2 hps]

theorem isParameterList_iff {ps : List Decl} {text : Bytes} :
    IsParameterList ps text ↔ ∃ texts, List.Forall₂ IsParameter ps texts ∧
      text = if texts = [] then utf8 "void" else Bytes.join (utf8 ", ") texts := by
  constructor
  · intro h
    cases h with
    | none => exact ⟨[], .nil, rfl⟩
    | some hps =>
        cases hps with
        | cons hp hps => exact ⟨_, .cons hp hps, rfl⟩
  · rintro ⟨texts, hps, rfl⟩
    cases hps with
    | nil => exact .none
    | cons hp hps => exact .some (.cons hp hps)

/-- **The header of a function is written with its types and its name.** -/
theorem header_eq_ok_iff {entry : Bytes} {s : Signature} {text : Bytes} :
    header entry s = .ok text ↔ IsHeader entry s text := by
  constructor
  · intro h
    simp only [header] at h
    split at h
    · cases h
    rename_i params hparams
    split at h
    · cases h
    rename_i ret hret
    cases h
    obtain ⟨t, ht, hname⟩ := typeText_eq_ok_iff.1 hret
    refine .intro ht ?_ (isParameterList_iff.2 ⟨_, parameters_eq_ok_iff.1 hparams, rfl⟩)
    split
    · exact .int
    · exact hname
  · rintro ⟨ht, hname, hparams⟩
    obtain ⟨params, hps, rfl⟩ := isParameterList_iff.1 hparams
    obtain ⟨ret, hret⟩ := typeText_ok (Option.isSome_of_eq_some ht)
    simp only [header, parameters_eq_ok_iff.2 hps, hret]
    by_cases hentry : s.name.lexeme = entry
    · rw [if_pos hentry] at hname ⊢
      cases hname
      rfl
    · rw [if_neg hentry] at hname ⊢
      rw [typeText_eq_ok_iff.2 ⟨_, ht, hname⟩] at hret
      cases hret
      rfl

theorem IsHeader.unique {entry : Bytes} {s : Signature} {text text' : Bytes} (h : IsHeader entry s text)
    (h' : IsHeader entry s text') : text = text' :=
  Except.ok.inj ((header_eq_ok_iff.2 h).symm.trans (header_eq_ok_iff.2 h'))

theorem parameters_ok {ps : List Decl} (h : ∀ p ∈ ps, p.type.isSome) :
    ∃ texts, parameters ps = .ok texts := by
  induction ps with
  | nil => exact ⟨[], rfl⟩
  | cons p ps ih =>
      rw [List.forall_mem_cons] at h
      obtain ⟨t, ht⟩ := typeText_ok h.1
      obtain ⟨ts, hts⟩ := ih h.2
      exact ⟨_, by rw [parameters, ht, hts]⟩

theorem header_ok (entry : Bytes) {s : Signature} (hparams : ∀ p ∈ s.params, p.type.isSome)
    (hret : s.ret.isSome) : ∃ text, header entry s = .ok text := by
  obtain ⟨params, hparams⟩ := parameters_ok hparams
  obtain ⟨ret, hret⟩ := typeText_ok hret
  exact ⟨_, by rw [header, hparams, hret]⟩

/-! ## Expressions -/

/-- The table has the parameters and the visible bindings with their types. -/
structure Covers (s : Signature) (Γ : Scope) (vars : Variables) : Prop where
  params : ∀ p ∈ s.params, vars.lookup p.name.lexeme = some p.type
  scope : ∀ x t, (x, t) ∈ Γ → vars.lookup x = some (some t)

section

variable {program : List Node} {s : Signature} {Γ : Scope} {vars : Variables}

/-- A new name hides nothing. -/
theorem Covers.bind (h : Covers s Γ vars) {x : Bytes} (t : Ty)
    (hx : x ∉ namesOf s.params ++ Γ.names) : Covers s ((x, t) :: Γ) ((x, some t) :: vars) := by
  rw [List.mem_append, not_or] at hx
  have hother : ∀ {y : Bytes}, y ≠ x → List.lookup y ((x, some t) :: vars) = vars.lookup y := by
    intro y hy
    rw [List.lookup_cons, beq_eq_false_iff_ne.2 hy]
  refine ⟨fun p hp => ?_, fun y u hy => ?_⟩
  · have hne : p.name.lexeme ≠ x := fun heq => hx.1 (List.mem_map.2 ⟨p, hp, heq⟩)
    rw [hother hne]
    exact h.params p hp
  · rcases List.mem_cons.1 hy with heq | hy
    · cases heq
      simp
    · have hne : y ≠ x := fun heq => hx.2 (List.mem_map.2 ⟨_, hy, heq⟩)
      rw [hother hne]
      exact h.scope y u hy

theorem Covers.tail {b : Bytes × Ty} (h : Covers s (b :: Γ) vars) : Covers s Γ vars :=
  ⟨h.params, fun x t hx => h.scope x t (List.mem_cons_of_mem _ hx)⟩

/-- The table of a function in front of its body. -/
def parameterTypes (s : Signature) : Variables :=
  (s.params.map fun p => (p.name.lexeme, p.type)).reverse

theorem covers_parameterTypes (hs : (namesOf s.params).Nodup) : Covers s [] (parameterTypes s) := by
  refine ⟨fun p hp => ?_, by simp⟩
  have hnodup : ((parameterTypes s).map Prod.fst).Nodup := by
    rw [parameterTypes, List.map_reverse, List.map_map]
    exact List.nodup_reverse.2 hs
  rw [Typing.lookup_eq_some_iff_mem hnodup]
  exact List.mem_reverse.2 (List.mem_map.2 ⟨p, hp, rfl⟩)

/-- **The type read off the table is the type of the expression.** -/
theorem typeOf_eq (hvars : Covers s Γ vars) {e : Node} {t : Ty} (h : HasType program s Γ e t) :
    typeOf program vars e = some t := by
  induction h with
  | int | float | bool | string => rfl
  | param hp hname ht => rw [typeOf, ← hname, hvars.params _ hp, Option.getD_some, ht]
  | var hname => rw [typeOf, hvars.scope _ _ hname, Option.getD_some]
  | binary op ht hl hr ihl ihr => exact ihl
  | call hcallee hparams hlength hargs hret ih =>
      rw [typeOf, lastSignature?_eq_some_iff.2 hcallee]
      exact hret

theorem expressions_ok {args : List Node} (h : ∀ a ∈ args, ∃ v, expression a = .ok v) :
    ∃ vs, expressions args = .ok vs := by
  induction args with
  | nil => exact ⟨[], rfl⟩
  | cons a rest ih =>
      rw [List.forall_mem_cons] at h
      obtain ⟨v, hv⟩ := h.1
      obtain ⟨vs, hvs⟩ := ih h.2
      exact ⟨v :: vs, by simp only [expressions, hv, hvs]⟩

theorem expression_ok {e : Node} {t : Ty} (h : HasType program s Γ e t) :
    ∃ v, expression e = .ok v := by
  induction h with
  | int | float | bool | string | param | var => exact ⟨_, rfl⟩
  | binary op ht hl hr ihl ihr =>
      obtain ⟨l, hl⟩ := ihl
      obtain ⟨r, hr⟩ := ihr
      exact ⟨_, by rw [expression, hl, hr]⟩
  | @call name args callee ts t hcallee hparams hlength hargs hret ih =>
      have hfst : (args.zip ts).map Prod.fst = args := List.map_fst_zip (Nat.le_of_eq hlength)
      have hall : ∀ a ∈ args, ∃ v, expression a = .ok v := by
        intro a ha
        rw [← hfst] at ha
        obtain ⟨p, hp, rfl⟩ := List.mem_map.1 ha
        exact ih p hp
      obtain ⟨vs, hvs⟩ := expressions_ok hall
      exact ⟨_, by rw [expression, hvs]⟩

end

/-! ## Statements -/

/-- The conversion for the values of a type and what stands for the value `v` behind it: `%d` takes an
`int`, `%f` a `double` and `%s` a `const char*`, so a truth value is handed over as a text. -/
inductive Converts : Ty → Bytes → Bytes → Bytes → Prop where
  | int (v : Bytes) : Converts .int v (utf8 "%d") v
  | float (v : Bytes) : Converts .float v (utf8 "%f") v
  | string (v : Bytes) : Converts .string v (utf8 "%s") v
  | bool (v : Bytes) :
      Converts .bool v (utf8 "%s") (utf8 "(" ++ v ++ utf8 ") ? \"true\" : \"false\"")

/-- A line that prints. -/
def printed (depth : Nat) (conversion argument : Bytes) : Bytes :=
  line depth (utf8 "printf(\"" ++ conversion ++ utf8 "\\n\", " ++ argument ++ utf8 ");")

/-- A line that declares a variable. -/
def declared (depth : Nat) (d : Decl) (type value : Bytes) : Bytes :=
  line depth ((if d.mutable then [] else utf8 "const ") ++ type ++ utf8 " " ++ d.name.lexeme ++
    utf8 " = " ++ value ++ utf8 ";")

section

variable {k : Context} {s : Signature} {Γ : Scope} {vars : Variables}

/-- **What is printed is converted by its type.** -/
theorem printing_eq (hvars : Covers s Γ vars) {a : Node} {t : Ty}
    (ha : HasType k.program s Γ a t) (hvoid : t ≠ .void) (more : List Node) (depth : Nat) :
    ∃ v conversion argument, expression a = .ok v ∧ Converts t v conversion argument ∧
      printing k vars depth (a :: more) = .ok (printed depth conversion argument) := by
  obtain ⟨v, hv⟩ := expression_ok ha
  have ht := typeOf_eq hvars ha
  simp only [printing, ht, hv]
  cases t with
  | int => exact ⟨v, _, _, rfl, .int v, rfl⟩
  | float => exact ⟨v, _, _, rfl, .float v, rfl⟩
  | bool => exact ⟨v, _, _, rfl, .bool v, rfl⟩
  | string => exact ⟨v, _, _, rfl, .string v, rfl⟩
  | void => exact absurd rfl hvoid

theorem returning_ok {v : Node} {t : Ty} (hv : HasType k.program s Γ v t) (vars : Variables)
    (depth : Nat) : ∃ text, returning k vars depth v = .ok text := by
  obtain ⟨text, htext⟩ := expression_ok hv
  simp only [returning, htext]
  split
  · exact ⟨_, rfl⟩
  · exact ⟨_, rfl⟩

theorem statement_expr {e : Node} {t : Ty} (he : HasType k.program s Γ e t) (vars : Variables)
    (depth : Nat) : ∃ text, statement k vars depth e = .ok (text, vars) := by
  obtain ⟨v, hv⟩ := expression_ok he
  refine ⟨line depth (v ++ utf8 ";"), ?_⟩
  cases he <;> simp only [statement, hv]

/-- **A variable is declared by the type of its value.** -/
theorem statement_assign {v : Node} {t : Ty} (hv : HasType k.program s Γ v t) (d : Decl)
    (vars : Variables) (depth : Nat) :
    ∃ value type, expression v = .ok value ∧ TypeName t type ∧
      statement k vars depth (.assign { d with type := some t } v) =
        .ok (declared depth d type value, (d.name.lexeme, some t) :: vars) := by
  obtain ⟨value, hvalue⟩ := expression_ok hv
  obtain ⟨type, htype⟩ := typeText_ok (t := some t) rfl
  obtain ⟨_, ⟨⟩, hname⟩ := typeText_eq_ok_iff.1 htype
  refine ⟨value, type, hvalue, hname, ?_⟩
  simp only [statement, binding, htype, hvalue]
  rfl

theorem block_cons {n : Node} {rest : List Node} {depth : Nat} {text texts : Bytes}
    {vars₁ vars₂ : Variables} (hn : statement k vars depth n = .ok (text, vars₁))
    (hrest : block k vars₁ depth rest = .ok (texts, vars₂)) :
    block k vars depth (n :: rest) = .ok (text ++ texts, vars₂) := by
  simp only [block, hn, hrest]

/-- **A typed body is written, and the table still covers what was visible before it.** -/
theorem block_ok {ns ns' : List Node} (h : BodyTyped k.program s Γ ns ns')
    (hvars : Covers s Γ vars) (depth : Nat) :
    ∃ text vars', block k vars depth ns' = .ok (text, vars') ∧ Covers s Γ vars' := by
  induction h generalizing vars depth with
  | nil Γ => exact ⟨[], vars, by rw [block], hvars⟩
  | expr he hrest ih =>
      obtain ⟨text, htext⟩ := statement_expr he vars depth
      obtain ⟨texts, vars', hblock, hvars'⟩ := ih hvars depth
      exact ⟨_, vars', block_cons htext hblock, hvars'⟩
  | @assign Γ d v t ns ns' hv hvoid hd hnew hrest ih =>
      obtain ⟨value, type, -, -, htext⟩ := statement_assign hv d vars depth
      obtain ⟨texts, vars', hblock, hvars'⟩ := ih (hvars.bind t hnew) depth
      exact ⟨_, vars', block_cons htext hblock, hvars'.tail⟩
  | print token more ha hvoid hrest ih =>
      obtain ⟨-, conversion, argument, -, -, htext⟩ := printing_eq hvars ha hvoid more depth
      obtain ⟨texts, vars', hblock, hvars'⟩ := ih hvars depth
      exact ⟨_, vars', block_cons (by rw [statement, htext]) hblock, hvars'⟩
  | ret token hv hret hrest ih =>
      obtain ⟨text, htext⟩ := returning_ok hv vars depth
      obtain ⟨texts, vars', hblock, hvars'⟩ := ih hvars depth
      exact ⟨_, vars', block_cons (by rw [statement, htext]) hblock, hvars'⟩
  | cond token hc hbody hrest ihb ih =>
      obtain ⟨v, hv⟩ := expression_ok hc
      obtain ⟨text, vars₁, hinner, hvars₁⟩ := ihb hvars (depth + 1)
      obtain ⟨texts, vars', hblock, hvars'⟩ := ih hvars₁ depth
      exact ⟨_, vars', block_cons (by rw [statement, hv, hinner]) hblock, hvars'⟩

end

/-! ## Places of a body -/

/-- What both passes know at a place: the visible bindings, and the table and the indentation. -/
structure Place where
  scope : Scope
  vars : Variables
  depth : Nat

/-- A statement of a body, in an `if` or not. -/
inductive Within (n : Node) : List Node → Prop where
  | here (rest : List Node) : Within n (n :: rest)
  | later {rest : List Node} (m : Node) (h : Within n rest) : Within n (m :: rest)
  | inside {body : List Node} (token : Token) (condition : Node) (rest : List Node)
      (h : Within n body) : Within n (.cond token condition body :: rest)

/-- Both passes arrive at a statement of the body `ns`. The checker goes ahead, and what it makes of a
statement is what is written. -/
inductive Reached (c : Typing.Context) (k : Context) : Place → List Node → Place → Node → Prop where
  | here (p : Place) (n : Node) (rest : List Node) : Reached c k p (n :: rest) p n
  | later {p p' : Place} {n n' : Node} {rest : List Node} {d : Typing.Done Node} {text : Bytes}
      {vars : Variables} (hcheck : check c p.scope n = .ok d)
      (hwrite : statement k p.vars p.depth d.tree = .ok (text, vars))
      (hrest : Reached c k ⟨d.scope, vars, p.depth⟩ rest p' n') : Reached c k p (n :: rest) p' n'
  | inside {p p' : Place} {n' : Node} {token : Token} {condition : Node} {body rest : List Node}
      {d : Typing.Done Node} (hcheck : check c p.scope condition = .ok d)
      (hbody : Reached c k ⟨d.scope, p.vars, p.depth + 1⟩ body p' n') :
      Reached c k p (.cond token condition body :: rest) p' n'

/-- The statements at a place are well typed, and both passes know what they need there. -/
structure Stands (c : Typing.Context) (p : Place) (ns : List Node) : Prop where
  typed : ∃ ns', BodyTyped c.program c.signature p.scope ns ns'
  fits : c.Fits p.scope
  names : namesOf (boundByAll ns) ⊆ c.names
  covers : Covers c.signature p.scope p.vars

section

variable {c : Typing.Context} {k : Context} {p p' : Place}

/-- **A statement is accepted and written, and both passes know what they need behind it.** -/
theorem Stands.step (heq : k.program.map Node.signature? = c.program.map Node.signature?) {n : Node}
    {rest : List Node} (h : Stands c p (n :: rest)) :
    ∃ d text vars, check c p.scope n = .ok d ∧
      statement k p.vars p.depth d.tree = .ok (text, vars) ∧
      Stands c ⟨d.scope, vars, p.depth⟩ rest := by
  obtain ⟨⟨ns', htyped⟩, hc, hnames, hvars⟩ := h
  rw [boundByAll, namesOf, List.map_append, List.append_subset] at hnames
  cases htyped with
  | expr he hrest =>
      obtain ⟨text, htext⟩ := statement_expr (he.congr heq) p.vars p.depth
      exact ⟨_, text, _, he.check_eq hc, htext, ⟨_, hrest⟩, hc, hnames.2, hvars⟩
  | @assign _ d v t _ _ hv hvoid hd hnew hrest =>
      obtain ⟨value, type, -, -, htext⟩ := statement_assign (hv.congr heq) d p.vars p.depth
      exact ⟨_, _, _, Typing.check_assign_eq hc hv hvoid hd, htext, ⟨_, hrest⟩,
        hc.bind t hnew (hnames.1 (by simp [boundBy])), hnames.2, hvars.bind t hnew⟩
  | @print _ token a more t _ _ ha hvoid hrest =>
      obtain ⟨-, conversion, argument, -, -, htext⟩ :=
        printing_eq hvars (ha.congr heq) hvoid more p.depth
      exact ⟨_, _, _, Typing.check_print_eq hc token ha hvoid more, by rw [statement, htext],
        ⟨_, hrest⟩, hc, hnames.2, hvars⟩
  | ret token hv hret hrest =>
      obtain ⟨text, htext⟩ := returning_ok (hv.congr heq) p.vars p.depth
      exact ⟨_, _, _, Typing.check_ret_eq hc token hv hret, by rw [statement, htext], ⟨_, hrest⟩, hc,
        hnames.2, hvars⟩
  | @cond _ token e body body' _ _ he hbody hrest =>
      obtain ⟨v, hv⟩ := expression_ok he
      obtain ⟨Δ, hcheck⟩ := hbody.checkBody_eq hc hnames.1
      obtain ⟨text, vars, hinner, hvars'⟩ := block_ok (hbody.congr heq) hvars (p.depth + 1)
      exact ⟨_, _, vars, Typing.check_cond_eq hc token he hcheck, by rw [statement, hv, hinner],
        ⟨_, hrest⟩, hc, hnames.2, hvars'⟩

theorem Stands.body {token : Token} {condition : Node} {body rest : List Node}
    (h : Stands c p (.cond token condition body :: rest)) :
    check c p.scope condition = .ok ⟨condition, p.scope, some .bool⟩ ∧
      Stands c ⟨p.scope, p.vars, p.depth + 1⟩ body := by
  obtain ⟨⟨ns', htyped⟩, hc, hnames, hvars⟩ := h
  rw [boundByAll, namesOf, List.map_append, List.append_subset] at hnames
  cases htyped with
  | expr he _ => cases he
  | cond _ he hbody _ => exact ⟨he.check_eq hc, ⟨_, hbody⟩, hc, hnames.1, hvars⟩

/-- **Wherever the passes arrive, they know what they need.** -/
theorem Stands.reached (heq : k.program.map Node.signature? = c.program.map Node.signature?)
    {ns : List Node} {n : Node} (hreached : Reached c k p ns p' n) (h : Stands c p ns) :
    ∃ rest, Stands c p' (n :: rest) := by
  induction hreached with
  | here p n rest => exact ⟨rest, h⟩
  | later hcheck hwrite _ ih =>
      obtain ⟨d', text', vars', hcheck', hwrite', hstands⟩ := h.step heq
      cases hcheck.symm.trans hcheck'
      cases hwrite.symm.trans hwrite'
      exact ih hstands
  | inside hcheck _ ih =>
      obtain ⟨hcheck', hstands⟩ := h.body
      cases hcheck.symm.trans hcheck'
      exact ih hstands

/-- **The passes arrive at every statement of a body.** -/
theorem Stands.within (heq : k.program.map Node.signature? = c.program.map Node.signature?)
    {ns : List Node} {n : Node} (hwithin : Within n ns) (h : Stands c p ns) :
    ∃ p', Reached c k p ns p' n := by
  induction hwithin generalizing p with
  | here rest => exact ⟨p, .here p n rest⟩
  | later m _ ih =>
      obtain ⟨d, text, vars, hcheck, hwrite, hrest⟩ := h.step heq
      obtain ⟨p', hreached⟩ := ih hrest
      exact ⟨p', .later hcheck hwrite hreached⟩
  | inside token condition rest _ ih =>
      obtain ⟨hcheck, hbody⟩ := h.body
      obtain ⟨p', hreached⟩ := ih hbody
      exact ⟨p', .inside hcheck hreached⟩

/-- **A `print` that is reached is written with the conversion for the checker's type.** -/
theorem Stands.print (heq : k.program.map Node.signature? = c.program.map Node.signature?)
    {token : Token} {args rest : List Node} (h : Stands c p (.print token args :: rest)) :
    check c p.scope (.print token args) = .ok ⟨.print token args, p.scope, some .void⟩ ∧
      ∃ a more t v conversion argument, args = a :: more ∧
        check c p.scope a = .ok ⟨a, p.scope, some t⟩ ∧ typeOf k.program p.vars a = some t ∧
        expression a = .ok v ∧ Converts t v conversion argument ∧
        statement k p.vars p.depth (.print token args) =
          .ok (printed p.depth conversion argument, p.vars) := by
  obtain ⟨⟨ns', htyped⟩, hc, -, hvars⟩ := h
  cases htyped with
  | expr he _ => cases he
  | @print _ _ a more t _ _ ha hvoid _ =>
      obtain ⟨v, conversion, argument, hv, hconverts, htext⟩ :=
        printing_eq hvars (ha.congr heq) hvoid more p.depth
      refine ⟨Typing.check_print_eq hc token ha hvoid more, a, more, t, v, conversion, argument, rfl,
        ha.check_eq hc, typeOf_eq hvars (ha.congr heq), hv, hconverts, by rw [statement, htext]⟩

/-- **A binding that is reached is declared by the checker's type of its value.** -/
theorem Stands.assign (heq : k.program.map Node.signature? = c.program.map Node.signature?)
    {d : Decl} {v : Node} {rest : List Node} (h : Stands c p (.assign d v :: rest)) :
    ∃ t value type, check c p.scope v = .ok ⟨v, p.scope, some t⟩ ∧ expression v = .ok value ∧
      TypeName t type ∧
      check c p.scope (.assign d v) =
        .ok ⟨.assign { d with type := some t } v, (d.name.lexeme, t) :: p.scope, some t⟩ ∧
      statement k p.vars p.depth (.assign { d with type := some t } v) =
        .ok (declared p.depth d type value, (d.name.lexeme, some t) :: p.vars) := by
  obtain ⟨⟨ns', htyped⟩, hc, -, -⟩ := h
  cases htyped with
  | expr he _ => cases he
  | @assign _ _ _ t _ _ hv hvoid hd _ _ =>
      obtain ⟨value, type, hvalue, hname, hline⟩ :=
        statement_assign (hv.congr heq) d p.vars p.depth
      exact ⟨t, value, type, hv.check_eq hc, hvalue, hname, Typing.check_assign_eq hc hv hvoid hd, hline⟩

theorem Stands.ret (heq : k.program.map Node.signature? = c.program.map Node.signature?)
    {token : Token} {v : Node} {rest : List Node} (h : Stands c p (.ret token v :: rest)) :
    ∃ t, check c p.scope v = .ok ⟨v, p.scope, some t⟩ ∧ typeOf k.program p.vars v = some t := by
  obtain ⟨⟨ns', htyped⟩, hc, -, hvars⟩ := h
  cases htyped with
  | expr he _ => cases he
  | ret _ hv _ _ => exact ⟨_, hv.check_eq hc, typeOf_eq hvars (hv.congr heq)⟩

/-- What is reached has been checked and is written. -/
theorem Reached.written {ns : List Node} {n : Node} (h : Reached c k p ns p' n)
    {d : Typing.Done (List Node)} (hcheck : checkBody c p.scope ns = .ok d) {text : Bytes}
    {vars : Variables} (hwrite : block k p.vars p.depth d.tree = .ok (text, vars)) :
    ∃ d' text' vars', check c p'.scope n = .ok d' ∧
      statement k p'.vars p'.depth d'.tree = .ok (text', vars') ∧ text' <:+: text := by
  induction h generalizing d text vars with
  | here p n rest =>
      rw [checkBody] at hcheck
      split at hcheck
      · cases hcheck
      rename_i d₁ hd₁
      obtain ⟨d₂, -, rfl⟩ := within_eq_ok_iff.1 hcheck
      simp only [block] at hwrite
      split at hwrite
      · cases hwrite
      rename_i text₁ vars₁ hfirst
      split at hwrite
      · cases hwrite
      cases hwrite
      exact ⟨d₁, text₁, vars₁, hd₁, hfirst, (List.prefix_append _ _).isInfix⟩
  | later hn hfirst _ ih =>
      rw [checkBody, hn] at hcheck
      obtain ⟨d₂, hd₂, rfl⟩ := within_eq_ok_iff.1 hcheck
      simp only [block, hfirst] at hwrite
      split at hwrite
      · cases hwrite
      rename_i texts vars₂ hrest
      cases hwrite
      obtain ⟨d', text', vars', hd', htext', hpart⟩ := ih hd₂ hrest
      exact ⟨d', text', vars', hd', htext', hpart.trans (List.suffix_append _ _).isInfix⟩
  | inside hcondition _ ih =>
      rw [checkBody, check, hcondition] at hcheck
      simp only at hcheck
      split at hcheck
      · cases hcheck
      rename_i d₁ hd₁
      split at hd₁
      · cases hd₁
      split at hd₁
      · cases hd₁
      rename_i db hdb
      cases hd₁
      obtain ⟨d₂, -, rfl⟩ := within_eq_ok_iff.1 hcheck
      simp only [block, statement] at hwrite
      split at hwrite
      · cases hwrite
      rename_i textc varsc hwritec
      split at hwritec
      · cases hwritec
      split at hwritec
      · cases hwritec
      rename_i textb varsb hblock
      cases hwritec
      split at hwrite
      · cases hwrite
      cases hwrite
      obtain ⟨d', text', vars', hd', htext', hpart⟩ := ih hdb hblock
      refine ⟨d', text', vars', hd', htext', hpart.trans ?_⟩
      rw [List.append_assoc, List.append_assoc]
      exact (List.prefix_append _ _).isInfix.trans (List.suffix_append _ _).isInfix

end

/-! ## Programs -/

section

variable {entry : Bytes} {program tree : List Node}

theorem prototypes_ok (h : ∀ x s, lastSignature? tree x = some s → ∃ t, header entry s = .ok t)
    (names : List Bytes) : ∃ text, prototypes entry tree names = .ok text := by
  induction names with
  | nil => exact ⟨[], rfl⟩
  | cons name rest ih =>
      obtain ⟨text, htext⟩ := ih
      rw [prototypes]
      split
      · exact ⟨text, htext⟩
      split
      · exact ⟨text, htext⟩
      rename_i s hs
      obtain ⟨t, ht⟩ := h name s hs
      exact ⟨_, by rw [ht, htext]⟩

/-- The definitions are written if each of them is, and each stands in the text. -/
theorem definitions_ok {ns : List Node}
    (h : ∀ s body, .func s body ∈ ns → ∃ t, definition entry tree s body = .ok t) (isFirst : Bool) :
    ∃ text, definitions entry tree isFirst ns = .ok text ∧ ∀ s body t, .func s body ∈ ns →
      definition entry tree s body = .ok t → t <:+: text := by
  induction ns generalizing isFirst with
  | nil => exact ⟨[], rfl, by simp⟩
  | cons n rest ih =>
      obtain ⟨text, htext, hpart⟩ :=
        ih (fun s body hmem => h s body (List.mem_cons_of_mem _ hmem)) false
      cases n with
      | func s body =>
          obtain ⟨t, ht⟩ := h s body List.mem_cons_self
          refine ⟨_, by rw [definitions, ht, htext], fun s' body' t' hmem ht' => ?_⟩
          rcases List.mem_cons.1 hmem with heq | hmem
          · cases heq
            cases ht.symm.trans ht'
            exact List.infix_append _ _ _
          · exact (hpart s' body' t' hmem ht').trans (List.suffix_append _ _).isInfix
      | _ =>
          refine ⟨text, htext, fun s' body' t' hmem ht' => ?_⟩
          exact hpart s' body' t' ((List.mem_cons.1 hmem).resolve_left (by simp)) ht'

/-- The start of a body. -/
def Place.start (s : Signature) : Place := ⟨[], parameterTypes s, 1⟩

theorem Stands.start (hsigs : Signatures program) {s : Signature} {body body' : List Node}
    (hmem : .func s body ∈ program) (hbody : BodyTyped program s [] body body') :
    Stands (.of program s body) (.start s) body := by
  have hs := (hsigs _ hmem s rfl).1
  have hnodup : (namesOf s.params ++ Scope.names []).Nodup := by simpa using hs.nodup
  exact ⟨⟨body', hbody⟩, hsigs.fits hmem hnodup (List.nil_subset _), by simp [Typing.namesOf],
    covers_parameterTypes hs.nodup⟩

/-- **A typed body is written as the body of its function.** -/
theorem definition_ok (hsigs : Signatures program)
    (heq : tree.map Node.signature? = program.map Node.signature?) {s : Signature}
    {body body' : List Node} (hmem : .func s body ∈ program)
    (hbody : BodyTyped program s [] body body') (entry : Bytes) :
    ∃ t head text vars, definition entry tree s body' = .ok t ∧
      IsHeader entry s head ∧ head ++ utf8 " \x7b\n" <+: t ∧
      block ⟨entry, tree, s⟩ (parameterTypes s) 1 body' = .ok (text, vars) ∧ text <:+: t := by
  obtain ⟨hs, hret, hparams⟩ := hsigs _ hmem s rfl
  obtain ⟨text, vars, htext, -⟩ :=
    block_ok (k := ⟨entry, tree, s⟩) (hbody.congr heq) (covers_parameterTypes hs.nodup) 1
  obtain ⟨head, hhead⟩ := header_ok entry hparams hret
  have htext' := htext
  rw [parameterTypes] at htext'
  refine ⟨_, head, text, vars, by simp only [definition, htext', hhead]; rfl,
    header_eq_ok_iff.1 hhead, ?_, htext, ?_⟩
  · simp only [List.append_assoc, List.prefix_append_right_inj]
    exact List.prefix_append _ _
  · rw [List.append_assoc]
    exact List.infix_append _ _ _

/-- The signature by which a function goes has a header. -/
theorem header_of_last (hsigs : Signatures program)
    (heq : tree.map Node.signature? = program.map Node.signature?) {x : Bytes} {s : Signature}
    (hs : lastSignature? tree x = some s) (entry : Bytes) : ∃ t, header entry s = .ok t := by
  have hlast := (lastSignature?_eq_some_iff.1 hs).congr heq.symm
  obtain ⟨-, hret, hparams⟩ := hsigs.of_isLastItem hlast
  exact header_ok entry hparams hret

/-- The C source of a well-typed program is written, and every definition stands in it. -/
theorem program_ok (htyped : Typing.WellTyped entry program tree) (hsigs : Signatures program) :
    ∃ text, CSource.program entry tree = .ok text ∧ ∀ s body t, .func s body ∈ tree →
      definition entry tree s body = .ok t → t <:+: text := by
  have heq := htyped.map_signature?
  have hheaders : ∀ x s, lastSignature? tree x = some s → ∃ t, header entry s = .ok t :=
    fun x s hs => header_of_last hsigs heq hs entry
  have hdefined : ∀ s body', .func s body' ∈ tree → ∃ t, definition entry tree s body' = .ok t := by
    intro s body' hmem
    obtain ⟨n, hn, hitem⟩ := Typing.item_of_mem htyped.items hmem
    cases hitem with
    | func _ _ hbody =>
        obtain ⟨t, -, -, -, ht, -⟩ := definition_ok hsigs heq hn hbody entry
        exact ⟨t, ht⟩
  obtain ⟨protos, hprotos⟩ := prototypes_ok hheaders (functionNames tree)
  obtain ⟨defs, hdefs, hpart⟩ := definitions_ok hdefined true
  refine ⟨_, by simp only [CSource.program, hprotos, hdefs]; rfl, fun s body t hmem ht => ?_⟩
  exact (hpart s body t hmem ht).trans (List.suffix_append _ _).isInfix

/-- A function of a well-typed program is there with its types filled in. -/
theorem body_of_mem {ns ns' : List Node} (h : List.Forall₂ (Typing.ItemTyped program) ns ns')
    {s : Signature} {body : List Node} (hmem : .func s body ∈ ns) :
    ∃ body', .func s body' ∈ ns' ∧ BodyTyped program s [] body body' := by
  induction h with
  | nil => cases hmem
  | cons hn _ ih =>
      rcases List.mem_cons.1 hmem with rfl | hmem
      · cases hn with
        | func _ _ hbody => exact ⟨_, List.mem_cons_self, hbody⟩
      · obtain ⟨body', hmem', hbody⟩ := ih hmem
        exact ⟨body', List.mem_cons_of_mem _ hmem', hbody⟩

/-- **The C source of an accepted program is written, by the types that the checker found.** Both
passes arrive at every statement of every body. At each `print` the type found for the value is the
checker's, and the text has the conversion for it; at each `return` the type found for the value is the
checker's too. What a name is bound to has the C type of the checker's type, and the header of a function
has the C types of its signature. -/
theorem program_types {tokens : List Token} (hparse : Parsing.parse tokens = .ok program)
    (hanalyze : Typing.analyze entry program = .ok tree) :
    ∃ text, CSource.program entry tree = .ok text ∧ ∀ s body, .func s body ∈ program →
      (∀ n, Within n body →
        ∃ p, Reached (.of program s body) ⟨entry, tree, s⟩ (.start s) body p n) ∧
      (∀ p token args, Reached (.of program s body) ⟨entry, tree, s⟩ (.start s) body p
          (.print token args) →
        ∃ a more t v conversion argument, args = a :: more ∧
          check (.of program s body) p.scope a = .ok ⟨a, p.scope, some t⟩ ∧
          typeOf tree p.vars a = some t ∧ expression a = .ok v ∧
          Converts t v conversion argument ∧ printed p.depth conversion argument <:+: text) ∧
      (∀ p token v, Reached (.of program s body) ⟨entry, tree, s⟩ (.start s) body p (.ret token v) →
        ∃ t, check (.of program s body) p.scope v = .ok ⟨v, p.scope, some t⟩ ∧
          typeOf tree p.vars v = some t) ∧
      (∀ p d v, Reached (.of program s body) ⟨entry, tree, s⟩ (.start s) body p (.assign d v) →
        ∃ t value type, check (.of program s body) p.scope v = .ok ⟨v, p.scope, some t⟩ ∧
          expression v = .ok value ∧ TypeName t type ∧ declared p.depth d type value <:+: text) ∧
      ∃ head, IsHeader entry s head ∧ head ++ utf8 " \x7b\n" <:+: text := by
  have hshape := Parsing.parse_grown (fun _ _ => trivial) hparse
  have htyped : Typing.WellTyped entry program tree := .of_analyze hshape hanalyze
  have hsigs := htyped.signatures hshape
  have heq := htyped.map_signature?
  obtain ⟨whole, hwhole, hdefinitions⟩ := program_ok htyped hsigs
  refine ⟨whole, hwhole, fun s body hmem => ?_⟩
  obtain ⟨body', hmem', hbody⟩ := body_of_mem htyped.items hmem
  obtain ⟨t, head, text, vars, ht, hhead, hfront, htext, hinner⟩ :=
    definition_ok hsigs heq hmem hbody entry
  have hpart := hdefinitions s body' t hmem' ht
  have hstands : Stands (.of program s body) (.start s) body := .start hsigs hmem hbody
  have hwritten : ∀ {p n d line vars'},
      Reached (.of program s body) ⟨entry, tree, s⟩ (.start s) body p n →
      check (.of program s body) p.scope n = .ok d →
      statement ⟨entry, tree, s⟩ p.vars p.depth d.tree = .ok (line, vars') → line <:+: whole := by
    intro p n d line vars' hreached hcheck hline
    obtain ⟨Δ, hchecked⟩ := hbody.checkBody_eq hstands.fits hstands.names
    obtain ⟨d', line', vars'', hd, hwritten, hinfix⟩ := hreached.written hchecked htext
    cases hd.symm.trans hcheck
    cases hwritten.symm.trans hline
    exact hinfix.trans (hinner.trans hpart)
  refine ⟨fun n hn => hstands.within heq hn, ?_, ?_, ?_, head, hhead, hfront.isInfix.trans hpart⟩
  · intro p token args hreached
    obtain ⟨rest, hhere⟩ := hstands.reached heq hreached
    obtain ⟨hprint, a, more, t', v, conversion, argument, hargs, ha, htype, hv, hconverts, hline⟩ :=
      hhere.print (k := ⟨entry, tree, s⟩) heq
    exact ⟨a, more, t', v, conversion, argument, hargs, ha, htype, hv, hconverts,
      hwritten hreached hprint hline⟩
  · intro p token v hreached
    obtain ⟨rest, hhere⟩ := hstands.reached heq hreached
    exact hhere.ret (k := ⟨entry, tree, s⟩) heq
  · intro p d v hreached
    obtain ⟨rest, hhere⟩ := hstands.reached heq hreached
    obtain ⟨t', value, type, hv, hvalue, hname, hassign, hline⟩ :=
      hhere.assign (k := ⟨entry, tree, s⟩) heq
    exact ⟨t', value, type, hv, hvalue, hname, hwritten hreached hassign hline⟩

end

open Parsing in
/-- A name that is bound within an `if` is printed by the type of its value. -/
theorem program_types_halving :
    parse halvingTokens = .ok (halving none none) ∧
      Typing.analyze defaultEntry (halving none none) = .ok (halving (some .int) (some .string)) ∧
      ∃ text, CSource.program defaultEntry (halving (some .int) (some .string)) = .ok text ∧
        printed 2 (utf8 "%s") (utf8 "text") <:+: text := by
  have hanalyze : Typing.analyze defaultEntry (halving none none) =
      .ok (halving (some .int) (some .string)) := by rfl
  refine ⟨parse_halvingTokens, hanalyze, ?_⟩
  obtain ⟨text, htext, hplaces⟩ := program_types parse_halvingTokens hanalyze
  refine ⟨text, htext, ?_⟩
  obtain ⟨a, more, t, v, conversion, argument, hargs, -, htype, hv, hconverts, hpart⟩ :=
    (hplaces _ _ List.mem_cons_self).2.1 _ _ _
      (.later rfl rfl (.inside rfl (.later rfl rfl (.here _ _ _))))
  cases hargs
  cases htype
  cases hv
  cases hconverts
  exact hpart

end CSource

end Swiftlet
