import Mathlib.Data.List.Forall2
import Mathlib.Data.List.Nodup
import Swiftlet.Typing

/-!
# Well-typed programs

The type system as rules, independent of the order in which the checker looks at a program.

* `HasType program s Γ e t` — in the function of signature `s`, where the bindings `Γ` are visible,
  the expression `e` has type `t`. A name is a parameter or a visible binding; a call has the return
  type of the last top-level item of its name, and its arguments the types of the parameters.
* `BodyTyped program s Γ ns ns'` — the statements `ns` are well typed, and `ns'` is `ns` with the
  type of its value in every binding. A binding is visible from the next statement on, to the end of
  the body it stands in. There is no rule for a declaration without a value and none for a function,
  so a well-typed body holds neither.
* `WellTyped entry program tree` — the whole program is well typed, and `tree` is the program with
  all types filled in.

Principal results: `HasType.unique`, that an expression has one type, and `BodyTyped.resolved`, that
a body with its types filled in is well typed again and has nothing left to fill in.
-/

namespace Swiftlet

namespace Typing

/-- The names of declarations. -/
abbrev namesOf (ds : List Decl) : List Bytes := ds.map (·.name.lexeme)

/-- The visible names. -/
abbrev Scope.names (Γ : Scope) : List Bytes := Γ.map Prod.fst

/-! ## The rules -/

/-- `s` is the signature of the last top-level item called `name`. -/
def IsLastItem (program : List Node) (name : Bytes) (s : Signature) : Prop :=
  ∃ before item after, program = before ++ item :: after ∧ item.signature? = some s ∧
    s.name.lexeme = name ∧ ∀ n ∈ after, ∀ s', n.signature? = some s' → s'.name.lexeme ≠ name

inductive HasType (program : List Node) (s : Signature) (Γ : Scope) : Node → Ty → Prop where
  | int (t : Token) (v : Int32) : HasType program s Γ (.int t v) .int
  | float (t : Token) (v : Binary64) : HasType program s Γ (.float t v) .float
  | bool (t : Token) (v : Bool) : HasType program s Γ (.bool t v) .bool
  | string (t : Token) (v : Bytes) : HasType program s Γ (.string t v) .string
  | param {name : Token} {p : Decl} {t : Ty} (hp : p ∈ s.params)
      (hname : p.name.lexeme = name.lexeme) (ht : p.type = some t) :
      HasType program s Γ (.ref name) t
  | var {name : Token} {t : Ty} (hname : (name.lexeme, t) ∈ Γ) : HasType program s Γ (.ref name) t
  | binary {l r : Node} (op : Token) {t : Ty} (ht : t.isNumeric = true)
      (hl : HasType program s Γ l t) (hr : HasType program s Γ r t) :
      HasType program s Γ (.binary l op r) t
  | call {name : Token} {args : List Node} {callee : Signature} {ts : List Ty} {t : Ty}
      (hcallee : IsLastItem program name.lexeme callee)
      (hparams : callee.params.map Decl.type = ts.map some) (hlength : args.length = ts.length)
      (hargs : ∀ p ∈ args.zip ts, HasType program s Γ p.1 p.2) (hret : callee.ret = some t) :
      HasType program s Γ (.call name args) t

inductive BodyTyped (program : List Node) (s : Signature) :
    Scope → List Node → List Node → Prop where
  | nil (Γ : Scope) : BodyTyped program s Γ [] []
  | expr {Γ : Scope} {e : Node} {t : Ty} {ns ns' : List Node} (he : HasType program s Γ e t)
      (hrest : BodyTyped program s Γ ns ns') : BodyTyped program s Γ (e :: ns) (e :: ns')
  | assign {Γ : Scope} {d : Decl} {v : Node} {t : Ty} {ns ns' : List Node}
      (hv : HasType program s Γ v t) (hvoid : t ≠ .void) (hd : d.type = none ∨ d.type = some t)
      (hnew : d.name.lexeme ∉ namesOf s.params ++ Γ.names)
      (hrest : BodyTyped program s ((d.name.lexeme, t) :: Γ) ns ns') :
      BodyTyped program s Γ (.assign d v :: ns) (.assign { d with type := some t } v :: ns')
  | print {Γ : Scope} (token : Token) {a : Node} (more : List Node) {t : Ty} {ns ns' : List Node}
      (ha : HasType program s Γ a t) (hvoid : t ≠ .void) (hrest : BodyTyped program s Γ ns ns') :
      BodyTyped program s Γ (.print token (a :: more) :: ns) (.print token (a :: more) :: ns')
  | ret {Γ : Scope} (token : Token) {v : Node} {t : Ty} {ns ns' : List Node}
      (hv : HasType program s Γ v t) (hret : s.ret = some t)
      (hrest : BodyTyped program s Γ ns ns') :
      BodyTyped program s Γ (.ret token v :: ns) (.ret token v :: ns')
  | cond {Γ : Scope} (token : Token) {c : Node} {body body' ns ns' : List Node}
      (hc : HasType program s Γ c .bool) (hbody : BodyTyped program s Γ body body')
      (hrest : BodyTyped program s Γ ns ns') :
      BodyTyped program s Γ (.cond token c body :: ns) (.cond token c body' :: ns')

/-- Parameters have different names, and none is Void. -/
structure WellFormedSignature (s : Signature) : Prop where
  nodup : (namesOf s.params).Nodup
  storable : ∀ p ∈ s.params, p.type ≠ some .void

/-- A top-level item is a signature or a function, and a function's bindings have names that differ
from each other and from its parameters. -/
inductive ItemTyped (program : List Node) : Node → Node → Prop where
  | signature {s : Signature} (hs : WellFormedSignature s) :
      ItemTyped program (.signature s) (.signature s)
  | func {s : Signature} {body body' : List Node} (hs : WellFormedSignature s)
      (hnames : (namesOf (s.params ++ boundByAll body)).Nodup)
      (hbody : BodyTyped program s [] body body') :
      ItemTyped program (.func s body) (.func s body')

/-- The first item is the entry function, the only function of its name, which takes nothing and
returns nothing. -/
def EntryFirst (entry : Bytes) (program : List Node) : Prop :=
  ∃ s body rest, program = .func s body :: rest ∧ s.name.lexeme = entry ∧ s.params = [] ∧
    s.ret = some .void ∧ ∀ s' body', .func s' body' ∈ rest → s'.name.lexeme ≠ entry

structure WellTyped (entry : Bytes) (program tree : List Node) : Prop where
  entry : EntryFirst entry program
  items : List.Forall₂ (ItemTyped program) program tree

/-! ## Names and what they stand for -/

theorem mem_of_lookup {β : Type} {l : List (Bytes × β)} {x : Bytes} {v : β}
    (h : l.lookup x = some v) : (x, v) ∈ l := by
  obtain ⟨before, after, rfl, -⟩ := List.lookup_eq_some_iff.1 h
  simp

theorem lookup_eq_some_iff_mem {β : Type} {l : List (Bytes × β)} (hl : (l.map Prod.fst).Nodup)
    {x : Bytes} {v : β} : l.lookup x = some v ↔ (x, v) ∈ l := by
  induction l with
  | nil => simp
  | cons b l ih =>
      obtain ⟨y, w⟩ := b
      obtain ⟨hy, hl⟩ := List.nodup_cons.1 hl
      by_cases hxy : x = y
      · subst hxy
        have hmem : ∀ w', (x, w') ∉ l := fun w' h => hy (List.mem_map.2 ⟨_, h, rfl⟩)
        simp [hmem, eq_comm]
      · simp [List.lookup_cons, beq_eq_false_iff_ne.2 hxy, hxy, ih hl]

/-! ## The last item of a name -/

theorem lastSignature?_eq_some_iff {program : List Node} {name : Bytes} {s : Signature} :
    lastSignature? program name = some s ↔ IsLastItem program name s := by
  unfold lastSignature? IsLastItem
  rw [List.find?_eq_some_iff_append]
  constructor
  · rintro ⟨hname, after, before, heq, hafter⟩
    have hsplit : program.filterMap Node.signature? = before.reverse ++ s :: after.reverse := by
      rw [← List.reverse_reverse (program.filterMap Node.signature?), heq]
      simp
    obtain ⟨l, r, rfl, -, hr⟩ := List.filterMap_eq_append_iff.1 hsplit
    obtain ⟨skipped, item, rest, rfl, hskipped, hitem, hrest⟩ := List.filterMap_eq_cons_iff.1 hr
    refine ⟨l ++ skipped, item, rest, by simp, hitem, by simpa using hname, ?_⟩
    intro n hn s' hs'
    have hmem : s' ∈ after := by
      rw [← List.mem_reverse, ← hrest]
      exact List.mem_filterMap.2 ⟨n, hn, hs'⟩
    simpa using hafter s' hmem
  · rintro ⟨before, item, after, rfl, hitem, rfl, hafter⟩
    refine ⟨by simp, (after.filterMap Node.signature?).reverse,
      (before.filterMap Node.signature?).reverse, by simp [hitem], ?_⟩
    intro s' hs'
    obtain ⟨n, hn, hs'⟩ := List.mem_filterMap.1 (List.mem_reverse.1 hs')
    simpa using hafter n hn s' hs'

theorem IsLastItem.unique {program : List Node} {name : Bytes} {s s' : Signature}
    (h : IsLastItem program name s) (h' : IsLastItem program name s') : s = s' := by
  rw [← lastSignature?_eq_some_iff] at h h'
  exact Option.some.inj (h.symm.trans h')

theorem filterMap_signature?_congr {program program' : List Node}
    (heq : program'.map Node.signature? = program.map Node.signature?) :
    program'.filterMap Node.signature? = program.filterMap Node.signature? := by
  have hid : ∀ ns : List Node, ns.filterMap Node.signature? = (ns.map Node.signature?).filterMap id :=
    fun ns => by rw [List.filterMap_map]; rfl
  rw [hid, heq, ← hid]

/-- Which item is the last one is a matter of the signatures alone. -/
theorem IsLastItem.congr {program program' : List Node} {name : Bytes} {s : Signature}
    (heq : program'.map Node.signature? = program.map Node.signature?)
    (h : IsLastItem program name s) : IsLastItem program' name s := by
  rw [← lastSignature?_eq_some_iff] at h ⊢
  rw [lastSignature?, filterMap_signature?_congr heq]
  exact h

/-! ## Expressions -/

variable {program program' : List Node} {s : Signature} {Γ Δ : Scope}

theorem HasType.mono {n : Node} {t : Ty} (h : HasType program s Γ n t) (hsub : Γ ⊆ Δ) :
    HasType program s Δ n t := by
  induction h with
  | int t v => exact .int t v
  | float t v => exact .float t v
  | bool t v => exact .bool t v
  | string t v => exact .string t v
  | param hp hname ht => exact .param hp hname ht
  | var hname => exact .var (hsub hname)
  | binary op ht _ _ ihl ihr => exact .binary op ht ihl ihr
  | call hcallee hparams hlength _ hret ih => exact .call hcallee hparams hlength ih hret

theorem HasType.congr (heq : program'.map Node.signature? = program.map Node.signature?) {n : Node}
    {t : Ty} (h : HasType program s Γ n t) : HasType program' s Γ n t := by
  induction h with
  | int t v => exact .int t v
  | float t v => exact .float t v
  | bool t v => exact .bool t v
  | string t v => exact .string t v
  | param hp hname ht => exact .param hp hname ht
  | var hname => exact .var hname
  | binary op ht _ _ ihl ihr => exact .binary op ht ihl ihr
  | call hcallee hparams hlength _ hret ih =>
      exact .call (hcallee.congr heq) hparams hlength ih hret

/-- With one binding a name, a scope gives a name one type. -/
theorem Scope.type_unique (hΓ : Γ.names.Nodup) {x : Bytes} {t t' : Ty} (h : (x, t) ∈ Γ)
    (h' : (x, t') ∈ Γ) : t = t' :=
  congrArg Prod.snd (List.inj_on_of_nodup_map hΓ h h' rfl)

/-- **An expression has one type** where parameters and bindings have different names. -/
theorem HasType.unique (hΓ : (namesOf s.params ++ Γ.names).Nodup) {n : Node} {t t' : Ty}
    (h : HasType program s Γ n t) (h' : HasType program s Γ n t') : t = t' := by
  obtain ⟨hparams, hscope, hapart⟩ := List.nodup_append.1 hΓ
  induction h generalizing t' with
  | int | float | bool | string => cases h'; rfl
  | param hp hname ht =>
      cases h' with
      | param hp' hname' ht' =>
          have := List.inj_on_of_nodup_map hparams hp hp' (hname.trans hname'.symm)
          subst this
          exact Option.some.inj (ht.symm.trans ht')
      | var hname' =>
          exact absurd hname
            (hapart _ (List.mem_map_of_mem hp) _ (List.mem_map_of_mem hname'))
  | var hname =>
      cases h' with
      | param hp' hname' ht' =>
          exact absurd hname'
            (hapart _ (List.mem_map_of_mem hp') _ (List.mem_map_of_mem hname))
      | var hname' => exact Scope.type_unique hscope hname hname'
  | binary op ht hl hr ihl ihr =>
      cases h' with
      | binary _ _ hl' hr' => exact ihl hl'
  | call hcallee hps hlength hargs hret ih =>
      cases h' with
      | call hcallee' hps' hlength' hargs' hret' =>
          rw [hcallee.unique hcallee', hret'] at hret
          exact (Option.some.inj hret).symm

/-! ## Bodies -/

theorem BodyTyped.congr (heq : program'.map Node.signature? = program.map Node.signature?)
    {ns ns' : List Node} (h : BodyTyped program s Γ ns ns') : BodyTyped program' s Γ ns ns' := by
  induction h with
  | nil Γ => exact .nil Γ
  | expr he _ ih => exact .expr (he.congr heq) ih
  | assign hv hvoid hd hnew _ ih => exact .assign (hv.congr heq) hvoid hd hnew ih
  | print token more ha hvoid _ ih => exact .print token more (ha.congr heq) hvoid ih
  | ret token hv hret _ ih => exact .ret token (hv.congr heq) hret ih
  | cond token hc _ _ ihb ih => exact .cond token (hc.congr heq) ihb ih

/-- **A body with its types filled in is well typed, and filling them in again changes nothing.** -/
theorem BodyTyped.resolved {ns ns' : List Node} (h : BodyTyped program s Γ ns ns') :
    BodyTyped program s Γ ns' ns' := by
  induction h with
  | nil Γ => exact .nil Γ
  | expr he _ ih => exact .expr he ih
  | assign hv hvoid hd hnew _ ih => exact .assign hv hvoid (.inr rfl) hnew ih
  | print token more ha hvoid _ ih => exact .print token more ha hvoid ih
  | ret token hv hret _ ih => exact .ret token hv hret ih
  | cond token hc _ _ ihb ih => exact .cond token hc ihb ih

/-- Nothing in a typed expression binds a name. -/
theorem HasType.boundBy_eq_nil {n : Node} {t : Ty} (h : HasType program s Γ n t) :
    boundBy n = [] := by
  cases h <;> rfl

theorem BodyTyped.namesOf_boundByAll {ns ns' : List Node} (h : BodyTyped program s Γ ns ns') :
    namesOf (boundByAll ns') = namesOf (boundByAll ns) := by
  induction h with
  | nil Γ => rfl
  | expr he _ ih => simpa [boundByAll, he.boundBy_eq_nil] using ih
  | assign _ _ _ _ _ ih => simpa [boundByAll, boundBy] using ih
  | print _ _ _ _ _ ih => simpa [boundByAll, boundBy] using ih
  | ret _ _ _ _ ih => simpa [boundByAll, boundBy] using ih
  | cond _ _ _ _ ihb ih => simpa [boundByAll, boundBy] using congrArg₂ (· ++ ·) ihb ih

/-- A body with its types filled in binds values only. -/
theorem BodyTyped.bound_type {ns ns' : List Node} (h : BodyTyped program s Γ ns ns') :
    ∀ d ∈ boundByAll ns', ∃ t, d.type = some t ∧ t ≠ .void := by
  induction h with
  | nil Γ => simp [boundByAll]
  | expr he _ ih => simpa [boundByAll, he.boundBy_eq_nil] using ih
  | assign _ hvoid _ _ _ ih =>
      simp only [boundByAll, boundBy, List.cons_append, List.nil_append, List.forall_mem_cons]
      exact ⟨⟨_, rfl, hvoid⟩, ih⟩
  | print _ _ _ _ _ ih => simpa [boundByAll, boundBy] using ih
  | ret _ _ _ _ ih => simpa [boundByAll, boundBy] using ih
  | cond _ _ _ _ ihb ih =>
      simp only [boundByAll, boundBy, List.forall_mem_append]
      exact ⟨ihb, ih⟩

/-! ## Items -/

theorem ItemTyped.signature?_eq {n n' : Node} (h : ItemTyped program n n') :
    n'.signature? = n.signature? := by
  cases h <;> rfl

theorem map_signature?_of_items {ns ns' : List Node} (h : List.Forall₂ (ItemTyped program) ns ns') :
    ns'.map Node.signature? = ns.map Node.signature? := by
  induction h with
  | nil => rfl
  | cons hn _ ih => rw [List.map_cons, List.map_cons, hn.signature?_eq, ih]

theorem WellTyped.map_signature? {entry : Bytes} {tree : List Node}
    (h : WellTyped entry program tree) : tree.map Node.signature? = program.map Node.signature? :=
  map_signature?_of_items h.items

theorem item_of_mem {ns ns' : List Node} (h : List.Forall₂ (ItemTyped program) ns ns') {n' : Node}
    (hmem : n' ∈ ns') : ∃ n ∈ ns, ItemTyped program n n' := by
  induction h with
  | nil => cases hmem
  | cons hn _ ih =>
      rcases List.mem_cons.1 hmem with rfl | hmem
      · exact ⟨_, List.mem_cons_self, hn⟩
      · obtain ⟨n, hns, hitem⟩ := ih hmem
        exact ⟨n, List.mem_cons_of_mem _ hns, hitem⟩

/-- Every function of a resolved program has a well-typed body with nothing left to fill in. -/
theorem WellTyped.body {entry : Bytes} {tree : List Node} (h : WellTyped entry program tree)
    {s : Signature} {body : List Node} (hmem : .func s body ∈ tree) :
    WellFormedSignature s ∧ (namesOf (s.params ++ boundByAll body)).Nodup ∧
      BodyTyped tree s [] body body := by
  obtain ⟨n, -, hitem⟩ := item_of_mem h.items hmem
  cases hitem with
  | func hs hnames hbody =>
      refine ⟨hs, ?_, (hbody.congr h.map_signature?).resolved⟩
      have hsame := hbody.namesOf_boundByAll
      simp only [namesOf, List.map_append] at hnames hsame ⊢
      rwa [hsame]

end Typing

end Swiftlet
