import Swiftlet.Proofs.Lexing.Spelling
import Swiftlet.Proofs.Parsing.Acceptance
import Swiftlet.Proofs.Parsing.Shape

/-!
# Writing programs down

A tree is written with as few parentheses as keep its shape: around a left operand that binds looser
than its operator, and around a right operand that does not bind tighter. Statements are separated by
semicolons, and tokens by a blank where they would run together.

* `Node.tokens` and `source` — the tokens and the bytes of a tree.
* `Node.Writable` — a tree that the parser can build from a source text: its tokens have spellings, its
  literals have the values of their texts, parameters are annotated and so on.
* `Node.unplaced` — a tree without the positions of its tokens.

* `ReadsBack` — tokens that are the same as those of a tree, positions apart, derive a tree that is the
  same.

Principal results: `Node.Writable.lexemes`, that the tokens of a writable tree have spellings, and
`Node.Writable.readsBack`, that the grammar derives the tree from them.
-/

namespace Swiftlet

open Grammar Parsing

/-! ## Trees without positions -/

def Decl.unplaced (d : Decl) : Decl := { d with name := d.name.unplaced }

def Signature.unplaced (s : Signature) : Signature :=
  ⟨s.name.unplaced, s.params.map Decl.unplaced, s.ret⟩

mutual

/-- A tree without the positions of its tokens. -/
def Node.unplaced : Node → Node
  | .int t v => .int t.unplaced v
  | .float t v => .float t.unplaced v
  | .bool t v => .bool t.unplaced v
  | .string t v => .string t.unplaced v
  | .decl d => .decl d.unplaced
  | .assign d v => .assign d.unplaced v.unplaced
  | .binary l op r => .binary l.unplaced op.unplaced r.unplaced
  | .ref name => .ref name.unplaced
  | .call name args => .call name.unplaced (unplacedAll args)
  | .signature s => .signature s.unplaced
  | .func s body => .func s.unplaced (unplacedAll body)
  | .cond t c body => .cond t.unplaced c.unplaced (unplacedAll body)
  | .ret t v => .ret t.unplaced v.unplaced
  | .print t args => .print t.unplaced (unplacedAll args)

def unplacedAll : List Node → List Node
  | [] => []
  | n :: ns => n.unplaced :: unplacedAll ns

end

@[simp] theorem unplacedAll_eq_map (ns : List Node) : unplacedAll ns = ns.map Node.unplaced := by
  induction ns with
  | nil => rfl
  | cons n ns ih => rw [unplacedAll, ih, List.map_cons]

/-! ## The tokens of a tree -/

/-- Tokens between two marks. -/
def enclosed (l r : Punct) (ts : List Token) : List Token :=
  fixed (.punct l) :: (ts ++ [fixed (.punct r)])

/-- Tokens in parentheses if they need them. -/
def parenthesized (needed : Bool) (ts : List Token) : List Token :=
  if needed then enclosed .leftParen .rightParen ts else ts

/-- Pieces with a mark between them. -/
def separated (p : Punct) : List (List Token) → List Token
  | [] => []
  | [ts] => ts
  | ts :: us :: rest => ts ++ fixed (.punct p) :: separated p (us :: rest)

def typeTokens : Option Ty → List Token
  | none => []
  | some t => [fixed (.punct .colon), fixed (.keyword (.type t))]

/-- A name and its type. -/
def Decl.tokens (d : Decl) : List Token := d.name :: typeTokens d.type

def bindingKeyword (mutable : Bool) : Keyword := if mutable then .varBinding else .letBinding

/-- A `let` or `var` up to its type. -/
def Decl.bindingTokens (d : Decl) : List Token :=
  fixed (.keyword (bindingKeyword d.mutable)) :: d.tokens

/-- A return type; `Void` is left out. -/
def returnTokens : Option Ty → List Token
  | none | some .void => []
  | some t => [fixed (.punct .arrow), fixed (.keyword (.type t))]

def Signature.tokens (s : Signature) : List Token :=
  s.name :: (enclosed .leftParen .rightParen (separated .comma (s.params.map Decl.tokens)) ++
    returnTokens s.ret)

/-- How tightly the operator of a tree binds. -/
def Node.precedence? : Node → Option Int
  | .binary _ op _ => some op.kind.precedence
  | _ => none

mutual

def Node.tokens : Node → List Token
  | .int t _ | .float t _ | .bool t _ | .string t _ | .ref t => [t]
  | .decl d => d.bindingTokens
  | .assign d v => d.bindingTokens ++ fixed (.punct .equal) :: v.tokens
  | .binary l op r =>
    parenthesized (l.precedence?.any (· < op.kind.precedence)) l.tokens ++
      op :: parenthesized (r.precedence?.any (· ≤ op.kind.precedence)) r.tokens
  | .call name args => name :: enclosed .leftParen .rightParen (separated .comma (tokensAll args))
  | .signature s => fixed (.keyword .func) :: s.tokens
  | .func s body =>
    fixed (.keyword .func) ::
      (s.tokens ++ enclosed .leftBrace .rightBrace (separated .semicolon (tokensAll body)))
  | .cond t c body =>
    t :: (c.tokens ++ enclosed .leftBrace .rightBrace (separated .semicolon (tokensAll body)))
  | .ret t v => t :: v.tokens
  | .print t args => t :: enclosed .leftParen .rightParen (separated .comma (tokensAll args))

def tokensAll : List Node → List (List Token)
  | [] => []
  | n :: ns => n.tokens :: tokensAll ns

end

@[simp] theorem tokensAll_eq_map (ns : List Node) : tokensAll ns = ns.map Node.tokens := by
  induction ns with
  | nil => rfl
  | cons n ns ih => rw [tokensAll, ih, List.map_cons]

/-- A program as source text. -/
def source (ns : List Node) : Bytes := spell (separated .semicolon (tokensAll ns))

/-! ## Trees that can be written down -/

/-- A token of kind `k` with a spelling. -/
structure Token.Spells (k : Token.Kind) (t : Token) : Prop where
  kind : t.kind = k
  lexeme : t.IsLexeme

structure Signature.Writable (s : Signature) : Prop where
  name : s.name.Spells .identifier
  params : ∀ p ∈ s.params, p.mutable = false ∧ p.name.Spells .identifier ∧ p.type.isSome
  ret : s.ret.isSome

inductive Node.WritableExpr : Node → Prop where
  | int {t : Token} {v : Int32} (ht : t.Spells .int) (hv : Numeral.int32? t.lexeme = some v) :
      WritableExpr (.int t v)
  | float {t : Token} {v : Binary64} (ht : t.Spells .float)
      (hv : Numeral.double? t.lexeme = some v) : WritableExpr (.float t v)
  | bool {t : Token} {v : Bool} (ht : t.Spells (.bool v)) : WritableExpr (.bool t v)
  | string {t : Token} (ht : t.Spells .string) :
      WritableExpr (.string t (Bytes.without Bytes.quote t.lexeme))
  | ref {name : Token} (hname : name.Spells .identifier) : WritableExpr (.ref name)
  | call {name : Token} {args : List Node} (hname : name.Spells .identifier)
      (hargs : ∀ a ∈ args, WritableExpr a) : WritableExpr (.call name args)
  | binary {l r : Node} {op : Token} {o : Operator} (hop : op.Spells (.operator o))
      (hl : WritableExpr l) (hr : WritableExpr r) : WritableExpr (.binary l op r)

inductive Node.Writable : Node → Prop where
  | expr {e : Node} (he : e.WritableExpr) : Writable e
  | decl {d : Decl} (hname : d.name.Spells .identifier) (htype : d.type.isSome) :
      Writable (.decl d)
  | assign {d : Decl} {v : Node} (hname : d.name.Spells .identifier) (hv : v.WritableExpr) :
      Writable (.assign d v)
  | signature {s : Signature} (hs : s.Writable) : Writable (.signature s)
  | func {s : Signature} {body : List Node} (hs : s.Writable) (hbody : ∀ n ∈ body, Writable n) :
      Writable (.func s body)
  | cond {t : Token} {c : Node} {body : List Node} (ht : t.Spells (.keyword .ifBranch))
      (hc : c.WritableExpr) (hbody : ∀ n ∈ body, Writable n) : Writable (.cond t c body)
  | ret {t : Token} {v : Node} (ht : t.Spells (.keyword .returning)) (hv : v.WritableExpr) :
      Writable (.ret t v)
  | print {t : Token} {args : List Node} (ht : t.Spells (.keyword .printing))
      (hargs : ∀ a ∈ args, a.WritableExpr) : Writable (.print t args)

theorem isDigit_char_digitChar : ∀ d < 10, Bytes.isDigit (Bytes.char (Nat.digitChar d)) = true ∧
    (Bytes.char (Nat.digitChar d)).toNat - 48 = d := by decide

/-- The decimal text of a number consists of digits and has its value. -/
theorem digitsValue_ofNat (n : Nat) :
    (∀ b ∈ Bytes.ofNat n, Bytes.isDigit b = true) ∧ Bytes.digitsValue (Bytes.ofNat n) = n := by
  induction n using Nat.strongRecOn with
  | ind n ih =>
      obtain ⟨hdigit, hvalue⟩ := isDigit_char_digitChar (n % 10) (Nat.mod_lt n (by decide))
      rw [Bytes.ofNat, Nat.toDigits_eq_if (by decide)]
      split
      · rename_i hlt
        rw [Nat.mod_eq_of_lt hlt] at hdigit hvalue
        exact ⟨by simpa using hdigit, by simpa [Bytes.digitsValue] using hvalue⟩
      · rename_i hle
        obtain ⟨ihdigits, ihvalue⟩ := ih (n / 10) (by omega)
        rw [List.map_append]
        refine ⟨List.forall_mem_append.2 ⟨ihdigits, by simpa using hdigit⟩, ?_⟩
        rw [Bytes.digitsValue, List.foldl_append]
        have hfold : ((Nat.toDigits 10 (n / 10)).map Bytes.char).foldl
            (fun n b => 10 * n + (b.toNat - 48)) 0 = n / 10 := ihvalue
        simp only [hfold, List.map_cons, List.map_nil, List.foldl_cons, List.foldl_nil, hvalue]
        omega

/-- Digits alone have no sign. -/
theorem int?_of_isDigit {w : Bytes} (hne : w ≠ []) (h : ∀ b ∈ w, Bytes.isDigit b = true) :
    Numeral.int? w = some (Bytes.digitsValue w : Int) := by
  have hsign : Numeral.splitSign w = (false, w) := by
    unfold Numeral.splitSign
    split
    · exact absurd (h 43 List.mem_cons_self) (by decide)
    · exact absurd (h 45 List.mem_cons_self) (by decide)
    · rfl
  rw [Numeral.int?, hsign]
  exact if_pos ⟨hne, List.all_eq_true.2 h⟩

/-- **Every value from 0 to 2147483647 has a literal**, its decimal text. -/
theorem Node.writableExpr_int {n : Nat} (h : n ≤ 2147483647) (pos : Pos) :
    (Node.int ⟨.int, Bytes.ofNat n, pos⟩ (Int32.ofInt n)).WritableExpr := by
  obtain ⟨hdigits, hvalue⟩ := digitsValue_ofNat n
  have hne : Bytes.ofNat n ≠ [] := by
    rw [Bytes.ofNat, Nat.toDigits_eq_if (by decide)]
    split <;> simp
  refine .int ⟨rfl, hne, hdigits⟩ ?_
  simp only [Numeral.int32?, int?_of_isDigit hne hdigits, hvalue]
  exact if_pos ⟨by omega, by omega⟩

/-! ## A writable tree has writable tokens -/

/-- Every token has a spelling. -/
def Lexemes (ts : List Token) : Prop := ∀ t ∈ ts, t.IsLexeme

theorem Lexemes.nil : Lexemes [] := List.forall_mem_nil _

theorem Lexemes.append {ts us : List Token} (hts : Lexemes ts) (hus : Lexemes us) :
    Lexemes (ts ++ us) :=
  List.forall_mem_append.2 ⟨hts, hus⟩

theorem Lexemes.cons {t : Token} {ts : List Token} (ht : t.IsLexeme) (hts : Lexemes ts) :
    Lexemes (t :: ts) :=
  List.forall_mem_cons.2 ⟨ht, hts⟩

theorem Lexemes.enclosed {ts : List Token} (l r : Punct) (h : Lexemes ts) :
    Lexemes (enclosed l r ts) :=
  .cons rfl (h.append (.cons rfl .nil))

theorem Lexemes.parenthesized {ts : List Token} (needed : Bool) (h : Lexemes ts) :
    Lexemes (parenthesized needed ts) := by
  unfold Swiftlet.parenthesized
  split
  · exact h.enclosed _ _
  · exact h

theorem Lexemes.separated {p : Punct} {tss : List (List Token)} (h : ∀ ts ∈ tss, Lexemes ts) :
    Lexemes (separated p tss) := by
  fun_induction Swiftlet.separated p tss with
  | case1 => exact .nil
  | case2 ts => exact h ts List.mem_cons_self
  | case3 ts us rest ih =>
      rw [List.forall_mem_cons] at h
      exact h.1.append (.cons rfl (ih h.2))

theorem lexemes_typeTokens (type : Option Ty) : Lexemes (typeTokens type) := by
  cases type with
  | none => exact .nil
  | some t => exact .cons rfl (.cons rfl .nil)

theorem Decl.lexemes {d : Decl} (h : d.name.Spells .identifier) : Lexemes d.tokens :=
  .cons h.lexeme (lexemes_typeTokens d.type)

theorem lexemes_returnTokens (ret : Option Ty) : Lexemes (returnTokens ret) := by
  unfold returnTokens
  split
  · exact .nil
  · exact .nil
  · exact .cons rfl (.cons rfl .nil)

theorem Signature.Writable.lexemes {s : Signature} (h : s.Writable) : Lexemes s.tokens := by
  refine .cons h.name.lexeme (.append (.enclosed _ _ (.separated ?_)) (lexemes_returnTokens s.ret))
  refine List.forall_mem_map.2 fun p hp => Decl.lexemes (h.params p hp).2.1

theorem Node.WritableExpr.lexemes {n : Node} (h : n.WritableExpr) : Lexemes n.tokens := by
  induction h with
  | int ht | float ht | bool ht | string ht | ref ht =>
      exact .cons ht.lexeme .nil
  | call hname _ ih =>
      rw [Node.tokens, tokensAll_eq_map]
      exact .cons hname.lexeme (.enclosed _ _ (.separated (List.forall_mem_map.2 ih)))
  | binary hop _ _ ihl ihr =>
      rw [Node.tokens]
      exact (ihl.parenthesized _).append (.cons hop.lexeme (ihr.parenthesized _))

theorem Node.Writable.lexemes {n : Node} (h : n.Writable) : Lexemes n.tokens := by
  induction h with
  | expr he => exact he.lexemes
  | decl hname _ => exact .cons rfl (Decl.lexemes hname)
  | assign hname hv =>
      exact .append (.cons rfl (Decl.lexemes hname)) (.cons rfl hv.lexemes)
  | signature hs => exact .cons rfl hs.lexemes
  | func hs _ ih =>
      rw [Node.tokens, tokensAll_eq_map]
      exact .cons rfl (hs.lexemes.append (.enclosed _ _ (.separated (List.forall_mem_map.2 ih))))
  | cond ht hc _ ih =>
      rw [Node.tokens, tokensAll_eq_map]
      exact .cons ht.lexeme
        (hc.lexemes.append (.enclosed _ _ (.separated (List.forall_mem_map.2 ih))))
  | ret ht hv => exact .cons ht.lexeme hv.lexemes
  | print ht hargs =>
      rw [Node.tokens, tokensAll_eq_map]
      exact .cons ht.lexeme
        (.enclosed _ _ (.separated (List.forall_mem_map.2 fun a ha => (hargs a ha).lexemes)))

/-! ## Reading a tree back -/

/-- The same tokens, positions apart. -/
def Same (us ts : List Token) : Prop := us.map Token.unplaced = ts.map Token.unplaced

theorem Same.of_append {us ts ts' : List Token} (h : Same us (ts ++ ts')) :
    ∃ vs vs', us = vs ++ vs' ∧ Same vs ts ∧ Same vs' ts' := by
  unfold Same at h
  rw [List.map_append] at h
  obtain ⟨vs, vs', rfl, hvs, hvs'⟩ := List.map_eq_append_iff.1 h
  exact ⟨vs, vs', rfl, hvs, hvs'⟩

theorem Same.of_cons {us ts : List Token} {t : Token} (h : Same us (t :: ts)) :
    ∃ u vs, us = u :: vs ∧ u.unplaced = t.unplaced ∧ Same vs ts := by
  obtain ⟨u, vs, rfl, hu, hvs⟩ := List.map_eq_cons_iff.1 h
  exact ⟨u, vs, rfl, hu, hvs⟩

theorem Same.of_nil {us : List Token} (h : Same us []) : us = [] := List.map_eq_nil_iff.1 h

theorem kind_of_unplaced {u t : Token} (h : u.unplaced = t.unplaced) : u.kind = t.kind := by
  rw [← u.unplaced_kind, h, t.unplaced_kind]

theorem lexeme_of_unplaced {u t : Token} (h : u.unplaced = t.unplaced) : u.lexeme = t.lexeme := by
  rw [← u.unplaced_lexeme, h, t.unplaced_lexeme]

theorem Same.of_enclosed {us ts : List Token} {l r : Punct} (h : Same us (enclosed l r ts)) :
    ∃ a vs b, us = a :: (vs ++ [b]) ∧ a.kind = .punct l ∧ b.kind = .punct r ∧ Same vs ts := by
  obtain ⟨a, _, rfl, ha, hus⟩ := h.of_cons
  obtain ⟨vs, _, rfl, hvs, hus⟩ := hus.of_append
  obtain ⟨b, _, rfl, hb, hus⟩ := hus.of_cons
  obtain rfl := hus.of_nil
  exact ⟨a, vs, b, rfl, kind_of_unplaced ha, kind_of_unplaced hb, hvs⟩

/-- The tokens derive the phrase in front of anything but a parenthesis. -/
def Spans (p : Phrase) (ts : List Token) : Prop :=
  ∀ rest, NotCalled rest → Derives p (ts ++ rest) rest

/-- Tokens that are the same as `ts`, positions apart, derive a phrase that is the same as that of
`x`. -/
def ReadsBack {α : Type} (phrase : α → Phrase) (unplaced : α → α) (x : α) (ts : List Token) : Prop :=
  ∀ us, Same us ts → ∃ y, unplaced y = unplaced x ∧ Spans (phrase y) us

theorem notCalled_cons {t : Token} {k : Token.Kind} (ts : List Token) (ht : t.kind = k)
    (hk : k ≠ .punct .leftParen) : NotCalled (t :: ts) := by
  rintro _ ⟨⟩
  rwa [ht]

theorem Same.notCalled {us ts : List Token} {l r : Punct} (h : Same us (enclosed l r ts))
    (hl : l ≠ .leftParen) (rest : List Token) : NotCalled (us ++ rest) := by
  obtain ⟨a, vs, b, rfl, ha, -⟩ := h.of_enclosed
  exact notCalled_cons _ ha (by simp [hl])

/-! ### Lists -/

/-- A list can be put behind another one. -/
def Grammar.Phrase.Extends (mid rest : List Token) : Phrase → Prop
  | .list es' => ∀ {es : List Node} {ts : List Token} {sep : Token},
      Derives (.list es) ts (sep :: mid) → sep.kind = .punct .comma →
        Derives (.list (es ++ es')) ts rest
  | .params ps' => ∀ {ps : List Decl} {ts : List Token} {sep : Token},
      Derives (.params ps) ts (sep :: mid) → sep.kind = .punct .comma →
        Derives (.params (ps ++ ps')) ts rest
  | .statements ns' => ∀ {ns : List Node} {ts : List Token},
      Derives (.statements ns) ts mid → Derives (.statements (ns ++ ns')) ts rest
  | _ => True

theorem Grammar.Derives.extends {p : Phrase} {mid rest : List Token} (h : Derives p mid rest) :
    p.Extends mid rest := by
  induction h with
  | one he => exact fun hes hsep => .more hes hsep he
  | more _ hcomma he ih =>
      intro es ts sep hes hsep
      rw [← List.append_assoc]
      exact .more (ih hes hsep) hcomma he
  | param hname hcolon htype => exact fun hps hsep => .nextParam hps hsep hname hcolon htype
  | nextParam _ hcomma hname hcolon htype ih =>
      intro ps ts sep hps hsep
      rw [← List.append_assoc]
      exact .nextParam (ih hps hsep) hcomma hname hcolon htype
  | nil =>
      intro ns ts hns
      rwa [List.append_nil]
  | semicolon _ ht ih => exact fun hns => .semicolon (ih hns) ht
  | next _ hn ih =>
      intro ns ts hns
      rw [← List.append_assoc]
      exact .next (ih hns) hn
  | _ => trivial

/-- What holds of every piece holds of the pieces with a mark between them. -/
theorem readsBack_separated {α : Type} (phrase : List α → Phrase) {unplaced : α → α}
    {tokens : α → List Token} {p : Punct} (hp : p ≠ .leftParen)
    (happend : ∀ {xs ys : List α} {sep : Token} {ts mid rest : List Token},
      Derives (phrase xs) ts (sep :: mid) → sep.kind = .punct p → Derives (phrase ys) mid rest →
        Derives (phrase (xs ++ ys)) ts rest)
    {x : α} {xs : List α}
    (h : ∀ y ∈ x :: xs, ReadsBack (fun z => phrase [z]) unplaced y (tokens y)) :
    ReadsBack phrase (List.map unplaced) (x :: xs) (separated p ((x :: xs).map tokens)) := by
  induction xs generalizing x with
  | nil =>
      intro us hus
      obtain ⟨y, hy, hspans⟩ := h x List.mem_cons_self us hus
      exact ⟨[y], by simp [hy], hspans⟩
  | cons x' xs ih =>
      intro us hus
      rw [List.forall_mem_cons] at h
      obtain ⟨vs, _, rfl, hvs, hus⟩ := hus.of_append
      obtain ⟨sep, ws, rfl, hsep, hws⟩ := hus.of_cons
      obtain ⟨y, hy, hspans⟩ := h.1 vs hvs
      obtain ⟨ys, hys, hspans'⟩ := ih h.2 ws hws
      have hkind : sep.kind = .punct p := kind_of_unplaced hsep
      refine ⟨y :: ys, by simp only [List.map_cons, hy, hys], fun rest hrest => ?_⟩
      rw [List.append_assoc]
      have hnot : NotCalled (sep :: (ws ++ rest)) := notCalled_cons _ hkind (by simp [hp])
      exact happend (hspans _ hnot) hkind (hspans' rest hrest)

/-! ### Expressions -/

/-- Whether what holds together as tightly as `l` can stand where `l'` is wanted. -/
def Grammar.Level.fits : Level → Level → Bool
  | .operand, _ | .product, .product | _, .sum => true
  | _, _ => false

theorem Grammar.Level.fits_sum (l : Level) : l.fits .sum = true := by
  cases l <;> rfl

theorem Grammar.Derives.raise {l l' : Level} {e : Node} {ts rest : List Token}
    (h : Derives (.expr l e) ts rest) (hl : l.fits l' = true) : Derives (.expr l' e) ts rest := by
  cases l with
  | operand => exact h.ofOperand l'
  | product => exact h.ofProduct (by rintro rfl; cases hl)
  | sum =>
      cases l' with
      | sum => exact h
      | operand | product => cases hl

/-- How tightly an operation holds together. -/
def Operator.level : Operator → Level
  | .plus | .minus => .sum
  | .star | .slash => .product

/-- What the right operand of an operator has to be. -/
def Operator.rightLevel : Operator → Level
  | .plus | .minus => .product
  | .star | .slash => .operand

/-- How tightly a tree holds together. -/
def Node.level : Node → Level
  | .binary _ op _ =>
    match op.kind with
    | .operator o => o.level
    | _ => .sum
  | _ => .operand

theorem Grammar.Derives.binary {op : Token} {o : Operator} {ts mid rest : List Token} {l r : Node}
    (hop : op.kind = .operator o) (hl : Derives (.expr o.level l) ts (op :: mid))
    (hr : Derives (.expr o.rightLevel r) mid rest) :
    Derives (.expr o.level (.binary l op r)) ts rest := by
  cases o with
  | plus | minus => exact .plus hl (by rw [hop]; rfl) hr
  | star | slash => exact .times hl (by rw [hop]; rfl) hr

/-- An operand that binds at least as tightly as an operator is held together by an operator. -/
theorem operator_of_precedence_le {k : Token.Kind} {o : Operator}
    (h : (Token.Kind.operator o).precedence ≤ k.precedence) : ∃ o', k = .operator o' := by
  cases k with
  | operator o' => exact ⟨o', rfl⟩
  | _ => cases o <;> simp [Token.Kind.precedence, Operator.precedence] at h

/-- A left operand that needs no parentheses fits. -/
theorem Node.level_fits_left {n : Node} {o : Operator}
    (h : n.precedence?.any (· < (Token.Kind.operator o).precedence) = false) :
    n.level.fits o.level = true := by
  cases n with
  | binary l op r =>
      simp only [Node.precedence?, Option.any_some, decide_eq_false_iff_not, Int.not_lt] at h
      obtain ⟨o', ho'⟩ := operator_of_precedence_le h
      rw [ho'] at h
      rw [Node.level, ho']
      cases o <;> cases o' <;> first | rfl | exact absurd h (by decide)
  | _ => rfl

/-- A right operand that needs no parentheses fits. -/
theorem Node.level_fits_right {n : Node} {o : Operator}
    (h : n.precedence?.any (· ≤ (Token.Kind.operator o).precedence) = false) :
    n.level.fits o.rightLevel = true := by
  cases n with
  | binary l op r =>
      simp only [Node.precedence?, Option.any_some, decide_eq_false_iff_not, Int.not_le] at h
      obtain ⟨o', ho'⟩ := operator_of_precedence_lt h
      rw [ho'] at h
      rw [Node.level, ho']
      cases o <;> cases o' <;> first | rfl | exact absurd h (by decide)
  | _ => rfl

theorem ReadsBack.raise {f : Node → Node} {n : Node} {l l' : Level} {ts : List Token}
    (h : ReadsBack (.expr l) f n ts) (hl : l.fits l' = true) : ReadsBack (.expr l') f n ts := by
  intro us hus
  obtain ⟨m, hm, hspans⟩ := h us hus
  exact ⟨m, hm, fun rest hrest => (hspans rest hrest).raise hl⟩

theorem ReadsBack.parenthesized {n : Node} {l : Level} {needed : Bool}
    (h : ReadsBack (.expr n.level) Node.unplaced n n.tokens)
    (hl : needed = false → n.level.fits l = true) :
    ReadsBack (.expr l) Node.unplaced n (parenthesized needed n.tokens) := by
  cases needed with
  | false => exact h.raise (hl rfl)
  | true =>
      intro us hus
      obtain ⟨a, vs, b, rfl, ha, hb, hvs⟩ := Same.of_enclosed hus
      obtain ⟨m, hm, hspans⟩ := h.raise n.level.fits_sum vs hvs
      refine ⟨m, hm, fun rest _ => ?_⟩
      rw [List.cons_append, List.append_assoc]
      exact (Derives.paren ha (hspans _ (notCalled_cons _ hb (by simp))) hb).ofOperand l

theorem readsBack_token {f : Node → Node} {n : Node} (make : Token → Node) {t : Token}
    (h : ∀ u, u.unplaced = t.unplaced → f (make u) = f n ∧
      ∀ rest, NotCalled rest → Derives (.expr .operand (make u)) (u :: rest) rest) :
    ReadsBack (.expr .operand) f n [t] := by
  intro us hus
  obtain ⟨u, _, rfl, hu, hus⟩ := hus.of_cons
  obtain rfl := hus.of_nil
  exact ⟨make u, h u hu⟩

theorem readsBack_arguments {f : Node → Node} {level : Node → Level} {tokens : Node → List Token}
    {args : List Node} (h : ∀ a ∈ args, ReadsBack (.expr (level a)) f a (tokens a)) :
    ReadsBack .arguments (List.map f) args
      (enclosed .leftParen .rightParen (separated .comma (args.map tokens))) := by
  intro us hus
  obtain ⟨a, vs, b, rfl, ha, hb, hvs⟩ := hus.of_enclosed
  cases args with
  | nil =>
      obtain rfl := hvs.of_nil
      exact ⟨[], rfl, fun rest _ => .noArguments ha hb⟩
  | cons e args =>
      have hone : ∀ e' ∈ e :: args, ReadsBack (fun e => .list [e]) f e' (tokens e') := by
        intro e' he' us hus
        obtain ⟨m, hm, hspans⟩ := (h e' he').raise (level e').fits_sum us hus
        exact ⟨m, hm, fun rest hrest => .one (hspans rest hrest)⟩
      obtain ⟨es, hes, hspans⟩ :=
        readsBack_separated .list (by simp) (fun hxs hsep hys => hys.extends hxs hsep) hone vs hvs
      refine ⟨es, hes, fun rest _ => ?_⟩
      rw [List.cons_append, List.append_assoc]
      exact .arguments ha (hspans _ (notCalled_cons _ hb (by simp))) hb

theorem Node.WritableExpr.readsBack {n : Node} (h : n.WritableExpr) :
    ReadsBack (.expr n.level) Node.unplaced n n.tokens := by
  induction h with
  | @int t v ht hv =>
      refine readsBack_token (.int · v) fun u hu => ⟨by simp [Node.unplaced, hu], fun rest _ => ?_⟩
      exact .int ((kind_of_unplaced hu).trans ht.kind) ((lexeme_of_unplaced hu).symm ▸ hv)
  | @float t v ht hv =>
      refine readsBack_token (.float · v) fun u hu => ⟨by simp [Node.unplaced, hu], fun rest _ => ?_⟩
      exact .float ((kind_of_unplaced hu).trans ht.kind) ((lexeme_of_unplaced hu).symm ▸ hv)
  | @bool t v ht =>
      refine readsBack_token (.bool · v) fun u hu => ⟨by simp [Node.unplaced, hu], fun rest _ => ?_⟩
      exact .bool ((kind_of_unplaced hu).trans ht.kind)
  | @string t ht =>
      refine readsBack_token (.string · (Bytes.without Bytes.quote t.lexeme))
        fun u hu => ⟨by simp [Node.unplaced, hu], fun rest _ => ?_⟩
      rw [← lexeme_of_unplaced hu]
      exact .string ((kind_of_unplaced hu).trans ht.kind)
  | @ref name hname =>
      refine readsBack_token .ref fun u hu => ⟨by simp [Node.unplaced, hu], fun rest hrest => ?_⟩
      exact .ref ((kind_of_unplaced hu).trans hname.kind) hrest
  | @call name args hname _ ih =>
      intro us hus
      rw [Node.tokens, tokensAll_eq_map] at hus
      obtain ⟨u, vs, rfl, hu, hvs⟩ := hus.of_cons
      obtain ⟨es, hes, hspans⟩ := readsBack_arguments ih vs hvs
      refine ⟨.call u es, by simp [Node.unplaced, hu, hes], fun rest hrest => ?_⟩
      exact .call ((kind_of_unplaced hu).trans hname.kind) (hspans rest hrest)
  | @binary l r op o hop _ _ ihl ihr =>
      intro us hus
      rw [Node.tokens, hop.kind] at hus
      obtain ⟨vs, _, rfl, hvs, hus⟩ := hus.of_append
      obtain ⟨u, ws, rfl, hu, hws⟩ := hus.of_cons
      have hkind : u.kind = .operator o := (kind_of_unplaced hu).trans hop.kind
      obtain ⟨l', hl', hleft⟩ := ihl.parenthesized Node.level_fits_left vs hvs
      obtain ⟨r', hr', hright⟩ := ihr.parenthesized Node.level_fits_right ws hws
      refine ⟨.binary l' u r', by simp [Node.unplaced, hu, hl', hr'], fun rest hrest => ?_⟩
      rw [Node.level, hop.kind, List.append_assoc]
      exact .binary hkind (hleft _ (notCalled_cons _ hkind (by simp))) (hright rest hrest)

/-! ### Statements -/

theorem mutable?_bindingKeyword (m : Bool) :
    mutable? (.keyword (bindingKeyword m)) = some m := by
  cases m <;> rfl

theorem readsBack_binding {d : Decl} (h : d.name.Spells .identifier) :
    ReadsBack .binding Decl.unplaced d d.bindingTokens := by
  intro us hus
  obtain ⟨m, name, type⟩ := d
  obtain ⟨key, _, rfl, hkey, hus⟩ := hus.of_cons
  obtain ⟨u, _, rfl, hu, hus⟩ := hus.of_cons
  have hmutable : mutable? key.kind = some m := by
    rw [kind_of_unplaced hkey]
    exact mutable?_bindingKeyword m
  have hname : u.kind = .identifier := (kind_of_unplaced hu).trans h.kind
  refine ⟨⟨m, u, type⟩, by simp [Decl.unplaced, hu], fun rest _ => ?_⟩
  cases type with
  | none =>
      obtain rfl := hus.of_nil
      exact .inferred hmutable hname
  | some t =>
      obtain ⟨colon, _, rfl, hcolon, hus⟩ := hus.of_cons
      obtain ⟨type, _, rfl, htype, hus⟩ := hus.of_cons
      obtain rfl := hus.of_nil
      exact .annotated hmutable hname (kind_of_unplaced hcolon) (by rw [kind_of_unplaced htype]; rfl)

theorem readsBack_param {p : Decl}
    (h : p.mutable = false ∧ p.name.Spells .identifier ∧ p.type.isSome) :
    ReadsBack (fun q => .params [q]) Decl.unplaced p p.tokens := by
  intro us hus
  obtain ⟨m, name, type⟩ := p
  obtain ⟨rfl : m = false, hname, htype⟩ := h
  obtain ⟨t, rfl : type = some t⟩ := Option.isSome_iff_exists.1 htype
  obtain ⟨u, _, rfl, hu, hus⟩ := hus.of_cons
  obtain ⟨colon, _, rfl, hcolon, hus⟩ := hus.of_cons
  obtain ⟨type, _, rfl, htype, hus⟩ := hus.of_cons
  obtain rfl := hus.of_nil
  refine ⟨⟨false, u, some t⟩, by simp [Decl.unplaced, hu], fun rest _ => ?_⟩
  exact .param ((kind_of_unplaced hu).trans hname.kind) (kind_of_unplaced hcolon)
    (by rw [kind_of_unplaced htype]; rfl)

theorem readsBack_parameters {ps : List Decl}
    (h : ∀ p ∈ ps, p.mutable = false ∧ p.name.Spells .identifier ∧ p.type.isSome) :
    ReadsBack .parameters (List.map Decl.unplaced) ps
      (enclosed .leftParen .rightParen (separated .comma (ps.map Decl.tokens))) := by
  intro us hus
  obtain ⟨a, vs, b, rfl, ha, hb, hvs⟩ := hus.of_enclosed
  cases ps with
  | nil =>
      obtain rfl := hvs.of_nil
      exact ⟨[], rfl, fun rest _ => .noParameters ha hb⟩
  | cons p ps =>
      obtain ⟨qs, hqs, hspans⟩ :=
        readsBack_separated .params (by simp) (fun hxs hsep hys => hys.extends hxs hsep)
          (fun q hq => readsBack_param (h q hq)) vs hvs
      refine ⟨qs, hqs, fun rest _ => ?_⟩
      rw [List.cons_append, List.append_assoc]
      exact .parameters ha (hspans _ (notCalled_cons _ hb (by simp))) hb

theorem Signature.Writable.readsBack {s : Signature} (h : s.Writable) :
    ReadsBack .signature Signature.unplaced s s.tokens := by
  intro us hus
  obtain ⟨name, ps, ret⟩ := s
  obtain ⟨t, rfl : ret = some t⟩ := Option.isSome_iff_exists.1 h.ret
  obtain ⟨u, _, rfl, hu, hus⟩ := hus.of_cons
  obtain ⟨vs, ws, rfl, hvs, hws⟩ := hus.of_append
  obtain ⟨qs, hqs, hspans⟩ := readsBack_parameters h.params vs hvs
  have hname : u.kind = .identifier := (kind_of_unplaced hu).trans h.name.kind
  refine ⟨⟨u, qs, some t⟩, by simp [Signature.unplaced, hu, hqs], fun rest hrest => ?_⟩
  by_cases ht : t = .void
  · subst ht
    obtain rfl := hws.of_nil
    rw [List.append_nil]
    exact .void hname (hspans rest hrest)
  · have hret : returnTokens (some t) = [fixed (.punct .arrow), fixed (.keyword (.type t))] := by
      cases t <;> first | rfl | exact absurd rfl ht
    rw [hret] at hws
    obtain ⟨arrow, _, rfl, harrow, hws⟩ := hws.of_cons
    obtain ⟨type, _, rfl, htype, hws⟩ := hws.of_cons
    obtain rfl := hws.of_nil
    have harrow := kind_of_unplaced harrow
    rw [List.cons_append, List.append_assoc]
    exact .returning hname (hspans _ (notCalled_cons _ harrow (by simp [fixed]))) harrow
      (by rw [kind_of_unplaced htype]; rfl)

theorem readsBack_statements {ns : List Node}
    (h : ∀ n ∈ ns, ReadsBack .statement Node.unplaced n n.tokens) :
    ReadsBack .statements (List.map Node.unplaced) ns
      (separated .semicolon (ns.map Node.tokens)) := by
  cases ns with
  | nil =>
      intro us hus
      obtain rfl := hus.of_nil
      exact ⟨[], rfl, fun rest _ => .nil⟩
  | cons n ns =>
      refine readsBack_separated .statements (by simp)
        (fun hxs hsep hys => hys.extends (.semicolon hxs hsep)) fun m hm us hus => ?_
      obtain ⟨m', hm', hspans⟩ := h m hm us hus
      exact ⟨m', hm', fun rest hrest => .next .nil (hspans rest hrest)⟩

theorem readsBack_body {ns : List Node}
    (h : ∀ n ∈ ns, ReadsBack .statement Node.unplaced n n.tokens) :
    ReadsBack .body (List.map Node.unplaced) ns
      (enclosed .leftBrace .rightBrace (separated .semicolon (ns.map Node.tokens))) := by
  intro us hus
  obtain ⟨a, vs, b, rfl, ha, hb, hvs⟩ := hus.of_enclosed
  obtain ⟨ms, hms, hspans⟩ := readsBack_statements h vs hvs
  refine ⟨ms, hms, fun rest _ => ?_⟩
  rw [List.cons_append, List.append_assoc]
  exact .body ha (hspans _ (notCalled_cons _ hb (by simp))) hb

theorem Node.Writable.readsBack {n : Node} (h : n.Writable) :
    ReadsBack .statement Node.unplaced n n.tokens := by
  induction h with
  | @expr e he =>
      intro us hus
      obtain ⟨m, hm, hspans⟩ := he.readsBack.raise e.level.fits_sum us hus
      exact ⟨m, hm, fun rest hrest => .alone (hspans rest hrest)⟩
  | @decl d hname htype =>
      intro us hus
      obtain ⟨d', hd', hspans⟩ := readsBack_binding hname us hus
      have htype' : d'.type = d.type := congrArg (·.type) hd'
      refine ⟨.decl d', by simp [Node.unplaced, hd'], fun rest hrest => ?_⟩
      exact .decl (hspans rest hrest) (by rwa [htype'])
  | @assign d v hname hv =>
      intro us hus
      obtain ⟨vs, _, rfl, hvs, hus⟩ := hus.of_append
      obtain ⟨equal, ws, rfl, hequal, hws⟩ := hus.of_cons
      obtain ⟨d', hd', hbinding⟩ := readsBack_binding hname vs hvs
      obtain ⟨v', hv', hvalue⟩ := hv.readsBack.raise v.level.fits_sum ws hws
      have hequal := kind_of_unplaced hequal
      refine ⟨.assign d' v', by simp [Node.unplaced, hd', hv'], fun rest hrest => ?_⟩
      rw [List.append_assoc]
      exact .assign (hbinding _ (notCalled_cons _ hequal (by simp [fixed]))) hequal
        (hvalue rest hrest)
  | @signature s hs =>
      intro us hus
      obtain ⟨key, vs, rfl, hkey, hvs⟩ := hus.of_cons
      obtain ⟨s', hs', hspans⟩ := hs.readsBack vs hvs
      refine ⟨.signature s', by simp [Node.unplaced, hs'], fun rest hrest => ?_⟩
      exact .signature (kind_of_unplaced hkey) (hspans rest hrest)
  | @func s body hs _ ih =>
      intro us hus
      rw [Node.tokens, tokensAll_eq_map] at hus
      obtain ⟨key, _, rfl, hkey, hus⟩ := hus.of_cons
      obtain ⟨vs, ws, rfl, hvs, hws⟩ := hus.of_append
      obtain ⟨s', hs', hsignature⟩ := hs.readsBack vs hvs
      obtain ⟨body', hbody', hbody⟩ := readsBack_body ih ws hws
      refine ⟨.func s' body', by simp [Node.unplaced, hs', hbody'], fun rest hrest => ?_⟩
      rw [List.cons_append, List.append_assoc]
      exact .func (kind_of_unplaced hkey) (hsignature _ (hws.notCalled (by simp) rest))
        (hbody rest hrest)
  | @cond t c body ht hc _ ih =>
      intro us hus
      rw [Node.tokens, tokensAll_eq_map] at hus
      obtain ⟨u, _, rfl, hu, hus⟩ := hus.of_cons
      obtain ⟨vs, ws, rfl, hvs, hws⟩ := hus.of_append
      obtain ⟨c', hc', hcondition⟩ := hc.readsBack.raise c.level.fits_sum vs hvs
      obtain ⟨body', hbody', hbody⟩ := readsBack_body ih ws hws
      refine ⟨.cond u c' body', by simp [Node.unplaced, hu, hc', hbody'], fun rest hrest => ?_⟩
      rw [List.cons_append, List.append_assoc]
      exact .cond ((kind_of_unplaced hu).trans ht.kind)
        (hcondition _ (hws.notCalled (by simp) rest)) (hbody rest hrest)
  | @ret t v ht hv =>
      intro us hus
      obtain ⟨u, vs, rfl, hu, hvs⟩ := hus.of_cons
      obtain ⟨v', hv', hspans⟩ := hv.readsBack.raise v.level.fits_sum vs hvs
      refine ⟨.ret u v', by simp [Node.unplaced, hu, hv'], fun rest hrest => ?_⟩
      exact .ret ((kind_of_unplaced hu).trans ht.kind) (hspans rest hrest)
  | @print t args ht hargs =>
      intro us hus
      rw [Node.tokens, tokensAll_eq_map] at hus
      obtain ⟨u, vs, rfl, hu, hvs⟩ := hus.of_cons
      obtain ⟨es, hes, hspans⟩ :=
        readsBack_arguments (fun a ha => (hargs a ha).readsBack) vs hvs
      refine ⟨.print u es, by simp [Node.unplaced, hu, hes], fun rest hrest => ?_⟩
      exact .print ((kind_of_unplaced hu).trans ht.kind) (hspans rest hrest)

end Swiftlet
