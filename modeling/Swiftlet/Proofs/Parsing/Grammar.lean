import Swiftlet.Decimal.Numeral
import Swiftlet.Tree

/-!
# The grammar

What the parser accepts, as rules that know nothing of the parser.

* `Phrase` — the nonterminals, each with the tree it stands for.
* `Derives p ts rest` — the tokens of `ts` in front of its tail `rest` derive `p`. The tail is there
  because of one rule: a name is a value only if no parenthesis follows it.
* `Program us ns` — the whole list `us` derives the program `ns`.

Operators have a level of their own each: a product is made of operands, a sum of products, and both
lean to the left. Statements follow each other with or without semicolons, so what can be the next
token of a statement must not be the first token of one; `Derives.starts` says that it never is, the
parenthesis apart.
-/

namespace Swiftlet

namespace Grammar

/-- How tightly an expression holds together. -/
inductive Level where
  /-- A literal, a name, a call, or anything in parentheses. -/
  | operand
  /-- Operands with multiplicative operators between them. -/
  | product
  /-- Products with additive operators between them. -/
  | sum
  deriving DecidableEq, Repr

/-- What a stretch of tokens can stand for. -/
inductive Phrase where
  | expr (l : Level) (e : Node)
  /-- One or more expressions with commas between them. -/
  | list (es : List Node)
  /-- What follows the name of a call: expressions in parentheses, or none. -/
  | arguments (es : List Node)
  /-- The start of a `let` or `var`, with or without a type. -/
  | binding (d : Decl)
  /-- One or more parameters with commas between them. -/
  | params (ps : List Decl)
  /-- Parameters in parentheses, or none. -/
  | parameters (ps : List Decl)
  /-- A function from its name to its return type. -/
  | signature (s : Signature)
  | statement (n : Node)
  /-- Statements and semicolons in any number. -/
  | statements (ns : List Node)
  /-- Statements in braces. -/
  | body (ns : List Node)

/-- Whether the keyword of a binding makes it mutable. -/
def mutable? : Token.Kind → Option Bool
  | .keyword .letBinding => some false
  | .keyword .varBinding => some true
  | _ => none

/-- No parenthesis comes next. -/
def NotCalled (rest : List Token) : Prop := ∀ t ∈ rest.head?, t.kind ≠ .punct .leftParen

inductive Derives : Phrase → List Token → List Token → Prop where
  -- Operands.
  | int {t : Token} {v : Int32} {rest : List Token} (ht : t.kind = .int)
      (hv : Numeral.int32? t.lexeme = some v) :
      Derives (.expr .operand (.int t v)) (t :: rest) rest
  | float {t : Token} {v : Binary64} {rest : List Token} (ht : t.kind = .float)
      (hv : Numeral.double? t.lexeme = some v) :
      Derives (.expr .operand (.float t v)) (t :: rest) rest
  | bool {t : Token} {v : Bool} {rest : List Token} (ht : t.kind = .bool v) :
      Derives (.expr .operand (.bool t v)) (t :: rest) rest
  | string {t : Token} {rest : List Token} (ht : t.kind = .string) :
      Derives (.expr .operand (.string t (Bytes.without Bytes.quote t.lexeme))) (t :: rest) rest
  | ref {name : Token} {rest : List Token} (hname : name.kind = .identifier)
      (hrest : NotCalled rest) : Derives (.expr .operand (.ref name)) (name :: rest) rest
  | paren {l r : Token} {ts rest : List Token} {e : Node} (hl : l.kind = .punct .leftParen)
      (he : Derives (.expr .sum e) ts (r :: rest)) (hr : r.kind = .punct .rightParen) :
      Derives (.expr .operand e) (l :: ts) rest
  | call {name : Token} {ts rest : List Token} {es : List Node} (hname : name.kind = .identifier)
      (hes : Derives (.arguments es) ts rest) :
      Derives (.expr .operand (.call name es)) (name :: ts) rest
  -- Operators.
  | product {ts rest : List Token} {e : Node} (he : Derives (.expr .operand e) ts rest) :
      Derives (.expr .product e) ts rest
  | times {op : Token} {ts mid rest : List Token} {l r : Node}
      (hl : Derives (.expr .product l) ts (op :: mid)) (hop : op.kind.group = .multiplicative)
      (hr : Derives (.expr .operand r) mid rest) :
      Derives (.expr .product (.binary l op r)) ts rest
  | sum {ts rest : List Token} {e : Node} (he : Derives (.expr .product e) ts rest) :
      Derives (.expr .sum e) ts rest
  | plus {op : Token} {ts mid rest : List Token} {l r : Node}
      (hl : Derives (.expr .sum l) ts (op :: mid)) (hop : op.kind.group = .additive)
      (hr : Derives (.expr .product r) mid rest) :
      Derives (.expr .sum (.binary l op r)) ts rest
  -- Arguments.
  | one {ts rest : List Token} {e : Node} (he : Derives (.expr .sum e) ts rest) :
      Derives (.list [e]) ts rest
  | more {comma : Token} {ts mid rest : List Token} {es : List Node} {e : Node}
      (hes : Derives (.list es) ts (comma :: mid)) (hcomma : comma.kind = .punct .comma)
      (he : Derives (.expr .sum e) mid rest) : Derives (.list (es ++ [e])) ts rest
  | noArguments {l r : Token} {rest : List Token} (hl : l.kind = .punct .leftParen)
      (hr : r.kind = .punct .rightParen) : Derives (.arguments []) (l :: r :: rest) rest
  | arguments {l r : Token} {ts rest : List Token} {es : List Node}
      (hl : l.kind = .punct .leftParen) (hes : Derives (.list es) ts (r :: rest))
      (hr : r.kind = .punct .rightParen) : Derives (.arguments es) (l :: ts) rest
  -- Functions.
  | param {name colon type : Token} {rest : List Token} {t : Ty} (hname : name.kind = .identifier)
      (hcolon : colon.kind = .punct .colon) (htype : type.kind.typeName? = some t) :
      Derives (.params [⟨false, name, some t⟩]) (name :: colon :: type :: rest) rest
  | nextParam {comma name colon type : Token} {ts rest : List Token} {ps : List Decl} {t : Ty}
      (hps : Derives (.params ps) ts (comma :: name :: colon :: type :: rest))
      (hcomma : comma.kind = .punct .comma) (hname : name.kind = .identifier)
      (hcolon : colon.kind = .punct .colon) (htype : type.kind.typeName? = some t) :
      Derives (.params (ps ++ [⟨false, name, some t⟩])) ts rest
  | noParameters {l r : Token} {rest : List Token} (hl : l.kind = .punct .leftParen)
      (hr : r.kind = .punct .rightParen) : Derives (.parameters []) (l :: r :: rest) rest
  | parameters {l r : Token} {ts rest : List Token} {ps : List Decl}
      (hl : l.kind = .punct .leftParen) (hps : Derives (.params ps) ts (r :: rest))
      (hr : r.kind = .punct .rightParen) : Derives (.parameters ps) (l :: ts) rest
  | void {name : Token} {ts rest : List Token} {ps : List Decl} (hname : name.kind = .identifier)
      (hps : Derives (.parameters ps) ts rest) :
      Derives (.signature ⟨name, ps, some .void⟩) (name :: ts) rest
  | returning {name arrow type : Token} {ts rest : List Token} {ps : List Decl} {t : Ty}
      (hname : name.kind = .identifier) (hps : Derives (.parameters ps) ts (arrow :: type :: rest))
      (harrow : arrow.kind = .punct .arrow) (htype : type.kind.typeName? = some t) :
      Derives (.signature ⟨name, ps, some t⟩) (name :: ts) rest
  -- Statements.
  | inferred {key name : Token} {rest : List Token} {m : Bool} (hkey : mutable? key.kind = some m)
      (hname : name.kind = .identifier) :
      Derives (.binding ⟨m, name, none⟩) (key :: name :: rest) rest
  | annotated {key name colon type : Token} {rest : List Token} {m : Bool} {t : Ty}
      (hkey : mutable? key.kind = some m) (hname : name.kind = .identifier)
      (hcolon : colon.kind = .punct .colon) (htype : type.kind.typeName? = some t) :
      Derives (.binding ⟨m, name, some t⟩) (key :: name :: colon :: type :: rest) rest
  | alone {ts rest : List Token} {e : Node} (he : Derives (.expr .sum e) ts rest) :
      Derives (.statement e) ts rest
  | decl {ts rest : List Token} {d : Decl} (hd : Derives (.binding d) ts rest)
      (htype : d.type.isSome) : Derives (.statement (.decl d)) ts rest
  | assign {equal : Token} {ts mid rest : List Token} {d : Decl} {v : Node}
      (hd : Derives (.binding d) ts (equal :: mid)) (hequal : equal.kind = .punct .equal)
      (hv : Derives (.expr .sum v) mid rest) : Derives (.statement (.assign d v)) ts rest
  | ret {key : Token} {ts rest : List Token} {v : Node} (hkey : key.kind = .keyword .returning)
      (hv : Derives (.expr .sum v) ts rest) : Derives (.statement (.ret key v)) (key :: ts) rest
  | print {key : Token} {ts rest : List Token} {es : List Node}
      (hkey : key.kind = .keyword .printing) (hes : Derives (.arguments es) ts rest) :
      Derives (.statement (.print key es)) (key :: ts) rest
  | cond {key : Token} {ts mid rest : List Token} {c : Node} {ns : List Node}
      (hkey : key.kind = .keyword .ifBranch) (hc : Derives (.expr .sum c) ts mid)
      (hns : Derives (.body ns) mid rest) : Derives (.statement (.cond key c ns)) (key :: ts) rest
  | signature {key : Token} {ts rest : List Token} {s : Signature}
      (hkey : key.kind = .keyword .func) (hs : Derives (.signature s) ts rest) :
      Derives (.statement (.signature s)) (key :: ts) rest
  | func {key : Token} {ts mid rest : List Token} {s : Signature} {ns : List Node}
      (hkey : key.kind = .keyword .func) (hs : Derives (.signature s) ts mid)
      (hns : Derives (.body ns) mid rest) : Derives (.statement (.func s ns)) (key :: ts) rest
  -- Bodies.
  | nil {ts : List Token} : Derives (.statements []) ts ts
  | semicolon {t : Token} {ts rest : List Token} {ns : List Node}
      (hns : Derives (.statements ns) ts (t :: rest)) (ht : t.kind = .punct .semicolon) :
      Derives (.statements ns) ts rest
  | next {ts mid rest : List Token} {ns : List Node} {n : Node}
      (hns : Derives (.statements ns) ts mid) (hn : Derives (.statement n) mid rest) :
      Derives (.statements (ns ++ [n])) ts rest
  | body {l r : Token} {ts rest : List Token} {ns : List Node} (hl : l.kind = .punct .leftBrace)
      (hns : Derives (.statements ns) ts (r :: rest)) (hr : r.kind = .punct .rightBrace) :
      Derives (.body ns) (l :: ts) rest

/-- The tokens `us` derive the program `ns`. -/
def Program (us : List Token) (ns : List Node) : Prop := Derives (.statements ns) us []

/-- An operand stands wherever an expression does. -/
theorem Derives.ofOperand {e : Node} {ts rest : List Token}
    (h : Derives (.expr .operand e) ts rest) (l : Level) : Derives (.expr l e) ts rest := by
  cases l with
  | operand => exact h
  | product => exact .product h
  | sum => exact .sum (.product h)

theorem Derives.ofProduct {l : Level} {e : Node} {ts rest : List Token}
    (h : Derives (.expr .product e) ts rest) (hl : l ≠ .operand) : Derives (.expr l e) ts rest := by
  cases l with
  | operand => exact absurd rfl hl
  | product => exact h
  | sum => exact .sum h

/-! ## First tokens -/

/-- The kinds that an operand starts with. -/
def startsOperand : Token.Kind → Bool
  | .int | .float | .bool _ | .string | .identifier | .punct .leftParen => true
  | _ => false

/-- The kinds with which a statement that could end goes on. -/
def continues : Token.Kind → Bool
  | .operator _ | .punct .equal | .punct .leftBrace | .punct .arrow => true
  | _ => false

/-- What the first token of a phrase can be. -/
def Phrase.Starts : Phrase → List Token → Prop
  | .expr .., ts | .list _, ts => ∃ t us, ts = t :: us ∧ startsOperand t.kind = true
  | .binding _, ts | .statement _, ts => ∃ t us, ts = t :: us ∧ continues t.kind = false
  | _, _ => True

theorem not_continues_of_startsOperand {k : Token.Kind} (h : startsOperand k = true) :
    continues k = false := by
  cases k with
  | punct p => cases p <;> first | rfl | cases h
  | _ => first | rfl | cases h

theorem not_continues_of_mutable? {k : Token.Kind} {m : Bool} (h : mutable? k = some m) :
    continues k = false := by
  cases k with
  | keyword k => rfl
  | _ => cases h

/-- **No statement starts with a token that could go on with the statement before it.** -/
theorem Derives.starts {p : Phrase} {ts rest : List Token} (h : Derives p ts rest) :
    p.Starts ts := by
  induction h with
  | int ht | float ht | bool ht | string ht | ref ht | call ht | paren ht =>
      exact ⟨_, _, rfl, by rw [ht]; rfl⟩
  | product _ ih | times _ _ _ ih | sum _ ih | plus _ _ _ ih => exact ih
  | one _ ih | more _ _ _ ih => exact ih
  | inferred hkey | annotated hkey => exact ⟨_, _, rfl, not_continues_of_mutable? hkey⟩
  | decl _ _ ih | assign _ _ _ ih => exact ih
  | alone _ ih =>
      obtain ⟨t, us, heq, ht⟩ := ih
      exact ⟨t, us, heq, not_continues_of_startsOperand ht⟩
  | ret hkey | print hkey | cond hkey | signature hkey | func hkey =>
      exact ⟨_, _, rfl, by rw [hkey]; rfl⟩
  | _ => trivial

end Grammar

end Swiftlet
