import Swiftlet.Token.Lexing
import Swiftlet.Tree.Parsing

/-!
# The shape of parsed trees

The parser builds fewer trees than `Node` has. `Node.IsExpr` and `Node.IsStatement` are the trees
that stand where an expression or a statement is read:

* operands, arguments, conditions and values are expressions, and an expression is a literal, a
  name, an operation or a call;
* operations have an operator for their token, names have identifiers;
* parameters and declarations without a value are annotated, and every function has a return type.

Both take a property `P` of tokens, which all the tokens of the tree have. With `P` the membership
in the token list this says that the parser makes up no token.

Principal results: `step_grown`, that a token with the property keeps the shape of what has been
read, and `parse_grown`, that a parsed program has it.
-/

namespace Swiftlet

/-- A token that names something. -/
structure Token.IsName (P : Token → Prop) (t : Token) : Prop where
  kind : t.kind = .identifier
  holds : P t

/-- A declaration with its type written down. -/
structure Decl.IsAnnotated (P : Token → Prop) (d : Decl) : Prop where
  name : d.name.IsName P
  type : d.type.isSome

structure Signature.IsParsed (P : Token → Prop) (s : Signature) : Prop where
  name : s.name.IsName P
  params : ∀ p ∈ s.params, p.IsAnnotated P
  ret : s.ret.isSome

/-- The trees that stand where an expression is read. -/
inductive Node.IsExpr (P : Token → Prop) : Node → Prop where
  | int {t : Token} (v : Int32) (ht : P t) : IsExpr P (.int t v)
  | float {t : Token} (v : Binary64) (ht : P t) : IsExpr P (.float t v)
  | bool {t : Token} (v : Bool) (ht : P t) : IsExpr P (.bool t v)
  | string {t : Token} (v : Bytes) (ht : P t) : IsExpr P (.string t v)
  | ref {name : Token} (hname : name.IsName P) : IsExpr P (.ref name)
  | binary {l r : Node} {op : Token} (o : Operator) (hop : op.kind = .operator o) (ht : P op)
      (hl : IsExpr P l) (hr : IsExpr P r) : IsExpr P (.binary l op r)
  | call {name : Token} {args : List Node} (hname : name.IsName P)
      (hargs : ∀ a ∈ args, IsExpr P a) : IsExpr P (.call name args)

/-- The trees that stand where a statement is read. -/
inductive Node.IsStatement (P : Token → Prop) : Node → Prop where
  | expr {e : Node} (he : e.IsExpr P) : IsStatement P e
  | decl {d : Decl} (hd : d.IsAnnotated P) : IsStatement P (.decl d)
  | assign {d : Decl} {v : Node} (hd : d.name.IsName P) (hv : v.IsExpr P) :
      IsStatement P (.assign d v)
  | signature {s : Signature} (hs : s.IsParsed P) : IsStatement P (.signature s)
  | func {s : Signature} {body : List Node} (hs : s.IsParsed P)
      (hbody : ∀ n ∈ body, IsStatement P n) : IsStatement P (.func s body)
  | cond {t : Token} {c : Node} {body : List Node} (ht : P t) (hc : c.IsExpr P)
      (hbody : ∀ n ∈ body, IsStatement P n) : IsStatement P (.cond t c body)
  | ret {t : Token} {v : Node} (ht : P t) (hv : v.IsExpr P) : IsStatement P (.ret t v)
  | print {t : Token} {args : List Node} (ht : P t) (hargs : ∀ a ∈ args, a.IsExpr P) :
      IsStatement P (.print t args)

section

variable {P : Token → Prop}

theorem Node.IsStatement.assign_value {d : Decl} {v : Node}
    (h : (Node.assign d v).IsStatement P) : v.IsExpr P := by
  cases h with
  | expr he => cases he
  | assign _ hv => exact hv

theorem Node.IsStatement.ret_value {t : Token} {v : Node} (h : (Node.ret t v).IsStatement P) :
    v.IsExpr P := by
  cases h with
  | expr he => cases he
  | ret _ hv => exact hv

theorem Node.IsStatement.print_args {t : Token} {args : List Node}
    (h : (Node.print t args).IsStatement P) : ∀ a ∈ args, a.IsExpr P := by
  cases h with
  | expr he => cases he
  | print _ hargs => exact hargs

theorem Node.IsStatement.cond_parts {t : Token} {c : Node} {body : List Node}
    (h : (Node.cond t c body).IsStatement P) : c.IsExpr P ∧ ∀ n ∈ body, n.IsStatement P := by
  cases h with
  | expr he => cases he
  | cond _ hc hbody => exact ⟨hc, hbody⟩

theorem Node.IsStatement.func_body {s : Signature} {body : List Node}
    (h : (Node.func s body).IsStatement P) : ∀ n ∈ body, n.IsStatement P := by
  cases h with
  | expr he => cases he
  | func _ hbody => exact hbody

theorem Node.IsStatement.isParsed {n : Node} {s : Signature}
    (hn : n.IsStatement P) (h : n.signature? = some s) : s.IsParsed P := by
  cases hn with
  | expr he => cases he <;> cases h
  | signature hs => cases h; exact hs
  | func hs _ => cases h; exact hs
  | _ => cases h

end

namespace Parsing

/-! ## What has been read so far -/

def Block.Grown (P : Token → Prop) : Block → Prop
  | .top done => ∀ n ∈ done, n.IsStatement P
  | .condBody t c done outer =>
    P t ∧ c.IsExpr P ∧ (∀ n ∈ done, n.IsStatement P) ∧ outer.Grown P
  | .funcBody s done outer => s.IsParsed P ∧ (∀ n ∈ done, n.IsStatement P) ∧ outer.Grown P

def Hole.Grown (P : Token → Prop) : Hole → Prop
  | .binary left op up => left.IsExpr P ∧ (∃ o, op.kind = .operator o) ∧ P op ∧ up.Grown P
  | .paren up => up.Grown P
  | .argument name done up => name.IsName P ∧ (∀ a ∈ done, a.IsExpr P) ∧ up.Grown P
  | .printed t done block => P t ∧ (∀ a ∈ done, a.IsExpr P) ∧ block.Grown P
  | .returned t block => P t ∧ block.Grown P
  | .bound d block => d.name.IsName P ∧ block.Grown P
  | .condition t block => P t ∧ block.Grown P
  | .alone block => block.Grown P

def State.Grown (P : Token → Prop) : State → Prop
  | .statement block => block.Grown P
  | .operand up => up.Grown P
  | .named name up => name.IsName P ∧ up.Grown P
  | .operator e up => e.IsExpr P ∧ up.Grown P
  | .firstArgument name up => name.IsName P ∧ up.Grown P
  | .printOpen t block | .firstPrinted t block => P t ∧ block.Grown P
  | .bindName _ block => block.Grown P
  | .bindColon _ name block | .bindType _ name block => name.IsName P ∧ block.Grown P
  | .bindEqual d block => d.IsAnnotated P ∧ block.Grown P
  | .funcName block => block.Grown P
  | .paramsOpen name block | .firstParam name block => name.IsName P ∧ block.Grown P
  | .nextParam name done block | .paramEnd name done block =>
    name.IsName P ∧ (∀ p ∈ done, p.IsAnnotated P) ∧ block.Grown P
  | .paramColon name done param block | .paramType name done param block =>
    name.IsName P ∧ (∀ p ∈ done, p.IsAnnotated P) ∧ param.IsName P ∧ block.Grown P
  | .arrow name params block | .returnType name params block =>
    name.IsName P ∧ (∀ p ∈ params, p.IsAnnotated P) ∧ block.Grown P
  | .funcOpen s block => s.IsParsed P ∧ block.Grown P

variable {P : Token → Prop}

theorem Block.Grown.add {b : Block} {n : Node} (hb : b.Grown P) (hn : n.IsStatement P) :
    (b.add n).Grown P := by
  cases b with
  | top done => exact List.forall_mem_cons.2 ⟨hn, hb⟩
  | condBody t c done outer =>
      obtain ⟨ht, hc, hdone, houter⟩ := hb
      exact ⟨ht, hc, List.forall_mem_cons.2 ⟨hn, hdone⟩, houter⟩
  | funcBody s done outer =>
      obtain ⟨hs, hdone, houter⟩ := hb
      exact ⟨hs, List.forall_mem_cons.2 ⟨hn, hdone⟩, houter⟩

theorem Block.Grown.close {b b' : Block} (hb : b.Grown P) (h : b.close? = some b') :
    b'.Grown P := by
  cases b with
  | top done => cases h
  | condBody t c done outer =>
      cases h
      obtain ⟨ht, hc, hdone, houter⟩ := hb
      exact houter.add (.cond ht hc (by simpa using hdone))
  | funcBody s done outer =>
      cases h
      obtain ⟨hs, hdone, houter⟩ := hb
      exact houter.add (.func hs (by simpa using hdone))

/-! ## One token -/

theorem startOperand_grown {up : Hole} {t : Token} {σ : State} (hup : up.Grown P) (ht : P t)
    (h : startOperand up t = .ok σ) : σ.Grown P := by
  unfold startOperand at h
  split at h
  · rename_i hk; cases h; exact ⟨⟨hk, ht⟩, hup⟩
  · split at h
    · cases h; exact ⟨.int _ ht, hup⟩
    · cases h
  · split at h
    · cases h; exact ⟨.float _ ht, hup⟩
    · cases h
  · cases h; exact ⟨.bool _ ht, hup⟩
  · cases h; exact ⟨.string _ ht, hup⟩
  · cases h; exact hup
  · cases h

theorem startStatement_grown {b : Block} {t : Token} {σ : State} (hb : b.Grown P) (ht : P t)
    (h : startStatement b t = .ok σ) : σ.Grown P := by
  unfold startStatement at h
  split at h
  · cases h; exact hb
  · split at h
    · rename_i outer hclose; cases h; exact hb.close hclose
    · cases h
  · cases h; exact hb
  · cases h; exact ⟨ht, hb⟩
  · cases h; exact hb
  · cases h; exact hb
  · cases h; exact ⟨ht, hb⟩
  · cases h; exact ⟨ht, hb⟩
  · exact startOperand_grown (show (Hole.alone b).Grown P from hb) ht h

/-- Only an operator binds tighter than an operator. -/
theorem operator_of_precedence_lt {k : Token.Kind} {o : Operator}
    (h : (Token.Kind.operator o).precedence < k.precedence) : ∃ o', k = .operator o' := by
  cases k with
  | operator o' => exact ⟨o', rfl⟩
  | _ => cases o <;> simp [Token.Kind.precedence, Operator.precedence] at h

theorem afterOperand_grown {t : Token} {σ : State} (ht : P t) :
    ∀ {e : Node} {up : Hole}, e.IsExpr P → up.Grown P → afterOperand t e up = .ok σ → σ.Grown P
  | e, .binary left op up, he, hup, h => by
    obtain ⟨hleft, ⟨o, ho⟩, hop, hup⟩ := hup
    simp only [afterOperand] at h
    split at h
    · rename_i hlt
      cases h
      rw [ho] at hlt
      exact ⟨he, operator_of_precedence_lt hlt, ht, hleft, ⟨o, ho⟩, hop, hup⟩
    · exact afterOperand_grown ht (.binary o ho hop hleft he) hup h
  | e, .paren up, he, hup, h => by
    simp only [afterOperand] at h
    split at h
    · rename_i o ho; cases h; exact ⟨he, ⟨o, ho⟩, ht, hup⟩
    · cases h; exact ⟨he, hup⟩
    · cases h
  | e, .argument name done up, he, hup, h => by
    obtain ⟨hname, hdone, hup⟩ := hup
    simp only [afterOperand] at h
    have hmore := List.forall_mem_cons.2 ⟨he, hdone⟩
    split at h
    · rename_i o ho; cases h; exact ⟨he, ⟨o, ho⟩, ht, hname, hdone, hup⟩
    · cases h; exact ⟨hname, hmore, hup⟩
    · cases h; exact ⟨.call hname (fun a ha => hmore a (List.mem_reverse.1 ha)), hup⟩
    · cases h
  | e, .printed token done block, he, hup, h => by
    obtain ⟨htoken, hdone, hblock⟩ := hup
    simp only [afterOperand] at h
    have hmore := List.forall_mem_cons.2 ⟨he, hdone⟩
    split at h
    · rename_i o ho; cases h; exact ⟨he, ⟨o, ho⟩, ht, htoken, hdone, hblock⟩
    · cases h; exact ⟨htoken, hmore, hblock⟩
    · cases h; exact hblock.add (.print htoken (fun a ha => hmore a (List.mem_reverse.1 ha)))
    · cases h
  | e, .returned token block, he, hup, h => by
    simp only [afterOperand] at h
    split at h
    · rename_i o ho; cases h; exact ⟨he, ⟨o, ho⟩, ht, hup⟩
    · exact startStatement_grown (hup.2.add (.ret hup.1 he)) ht h
  | e, .bound d block, he, hup, h => by
    simp only [afterOperand] at h
    split at h
    · rename_i o ho; cases h; exact ⟨he, ⟨o, ho⟩, ht, hup⟩
    · exact startStatement_grown (hup.2.add (.assign hup.1 he)) ht h
  | e, .condition token block, he, hup, h => by
    simp only [afterOperand] at h
    split at h
    · rename_i o ho; cases h; exact ⟨he, ⟨o, ho⟩, ht, hup⟩
    · cases h; exact ⟨hup.1, he, by simp, hup.2⟩
    · cases h
  | e, .alone block, he, hup, h => by
    simp only [afterOperand] at h
    split at h
    · rename_i o ho; cases h; exact ⟨he, ⟨o, ho⟩, ht, hup⟩
    · exact startStatement_grown (hup.add (.expr he)) ht h

theorem afterSignature_grown {s : Signature} {b : Block} {t : Token} {σ : State}
    (hs : s.IsParsed P) (hb : b.Grown P) (ht : P t) (h : afterSignature s b t = .ok σ) :
    σ.Grown P := by
  unfold afterSignature at h
  split at h
  · cases h; exact ⟨hs, by simp, hb⟩
  · exact startStatement_grown (hb.add (.signature hs)) ht h

/-- **One token keeps the shape of what has been read.** -/
theorem step_grown {σ σ' : State} {t : Token} (hσ : σ.Grown P) (ht : P t)
    (h : step σ t = .ok σ') : σ'.Grown P := by
  cases σ with
  | statement block => exact startStatement_grown hσ ht h
  | operand up => exact startOperand_grown hσ ht h
  | named name up =>
      simp only [step] at h
      split at h
      · cases h; exact hσ
      · exact afterOperand_grown ht (.ref hσ.1) hσ.2 h
  | operator e up => exact afterOperand_grown ht hσ.1 hσ.2 h
  | firstArgument name up =>
      simp only [step] at h
      split at h
      · cases h; exact ⟨.call hσ.1 (by simp), hσ.2⟩
      · exact startOperand_grown
          (show (Hole.argument name [] up).Grown P from ⟨hσ.1, by simp, hσ.2⟩) ht h
  | printOpen token block =>
      simp only [step] at h
      split at h
      · cases h; exact hσ
      · cases h
  | firstPrinted token block =>
      simp only [step] at h
      split at h
      · cases h; exact hσ.2.add (.print hσ.1 (by simp))
      · exact startOperand_grown
          (show (Hole.printed token [] block).Grown P from ⟨hσ.1, by simp, hσ.2⟩) ht h
  | bindName mutable block =>
      simp only [step] at h
      split at h
      · rename_i hk; cases h; exact ⟨⟨hk, ht⟩, hσ⟩
      · cases h
  | bindColon mutable name block =>
      simp only [step] at h
      split at h
      · cases h; exact hσ
      · cases h; exact hσ
      · cases h
  | bindType mutable name block =>
      simp only [step] at h
      split at h
      · cases h; exact ⟨⟨hσ.1, rfl⟩, hσ.2⟩
      · cases h
  | bindEqual d block =>
      simp only [step] at h
      split at h
      · cases h; exact ⟨hσ.1.name, hσ.2⟩
      · exact startStatement_grown (hσ.2.add (.decl hσ.1)) ht h
  | funcName block =>
      simp only [step] at h
      split at h
      · rename_i hk; cases h; exact ⟨⟨hk, ht⟩, hσ⟩
      · cases h
  | paramsOpen name block =>
      simp only [step] at h
      split at h
      · cases h; exact hσ
      · cases h
  | firstParam name block =>
      simp only [step] at h
      split at h
      · cases h; exact ⟨hσ.1, by simp, hσ.2⟩
      · rename_i hk; cases h; exact ⟨hσ.1, by simp, ⟨hk, ht⟩, hσ.2⟩
      · cases h
  | nextParam name done block =>
      simp only [step] at h
      split at h
      · rename_i hk; cases h; exact ⟨hσ.1, hσ.2.1, ⟨hk, ht⟩, hσ.2.2⟩
      · cases h
  | paramColon name done param block =>
      simp only [step] at h
      split at h
      · cases h; exact hσ
      · cases h
  | paramType name done param block =>
      obtain ⟨hname, hdone, hparam, hblock⟩ := hσ
      simp only [step] at h
      split at h
      · cases h
        exact ⟨hname, List.forall_mem_cons.2 ⟨⟨hparam, rfl⟩, hdone⟩, hblock⟩
      · cases h
  | paramEnd name done block =>
      simp only [step] at h
      split at h
      · cases h; exact hσ
      · cases h; exact ⟨hσ.1, by simpa using hσ.2.1, hσ.2.2⟩
      · cases h
  | arrow name params block =>
      simp only [step] at h
      split at h
      · cases h; exact hσ
      · exact afterSignature_grown ⟨hσ.1, hσ.2.1, rfl⟩ hσ.2.2 ht h
  | returnType name params block =>
      simp only [step] at h
      split at h
      · cases h; exact ⟨⟨hσ.1, hσ.2.1, rfl⟩, hσ.2.2⟩
      · cases h
  | funcOpen s block => exact afterSignature_grown hσ.1 hσ.2 ht h

/-! ## The whole token list -/

theorem Block.Grown.finish {b : Block} {t : Token} {program : List Node} (hb : b.Grown P)
    (h : b.finish t = .ok program) : ∀ n ∈ program, n.IsStatement P := by
  cases b with
  | top done =>
      cases h
      intro n hn
      exact hb n (List.mem_reverse.1 hn)
  | condBody | funcBody => cases h

theorem Hole.Grown.finish {t : Token} {program : List Node} :
    ∀ {e : Node} {up : Hole}, e.IsExpr P → up.Grown P → up.finish t e = .ok program →
      ∀ n ∈ program, n.IsStatement P
  | e, .binary left op up, he, ⟨hleft, ⟨o, ho⟩, hop, hup⟩, h =>
    have he' : (Node.binary left op e).IsExpr P := .binary o ho hop hleft he
    Hole.Grown.finish he' hup h
  | e, .returned token block, he, hup, h => (hup.2.add (.ret hup.1 he)).finish h
  | e, .bound d block, he, hup, h => (hup.2.add (.assign hup.1 he)).finish h
  | e, .alone block, he, hup, h => (Block.Grown.add hup (.expr he)).finish h
  | e, .condition .., _, _, h => by cases h
  | e, .paren _, _, _, h => by cases h
  | e, .argument .., _, _, h => by cases h
  | e, .printed .., _, _, h => by cases h

theorem finish_grown {σ : State} {t : Token} {program : List Node} (hσ : σ.Grown P)
    (h : finish σ t = .ok program) : ∀ n ∈ program, n.IsStatement P := by
  cases σ with
  | statement block => exact Block.Grown.finish hσ h
  | named name up => exact Hole.Grown.finish (.ref hσ.1) hσ.2 h
  | operator e up => exact Hole.Grown.finish hσ.1 hσ.2 h
  | bindEqual d block => exact (hσ.2.add (.decl hσ.1)).finish h
  | arrow name params block =>
      have hs : (Signature.mk name params (some .void)).IsParsed P := ⟨hσ.1, hσ.2.1, rfl⟩
      exact (hσ.2.2.add (.signature hs)).finish h
  | funcOpen s block => exact (hσ.2.add (.signature hσ.1)).finish h
  | _ => cases h

theorem run_grown {last : Token} {program : List Node} :
    ∀ {ts : List Token} {σ : State}, (∀ t ∈ ts, P t) → σ.Grown P → run last σ ts = .ok program →
      ∀ n ∈ program, n.IsStatement P
  | [], _, _, hσ, h => finish_grown hσ h
  | t :: ts, σ, hts, hσ, h => by
    rw [List.forall_mem_cons] at hts
    simp only [run] at h
    split at h
    · exact finish_grown hσ h
    · split at h
      · cases h
      · rename_i next hstep
        exact run_grown hts.2 (step_grown hσ hts.1 hstep) h

/-- **A parsed program has the shape of statements, and its tokens come from the token list.** -/
theorem parse_grown {ts : List Token} {program : List Node} (hts : ∀ t ∈ ts, P t)
    (h : parse ts = .ok program) : ∀ n ∈ program, n.IsStatement P :=
  run_grown hts (show (State.statement (.top [])).Grown P by simp [State.Grown, Block.Grown]) h

/-! ## A program -/

/-- The tokens that `words` spell, one each. -/
def spelled (words : List String) : List Token :=
  words.filterMap fun word =>
    match utf8 word with
    | [] => none
    | b :: bs =>
      match Lexing.scan b bs with
      | .ok ⟨.token kind lexeme, _, _⟩ => some ⟨kind, lexeme, Pos.start⟩
      | _ => none

/-- A program with bindings in two bodies of one function, and with a function that calls itself:
```
func main() { let n = 9; if true { let text = "go"; print(text) } print(halve(n, true)) }
func halve(n: Int, again: Bool) -> Int { if again { return halve(n - 1, false) } return n / 2 }
```
-/
def halvingTokens : List Token :=
  spelled ["func", "main", "(", ")", "\x7b", "let", "n", "=", "9", ";", "if", "true", "\x7b",
    "let", "text", "=", "\"go\"", ";", "print", "(", "text", ")", "\x7d", "print", "(", "halve",
    "(", "n", ",", "true", ")", ")", "\x7d", "func", "halve", "(", "n", ":", "Int", ",", "again",
    ":", "Bool", ")", "->", "Int", "\x7b", "if", "again", "\x7b", "return", "halve", "(", "n", "-",
    "1", ",", "false", ")", "\x7d", "return", "n", "/", "2", "\x7d"]

def named (x : String) : Token := ⟨.identifier, utf8 x, Pos.start⟩

/-- A token with one spelling. -/
def fixed (k : Token.Kind) : Token := ⟨k, k.name, Pos.start⟩

/-- The tree of `halvingTokens`, with the types of its two bindings. -/
def halving (n text : Option Ty) : List Node :=
  [.func ⟨named "main", [], some .void⟩
      [.assign ⟨false, named "n", n⟩ (.int ⟨.int, utf8 "9", Pos.start⟩ 9),
        .cond (fixed (.keyword .ifBranch)) (.bool (fixed (.bool true)) true)
          [.assign ⟨false, named "text", text⟩
              (.string ⟨.string, utf8 "go", Pos.start⟩ (utf8 "go")),
            .print (fixed (.keyword .printing)) [.ref (named "text")]],
        .print (fixed (.keyword .printing))
          [.call (named "halve") [.ref (named "n"), .bool (fixed (.bool true)) true]]],
    .func ⟨named "halve",
        [⟨false, named "n", some .int⟩, ⟨false, named "again", some .bool⟩], some .int⟩
      [.cond (fixed (.keyword .ifBranch)) (.ref (named "again"))
          [.ret (fixed (.keyword .returning))
            (.call (named "halve")
              [.binary (.ref (named "n")) (fixed (.operator .minus))
                  (.int ⟨.int, utf8 "1", Pos.start⟩ 1),
                .bool (fixed (.bool false)) false])],
        .ret (fixed (.keyword .returning))
          (.binary (.ref (named "n")) (fixed (.operator .slash))
            (.int ⟨.int, utf8 "2", Pos.start⟩ 2))]]

theorem parse_halvingTokens : Parsing.parse halvingTokens = .ok (halving none none) := by rfl

end Parsing

end Swiftlet
