import Swiftlet.Proofs.Parsing.Grammar
import Swiftlet.Tree.Parsing

/-!
# What has been read is derived

A state of the parser holds the part of a derivation that the tokens so far are good for.

* `Block.Read us b rest` — of the tokens `us` those in front of `rest` have been read, and they derive
  the bodies of `b` as far as they go.
* `Hole.Read us up ts` — the same up to the place `ts` at which the open operand starts.
* `State.Read us σ rest` — the same for a whole state.
* `Hole.level` — what may stand in an open place: the right operand of an operator binds tighter than
  the operator does.

Principal results: `step_read`, that one token keeps this, and `derives_of_run`, that what a run
returns is derived.
-/

namespace Swiftlet

namespace Parsing

open Grammar

/-! ## What a state stands for -/

/-- The level of the expression that is read at an open place. -/
def Hole.level : Hole → Level
  | .binary _ op _ => if op.kind.group = .additive then .product else .operand
  | _ => .sum

/-- The arguments `done`, last first, have been read, and another one may start at `rest`. -/
def ArgumentsRead (done : List Node) (ts rest : List Token) : Prop :=
  done = [] ∧ ts = rest ∨
    ∃ comma, comma.kind = .punct .comma ∧ Derives (.list done.reverse) ts (comma :: rest)

/-- The parameters `done`, last first, have been read, and another one may start at `rest`. -/
def ParamsRead (done : List Decl) (ts rest : List Token) : Prop :=
  done = [] ∧ ts = rest ∨
    ∃ comma, comma.kind = .punct .comma ∧ Derives (.params done.reverse) ts (comma :: rest)

def Block.Read (us : List Token) : Block → List Token → Prop
  | .top done, rest => Derives (.statements done.reverse) us rest
  | .condBody key c done outer, rest =>
    ∃ ts l body, outer.Read us (key :: ts) ∧ key.kind = .keyword .ifBranch ∧
      Derives (.expr .sum c) ts (l :: body) ∧ l.kind = .punct .leftBrace ∧
      Derives (.statements done.reverse) body rest
  | .funcBody s done outer, rest =>
    ∃ key ts l body, outer.Read us (key :: ts) ∧ key.kind = .keyword .func ∧
      Derives (.signature s) ts (l :: body) ∧ l.kind = .punct .leftBrace ∧
      Derives (.statements done.reverse) body rest

def Hole.Read (us : List Token) : Hole → List Token → Prop
  | .binary left op up, rest =>
    ∃ ts, up.Read us ts ∧
      (op.kind.group = .multiplicative ∧ up.level ≠ .operand ∧
          Derives (.expr .product left) ts (op :: rest) ∨
        op.kind.group = .additive ∧ up.level = .sum ∧ Derives (.expr .sum left) ts (op :: rest))
  | .paren up, rest => ∃ l, up.Read us (l :: rest) ∧ l.kind = .punct .leftParen
  | .argument name done up, rest =>
    ∃ l ts, up.Read us (name :: l :: ts) ∧ name.kind = .identifier ∧
      l.kind = .punct .leftParen ∧ ArgumentsRead done ts rest
  | .printed key done block, rest =>
    ∃ l ts, block.Read us (key :: l :: ts) ∧ key.kind = .keyword .printing ∧
      l.kind = .punct .leftParen ∧ ArgumentsRead done ts rest
  | .returned key block, rest => block.Read us (key :: rest) ∧ key.kind = .keyword .returning
  | .bound d block, rest =>
    ∃ ts equal, block.Read us ts ∧ Derives (.binding d) ts (equal :: rest) ∧
      equal.kind = .punct .equal
  | .condition key block, rest => block.Read us (key :: rest) ∧ key.kind = .keyword .ifBranch
  | .alone block, rest => block.Read us rest

/-- The parameters `done` of the function `name` have been read, and another one may start at
`rest`. -/
def SignatureRead (us : List Token) (name : Token) (done : List Decl) (block : Block)
    (rest : List Token) : Prop :=
  ∃ key l ts, block.Read us (key :: name :: l :: ts) ∧ key.kind = .keyword .func ∧
    name.kind = .identifier ∧ l.kind = .punct .leftParen ∧ ParamsRead done ts rest

def State.Read (us : List Token) : State → List Token → Prop
  | .statement block, rest => block.Read us rest
  | .operand up, rest => up.Read us rest
  | .named name up, rest => up.Read us (name :: rest) ∧ name.kind = .identifier
  | .operator e up, rest => ∃ ts, up.Read us ts ∧ Derives (.expr .operand e) ts rest
  | .firstArgument name up, rest =>
    ∃ l, up.Read us (name :: l :: rest) ∧ name.kind = .identifier ∧ l.kind = .punct .leftParen
  | .printOpen key block, rest => block.Read us (key :: rest) ∧ key.kind = .keyword .printing
  | .firstPrinted key block, rest =>
    ∃ l, block.Read us (key :: l :: rest) ∧ key.kind = .keyword .printing ∧
      l.kind = .punct .leftParen
  | .bindName m block, rest => ∃ key, block.Read us (key :: rest) ∧ mutable? key.kind = some m
  | .bindColon m name block, rest =>
    ∃ key, block.Read us (key :: name :: rest) ∧ mutable? key.kind = some m ∧
      name.kind = .identifier
  | .bindType m name block, rest =>
    ∃ key colon, block.Read us (key :: name :: colon :: rest) ∧ mutable? key.kind = some m ∧
      name.kind = .identifier ∧ colon.kind = .punct .colon
  | .bindEqual d block, rest =>
    ∃ ts, block.Read us ts ∧ Derives (.binding d) ts rest ∧ d.type.isSome
  | .funcName block, rest => ∃ key, block.Read us (key :: rest) ∧ key.kind = .keyword .func
  | .paramsOpen name block, rest =>
    ∃ key, block.Read us (key :: name :: rest) ∧ key.kind = .keyword .func ∧
      name.kind = .identifier
  | .firstParam name block, rest =>
    ∃ key l, block.Read us (key :: name :: l :: rest) ∧ key.kind = .keyword .func ∧
      name.kind = .identifier ∧ l.kind = .punct .leftParen
  | .nextParam name done block, rest => SignatureRead us name done block rest
  | .paramColon name done param block, rest =>
    SignatureRead us name done block (param :: rest) ∧ param.kind = .identifier
  | .paramType name done param block, rest =>
    ∃ colon, SignatureRead us name done block (param :: colon :: rest) ∧
      param.kind = .identifier ∧ colon.kind = .punct .colon
  | .paramEnd name done block, rest =>
    ∃ key l ts, block.Read us (key :: name :: l :: ts) ∧ key.kind = .keyword .func ∧
      name.kind = .identifier ∧ l.kind = .punct .leftParen ∧ Derives (.params done.reverse) ts rest
  | .arrow name params block, rest =>
    ∃ key ts, block.Read us (key :: name :: ts) ∧ key.kind = .keyword .func ∧
      name.kind = .identifier ∧ Derives (.parameters params) ts rest
  | .returnType name params block, rest =>
    ∃ key ts arrow, block.Read us (key :: name :: ts) ∧ key.kind = .keyword .func ∧
      name.kind = .identifier ∧ Derives (.parameters params) ts (arrow :: rest) ∧
      arrow.kind = .punct .arrow
  | .funcOpen s block, rest =>
    ∃ key ts, block.Read us (key :: ts) ∧ key.kind = .keyword .func ∧
      Derives (.signature s) ts rest

variable {us : List Token}

/-! ## Lists and bodies -/

theorem ArgumentsRead.add {done : List Node} {ts mid rest : List Token} {e : Node}
    (h : ArgumentsRead done ts mid) (he : Derives (.expr .sum e) mid rest) :
    Derives (.list (e :: done).reverse) ts rest := by
  rw [List.reverse_cons]
  rcases h with ⟨rfl, rfl⟩ | ⟨comma, hcomma, hdone⟩
  · exact .one he
  · exact .more hdone hcomma he

theorem ParamsRead.add {done : List Decl} {ts rest : List Token} {name colon type : Token} {t : Ty}
    (h : ParamsRead done ts (name :: colon :: type :: rest)) (hname : name.kind = .identifier)
    (hcolon : colon.kind = .punct .colon) (htype : type.kind.typeName? = some t) :
    Derives (.params (⟨false, name, some t⟩ :: done).reverse) ts rest := by
  rw [List.reverse_cons]
  rcases h with ⟨rfl, rfl⟩ | ⟨comma, hcomma, hdone⟩
  · exact .param hname hcolon htype
  · exact .nextParam hdone hcomma hname hcolon htype

theorem Block.Read.add {b : Block} {n : Node} {mid rest : List Token} (hb : b.Read us mid)
    (hn : Derives (.statement n) mid rest) : (b.add n).Read us rest := by
  cases b with
  | top done =>
      show Derives (.statements (n :: done).reverse) us rest
      rw [List.reverse_cons]
      exact .next hb hn
  | condBody key c done outer =>
      obtain ⟨ts, l, body, houter, hkey, hc, hl, hdone⟩ := hb
      refine ⟨ts, l, body, houter, hkey, hc, hl, ?_⟩
      rw [List.reverse_cons]
      exact .next hdone hn
  | funcBody s done outer =>
      obtain ⟨key, ts, l, body, houter, hkey, hs, hl, hdone⟩ := hb
      refine ⟨key, ts, l, body, houter, hkey, hs, hl, ?_⟩
      rw [List.reverse_cons]
      exact .next hdone hn

theorem Block.Read.semicolon {b : Block} {t : Token} {rest : List Token}
    (hb : b.Read us (t :: rest)) (ht : t.kind = .punct .semicolon) : b.Read us rest := by
  cases b with
  | top done => exact Derives.semicolon hb ht
  | condBody key c done outer =>
      obtain ⟨ts, l, body, houter, hkey, hc, hl, hdone⟩ := hb
      exact ⟨ts, l, body, houter, hkey, hc, hl, .semicolon hdone ht⟩
  | funcBody s done outer =>
      obtain ⟨key, ts, l, body, houter, hkey, hs, hl, hdone⟩ := hb
      exact ⟨key, ts, l, body, houter, hkey, hs, hl, .semicolon hdone ht⟩

theorem Block.Read.close {b b' : Block} {t : Token} {rest : List Token}
    (hb : b.Read us (t :: rest)) (ht : t.kind = .punct .rightBrace) (h : b.close? = some b') :
    b'.Read us rest := by
  cases b with
  | top done => cases h
  | condBody key c done outer =>
      cases h
      obtain ⟨ts, l, body, houter, hkey, hc, hl, hdone⟩ := hb
      exact houter.add (.cond hkey hc (.body hl hdone ht))
  | funcBody s done outer =>
      cases h
      obtain ⟨key, ts, l, body, houter, hkey, hs, hl, hdone⟩ := hb
      exact houter.add (.func hkey hs (.body hl hdone ht))

/-! ## One token -/

theorem startOperand_read {up : Hole} {t : Token} {rest : List Token} {σ : State}
    (hup : up.Read us (t :: rest)) (h : startOperand up t = .ok σ) : σ.Read us rest := by
  unfold startOperand at h
  split at h
  · rename_i hk
    cases h
    exact ⟨hup, hk⟩
  · rename_i hk
    split at h
    · rename_i v hv
      cases h
      exact ⟨_, hup, .int hk hv⟩
    · cases h
  · rename_i hk
    split at h
    · rename_i v hv
      cases h
      exact ⟨_, hup, .float hk hv⟩
    · cases h
  · rename_i v hk
    cases h
    exact ⟨_, hup, .bool hk⟩
  · rename_i hk
    cases h
    exact ⟨_, hup, .string hk⟩
  · rename_i hk
    cases h
    exact ⟨t, hup, hk⟩
  · cases h

theorem startStatement_read {b : Block} {t : Token} {rest : List Token} {σ : State}
    (hb : b.Read us (t :: rest)) (h : startStatement b t = .ok σ) : σ.Read us rest := by
  unfold startStatement at h
  split at h
  · rename_i hk
    cases h
    exact hb.semicolon hk
  · rename_i hk
    split at h
    · rename_i outer hclose
      cases h
      exact hb.close hk hclose
    · cases h
  · rename_i hk
    cases h
    exact ⟨t, hb, hk⟩
  · rename_i hk
    cases h
    exact ⟨hb, hk⟩
  · rename_i hk
    cases h
    exact ⟨t, hb, by rw [hk]; rfl⟩
  · rename_i hk
    cases h
    exact ⟨t, hb, by rw [hk]; rfl⟩
  · rename_i hk
    cases h
    exact ⟨hb, hk⟩
  · rename_i hk
    cases h
    exact ⟨hb, hk⟩
  · exact startOperand_read (show (Hole.alone b).Read us (t :: rest) from hb) h

/-- An operator is additive or multiplicative. -/
theorem group_of_operator {k : Token.Kind} {o : Operator} (h : k = .operator o) :
    k.group = .multiplicative ∨ k.group = .additive := by
  subst h
  cases o with
  | plus | minus => exact .inr rfl
  | star | slash => exact .inl rfl

/-- A kind binds tighter than an additive operator exactly if it is multiplicative, and no kind binds
tighter than a multiplicative one. -/
theorem precedence_lt_iff {k k' : Token.Kind} (hk : k.group ≠ .none) :
    k.precedence < k'.precedence ↔ k.group = .additive ∧ k'.group = .multiplicative := by
  cases k with
  | operator o =>
      cases k' with
      | operator o' => cases o <;> cases o' <;> decide
      | _ =>
          cases o <;> simp [Token.Kind.precedence, Operator.precedence, Token.Kind.group]
  | _ => exact absurd rfl hk

theorem Hole.level_binary (left : Node) (op : Token) (up : Hole) :
    (op.kind.group = .multiplicative → (Hole.binary left op up).level = .operand) ∧
      (op.kind.group = .additive → (Hole.binary left op up).level = .product) := by
  refine ⟨fun h => by simp [Hole.level, h], fun h => by simp [Hole.level, h]⟩

/-- The operand of an open place becomes the left operand of the operator `t`. -/
theorem read_operator {t : Token} {o : Operator} {e : Node} {up : Hole} {ts rest : List Token}
    (ht : t.kind = .operator o) (hlevel : up.level = .sum) (hup : up.Read us ts)
    (he : Derives (.expr .sum e) ts (t :: rest))
    (htight : t.kind.group = .multiplicative → Derives (.expr .product e) ts (t :: rest)) :
    (Hole.binary e t up).Read us rest := by
  rcases group_of_operator ht with hmul | hadd
  · exact ⟨ts, hup, .inl ⟨hmul, by simp [hlevel], htight hmul⟩⟩
  · exact ⟨ts, hup, .inr ⟨hadd, hlevel, he⟩⟩

/-- The token `t` comes after the expression `e` at an open place. In front of a multiplicative
operator `e` is no sum: a sum would have left its right operand to that operator. -/
theorem afterOperand_read {t : Token} {rest : List Token} {σ : State} :
    ∀ {e : Node} {up : Hole} {ts : List Token}, up.Read us ts →
      Derives (.expr up.level e) ts (t :: rest) →
      (t.kind.group = .multiplicative → Derives (.expr .product e) ts (t :: rest)) →
      afterOperand t e up = .ok σ → σ.Read us rest
  | e, .binary left op up, ts, hup, he, htight, h => by
    obtain ⟨ts₀, hread, hleft⟩ := id hup
    obtain ⟨hmul, hadd⟩ := Hole.level_binary left op up
    simp only [afterOperand] at h
    split at h
    · rename_i hlt
      cases h
      have hgroup : op.kind.group ≠ .none := by
        rcases hleft with ⟨hop, -⟩ | ⟨hop, -⟩ <;> simp [hop]
      obtain ⟨hop, ht⟩ := (precedence_lt_iff hgroup).1 hlt
      refine ⟨ts, hup, .inl ⟨ht, ?_, htight ht⟩⟩
      rw [hadd hop]
      simp
    · rename_i hge
      rcases hleft with ⟨hop, hlevel, hleft⟩ | ⟨hop, hlevel, hleft⟩
      · rw [hmul hop] at he
        have hproduct : Derives (.expr .product (.binary left op e)) ts₀ (t :: rest) :=
          .times hleft hop he
        exact afterOperand_read hread (hproduct.ofProduct hlevel) (fun _ => hproduct) h
      · rw [hadd hop] at he
        have hsum : Derives (.expr .sum (.binary left op e)) ts₀ (t :: rest) :=
          .plus hleft hop he
        refine afterOperand_read hread (by rw [hlevel]; exact hsum) (fun ht => ?_) h
        exact absurd ((precedence_lt_iff (by simp [hop])).2 ⟨hop, ht⟩) hge
  | e, .paren up, ts, hup, he, htight, h => by
    obtain ⟨l, hread, hl⟩ := id hup
    simp only [afterOperand] at h
    split at h
    · rename_i o ho
      cases h
      exact read_operator ho rfl hup he htight
    · rename_i hk
      cases h
      exact ⟨_, hread, .paren hl he hk⟩
    · cases h
  | e, .argument name done up, ts, hup, he, htight, h => by
    obtain ⟨l, ts₀, hread, hname, hl, hdone⟩ := id hup
    simp only [afterOperand] at h
    split at h
    · rename_i o ho
      cases h
      exact read_operator ho rfl hup he htight
    · rename_i hk
      cases h
      exact ⟨l, ts₀, hread, hname, hl, .inr ⟨t, hk, hdone.add he⟩⟩
    · rename_i hk
      cases h
      exact ⟨_, hread, .call hname (.arguments hl (hdone.add he) hk)⟩
    · cases h
  | e, .printed key done block, ts, hup, he, htight, h => by
    obtain ⟨l, ts₀, hread, hkey, hl, hdone⟩ := id hup
    simp only [afterOperand] at h
    split at h
    · rename_i o ho
      cases h
      exact read_operator ho rfl hup he htight
    · rename_i hk
      cases h
      exact ⟨l, ts₀, hread, hkey, hl, .inr ⟨t, hk, hdone.add he⟩⟩
    · rename_i hk
      cases h
      exact hread.add (.print hkey (.arguments hl (hdone.add he) hk))
    · cases h
  | e, .returned key block, ts, hup, he, htight, h => by
    simp only [afterOperand] at h
    split at h
    · rename_i o ho
      cases h
      exact read_operator ho rfl hup he htight
    · exact startStatement_read (hup.1.add (.ret hup.2 he)) h
  | e, .bound d block, ts, hup, he, htight, h => by
    obtain ⟨ts₀, equal, hread, hd, hequal⟩ := id hup
    simp only [afterOperand] at h
    split at h
    · rename_i o ho
      cases h
      exact read_operator ho rfl hup he htight
    · exact startStatement_read (hread.add (.assign hd hequal he)) h
  | e, .condition key block, ts, hup, he, htight, h => by
    simp only [afterOperand] at h
    split at h
    · rename_i o ho
      cases h
      exact read_operator ho rfl hup he htight
    · rename_i hk
      cases h
      exact ⟨ts, t, rest, hup.1, hup.2, he, hk, .nil⟩
    · cases h
  | e, .alone block, ts, hup, he, htight, h => by
    simp only [afterOperand] at h
    split at h
    · rename_i o ho
      cases h
      exact read_operator ho rfl hup he htight
    · exact startStatement_read (Block.Read.add hup (.alone he)) h

theorem afterSignature_read {s : Signature} {b : Block} {t : Token} {rest : List Token} {σ : State}
    (hb : (State.funcOpen s b).Read us (t :: rest)) (h : afterSignature s b t = .ok σ) :
    σ.Read us rest := by
  obtain ⟨key, ts, hread, hkey, hs⟩ := hb
  unfold afterSignature at h
  split at h
  · rename_i hk
    cases h
    exact ⟨key, ts, t, rest, hread, hkey, hs, hk, .nil⟩
  · exact startStatement_read (hread.add (.signature hkey hs)) h

/-- **One token keeps what a state stands for.** -/
theorem step_read {σ σ' : State} {t : Token} {rest : List Token} (hσ : σ.Read us (t :: rest))
    (h : step σ t = .ok σ') : σ'.Read us rest := by
  cases σ with
  | statement block => exact startStatement_read hσ h
  | operand up => exact startOperand_read hσ h
  | named name up =>
      obtain ⟨hup, hname⟩ := hσ
      simp only [step] at h
      split at h
      · rename_i hk
        cases h
        exact ⟨t, hup, hname, hk⟩
      · rename_i hk
        have href : Derives (.expr .operand (.ref name)) (name :: t :: rest) (t :: rest) :=
          .ref hname (by simpa [NotCalled] using hk)
        exact afterOperand_read hup (href.ofOperand _) (fun _ => .product href) h
  | operator e up =>
      obtain ⟨ts, hup, he⟩ := hσ
      exact afterOperand_read hup (he.ofOperand _) (fun _ => .product he) h
  | firstArgument name up =>
      obtain ⟨l, hup, hname, hl⟩ := hσ
      simp only [step] at h
      split at h
      · rename_i hk
        cases h
        exact ⟨_, hup, .call hname (.noArguments hl hk)⟩
      · exact startOperand_read (show (Hole.argument name [] up).Read us (t :: rest) from
          ⟨l, _, hup, hname, hl, .inl ⟨rfl, rfl⟩⟩) h
  | printOpen key block =>
      simp only [step] at h
      split at h
      · rename_i hk
        cases h
        exact ⟨t, hσ.1, hσ.2, hk⟩
      · cases h
  | firstPrinted key block =>
      obtain ⟨l, hread, hkey, hl⟩ := hσ
      simp only [step] at h
      split at h
      · rename_i hk
        cases h
        exact hread.add (.print hkey (.noArguments hl hk))
      · exact startOperand_read (show (Hole.printed key [] block).Read us (t :: rest) from
          ⟨l, _, hread, hkey, hl, .inl ⟨rfl, rfl⟩⟩) h
  | bindName m block =>
      obtain ⟨key, hread, hkey⟩ := hσ
      simp only [step] at h
      split at h
      · rename_i hk
        cases h
        exact ⟨key, hread, hkey, hk⟩
      · cases h
  | bindColon m name block =>
      obtain ⟨key, hread, hkey, hname⟩ := hσ
      simp only [step] at h
      split at h
      · rename_i hk
        cases h
        exact ⟨_, t, hread, .inferred hkey hname, hk⟩
      · rename_i hk
        cases h
        exact ⟨key, t, hread, hkey, hname, hk⟩
      · cases h
  | bindType m name block =>
      obtain ⟨key, colon, hread, hkey, hname, hcolon⟩ := hσ
      simp only [step] at h
      split at h
      · rename_i type htype
        cases h
        exact ⟨_, hread, .annotated hkey hname hcolon htype, rfl⟩
      · cases h
  | bindEqual d block =>
      obtain ⟨ts, hread, hd, htype⟩ := hσ
      simp only [step] at h
      split at h
      · rename_i hk
        cases h
        exact ⟨ts, t, hread, hd, hk⟩
      · exact startStatement_read (hread.add (.decl hd htype)) h
  | funcName block =>
      obtain ⟨key, hread, hkey⟩ := hσ
      simp only [step] at h
      split at h
      · rename_i hk
        cases h
        exact ⟨key, hread, hkey, hk⟩
      · cases h
  | paramsOpen name block =>
      obtain ⟨key, hread, hkey, hname⟩ := hσ
      simp only [step] at h
      split at h
      · rename_i hk
        cases h
        exact ⟨key, t, hread, hkey, hname, hk⟩
      · cases h
  | firstParam name block =>
      obtain ⟨key, l, hread, hkey, hname, hl⟩ := hσ
      simp only [step] at h
      split at h
      · rename_i hk
        cases h
        exact ⟨key, _, hread, hkey, hname, .noParameters hl hk⟩
      · rename_i hk
        cases h
        exact ⟨⟨key, l, _, hread, hkey, hname, hl, .inl ⟨rfl, rfl⟩⟩, hk⟩
      · cases h
  | nextParam name done block =>
      simp only [step] at h
      split at h
      · rename_i hk
        cases h
        exact ⟨hσ, hk⟩
      · cases h
  | paramColon name done param block =>
      simp only [step] at h
      split at h
      · rename_i hk
        cases h
        exact ⟨t, hσ.1, hσ.2, hk⟩
      · cases h
  | paramType name done param block =>
      obtain ⟨colon, ⟨key, l, ts, hread, hkey, hname, hl, hps⟩, hparam, hcolon⟩ := hσ
      simp only [step] at h
      split at h
      · rename_i type htype
        cases h
        exact ⟨key, l, ts, hread, hkey, hname, hl, hps.add hparam hcolon htype⟩
      · cases h
  | paramEnd name done block =>
      obtain ⟨key, l, ts, hread, hkey, hname, hl, hps⟩ := hσ
      simp only [step] at h
      split at h
      · rename_i hk
        cases h
        exact ⟨key, l, ts, hread, hkey, hname, hl, .inr ⟨t, hk, hps⟩⟩
      · rename_i hk
        cases h
        exact ⟨key, _, hread, hkey, hname, .parameters hl hps hk⟩
      · cases h
  | arrow name params block =>
      obtain ⟨key, ts, hread, hkey, hname, hps⟩ := hσ
      simp only [step] at h
      split at h
      · rename_i hk
        cases h
        exact ⟨key, ts, t, hread, hkey, hname, hps, hk⟩
      · exact afterSignature_read ⟨key, _, hread, hkey, .void hname hps⟩ h
  | returnType name params block =>
      obtain ⟨key, ts, arrow, hread, hkey, hname, hps, harrow⟩ := hσ
      simp only [step] at h
      split at h
      · rename_i type htype
        cases h
        exact ⟨key, _, hread, hkey, .returning hname hps harrow htype⟩
      · cases h
  | funcOpen s block => exact afterSignature_read hσ h

/-! ## The end of the tokens -/

theorem Block.Read.finish {b : Block} {t : Token} {program : List Node} (hb : b.Read us [])
    (h : b.finish t = .ok program) : Program us program := by
  cases b with
  | top done =>
      cases h
      exact hb
  | condBody | funcBody => cases h

theorem Hole.Read.finish {t : Token} {program : List Node} :
    ∀ {e : Node} {up : Hole} {ts : List Token}, up.Read us ts → Derives (.expr up.level e) ts [] →
      up.finish t e = .ok program → Program us program
  | e, .binary left op up, ts, ⟨ts₀, hread, hleft⟩, he, h => by
    obtain ⟨hmul, hadd⟩ := Hole.level_binary left op up
    have hall : Derives (.expr up.level (.binary left op e)) ts₀ [] := by
      rcases hleft with ⟨hop, hlevel, hleft⟩ | ⟨hop, hlevel, hleft⟩
      · rw [hmul hop] at he
        exact Derives.ofProduct (.times hleft hop he) hlevel
      · rw [hadd hop] at he
        rw [hlevel]
        exact .plus hleft hop he
    exact Hole.Read.finish hread hall h
  | e, .returned key block, ts, hup, he, h => (hup.1.add (.ret hup.2 he)).finish h
  | e, .bound d block, ts, ⟨_, _, hread, hd, hequal⟩, he, h =>
    (hread.add (.assign hd hequal he)).finish h
  | e, .alone block, ts, hup, he, h => (Block.Read.add hup (.alone he)).finish h
  | e, .condition .., _, _, _, h => by cases h
  | e, .paren _, _, _, _, h => by cases h
  | e, .argument .., _, _, _, h => by cases h
  | e, .printed .., _, _, _, h => by cases h

theorem finish_read {σ : State} {t : Token} {program : List Node} (hσ : σ.Read us [])
    (h : finish σ t = .ok program) : Program us program := by
  cases σ with
  | statement block => exact Block.Read.finish hσ h
  | named name up =>
      have href : Derives (.expr .operand (.ref name)) [name] [] :=
        .ref hσ.2 (by simp [NotCalled])
      exact Hole.Read.finish hσ.1 (href.ofOperand _) h
  | operator e up =>
      obtain ⟨ts, hup, he⟩ := hσ
      exact Hole.Read.finish hup (he.ofOperand _) h
  | bindEqual d block =>
      obtain ⟨ts, hread, hd, htype⟩ := hσ
      exact (hread.add (.decl hd htype)).finish h
  | arrow name params block =>
      obtain ⟨key, ts, hread, hkey, hname, hps⟩ := hσ
      exact (hread.add (.signature hkey (.void hname hps))).finish h
  | funcOpen s block =>
      obtain ⟨key, ts, hread, hkey, hs⟩ := hσ
      exact (hread.add (.signature hkey hs)).finish h
  | _ => cases h

/-- **What a run returns is derived**, if what it starts from has been read of the tokens. -/
theorem derives_of_run {last : Token} {program : List Node} :
    ∀ {ts : List Token} {σ : State}, (∀ t ∈ ts, t.kind ≠ .endOfFile) → σ.Read us ts →
      run last σ ts = .ok program → Program us program
  | [], _, _, hσ, h => finish_read hσ h
  | t :: ts, σ, hts, hσ, h => by
    rw [List.forall_mem_cons] at hts
    rw [run, if_neg hts.1] at h
    split at h
    · cases h
    · rename_i next hstep
      exact derives_of_run hts.2 (step_read hσ hstep) h

end Parsing

end Swiftlet
