import Swiftlet.Proofs.CSource.Literals
import Swiftlet.Proofs.Parsing.RoundTrip

/-!
# Expressions in C keep their tree

An expression goes into C source with every operation in parentheses. For the forms that both languages
write alike the text is source text again, and reading it gives the tree back.

* `Node.IsPart` — an expression or statement somewhere in a tree.
* `Node.IsCommon` — the forms that both languages write alike: no `Float`, and strings of printable ASCII
  characters without a backslash.
* `Node.unspelled` — an expression without positions and without the spelling of its numbers.
* `Node.closedTokens` — the tokens of an expression with every operation in parentheses and with numbers
  in decimal.
* `Delimited` — a text that is the spelling of tokens wherever a blank, a comma, a closing parenthesis or
  nothing follows.

Principal results: `readsBack_closedTokens`, that the tokens are read as the tree, `expression_delimited`,
that the text is the spelling of the tokens, and from both of them `parse_expression`.
-/

namespace Swiftlet

open Grammar Parsing Lexing

/-! ## The expressions of a program -/

namespace Node

def children : Node → List Node
  | .assign _ v | .ret _ v => [v]
  | .binary l _ r => [l, r]
  | .call _ args | .print _ args => args
  | .func _ body => body
  | .cond _ c body => c :: body
  | _ => []

/-- `e` stands somewhere in a tree. -/
inductive IsPart (e : Node) : Node → Prop where
  | self : IsPart e e
  | child {m n : Node} (hm : m ∈ n.children) (h : IsPart e m) : IsPart e n

theorem Writable.children {n : Node} (h : n.Writable) : ∀ m ∈ n.children, m.Writable := by
  cases h with
  | expr he =>
      cases he with
      | call _ hargs => exact fun a ha => .expr (hargs a ha)
      | binary _ hl hr => simpa [Node.children] using ⟨.expr hl, .expr hr⟩
      | _ => exact List.forall_mem_nil _
  | assign _ hv | ret _ hv => simpa [Node.children] using .expr hv
  | func _ hbody => exact hbody
  | cond _ hc hbody => exact List.forall_mem_cons.2 ⟨.expr hc, hbody⟩
  | print _ hargs => exact fun a ha => .expr (hargs a ha)
  | _ => exact List.forall_mem_nil _

theorem IsPart.writable {e n : Node} (h : e.IsPart n) (hn : n.Writable) : e.Writable := by
  induction h with
  | self => exact hn
  | child hm _ ih => exact ih (hn.children _ hm)

/-- An expression that both languages write alike. -/
inductive IsCommon : Node → Prop where
  | int (t : Token) (v : Int32) : IsCommon (.int t v)
  | bool (t : Token) (v : Bool) : IsCommon (.bool t v)
  | string (t : Token) {v : Bytes} (hv : ∀ b ∈ v, 0x20 ≤ b ∧ b ≤ 0x7E ∧ b ≠ 92) :
      IsCommon (.string t v)
  | ref (name : Token) : IsCommon (.ref name)
  | call (name : Token) {args : List Node} (hargs : ∀ a ∈ args, IsCommon a) :
      IsCommon (.call name args)
  | binary (op : Token) {l r : Node} (hl : IsCommon l) (hr : IsCommon r) :
      IsCommon (.binary l op r)

theorem IsCommon.writableExpr {e : Node} (h : e.IsCommon) (he : e.Writable) : e.WritableExpr := by
  cases he with
  | expr he => exact he
  | _ => cases h

mutual

/-- An expression without the positions of its tokens and the spelling of its numbers. -/
def unspelled : Node → Node
  | .int t v => .int ⟨t.kind, [], .zero⟩ v
  | .float t v => .float ⟨t.kind, [], .zero⟩ v
  | .binary l op r => .binary l.unspelled op.unplaced r.unspelled
  | .call name args => .call name.unplaced (unspelledAll args)
  | n => n.unplaced

def unspelledAll : List Node → List Node
  | [] => []
  | n :: ns => n.unspelled :: unspelledAll ns

end

@[simp] theorem unspelledAll_eq_map (ns : List Node) :
    unspelledAll ns = ns.map Node.unspelled := by
  induction ns with
  | nil => rfl
  | cons n ns ih => rw [unspelledAll, ih, List.map_cons]

mutual

/-- The tokens of an expression with every operation in parentheses. -/
def closedTokens : Node → List Token
  | .int _ v => [⟨.int, Bytes.ofInt v.toInt, .zero⟩]
  | .binary l op r => enclosed .leftParen .rightParen (l.closedTokens ++ op :: r.closedTokens)
  | .call name args =>
    name :: enclosed .leftParen .rightParen (separated .comma (closedTokensAll args))
  | n => n.tokens

def closedTokensAll : List Node → List (List Token)
  | [] => []
  | n :: ns => n.closedTokens :: closedTokensAll ns

end

@[simp] theorem closedTokensAll_eq_map (ns : List Node) :
    closedTokensAll ns = ns.map Node.closedTokens := by
  induction ns with
  | nil => rfl
  | cons n ns ih => rw [closedTokensAll, ih, List.map_cons]

/-! ## The tokens are read as the tree -/

/-- Digits give no negative number, and its decimal text gives the number again. -/
theorem WritableExpr.canonical {t : Token} {v : Int32} (ht : t.Spells .int)
    (hv : Numeral.int32? t.lexeme = some v) :
    (Node.int ⟨.int, Bytes.ofInt v.toInt, .zero⟩ v).WritableExpr := by
  have hdigits : t.lexeme ≠ [] ∧ ∀ c ∈ t.lexeme, Bytes.isDigit c = true := by
    have hlexeme := ht.lexeme
    rwa [Token.IsLexeme, ht.kind] at hlexeme
  simp only [Numeral.int32?, int?_of_isDigit hdigits.1 hdigits.2] at hv
  split at hv
  · rename_i hrange
    cases hv
    have hvalue : (Int32.ofInt (Bytes.digitsValue t.lexeme)).toInt = Bytes.digitsValue t.lexeme :=
      Int32.toInt_ofInt_of_le (by omega) (by omega)
    rw [hvalue]
    exact writableExpr_int (by omega) .zero
  · cases hv

theorem readsBack_closedTokens {n : Node} (h : n.WritableExpr) (hn : n.IsCommon) :
    ReadsBack (.expr .operand) Node.unspelled n n.closedTokens := by
  induction h with
  | @int t v ht hv =>
      refine readsBack_token (.int · v) fun u hu => ?_
      cases WritableExpr.canonical ht hv with
      | int ht' hv' =>
          have hkind := kind_of_unplaced hu
          refine ⟨by simp [unspelled, hkind, ht.kind], fun rest _ => .int hkind ?_⟩
          rw [lexeme_of_unplaced hu]
          exact hv'
  | @bool t v ht =>
      refine readsBack_token (.bool · v) fun u hu =>
        ⟨by simp [unspelled, Node.unplaced, hu], fun rest _ => ?_⟩
      exact .bool ((kind_of_unplaced hu).trans ht.kind)
  | @string t ht =>
      refine readsBack_token (.string · (Bytes.without Bytes.quote t.lexeme))
        fun u hu => ⟨by simp [unspelled, Node.unplaced, hu], fun rest _ => ?_⟩
      rw [← lexeme_of_unplaced hu]
      exact .string ((kind_of_unplaced hu).trans ht.kind)
  | @ref name hname =>
      refine readsBack_token .ref fun u hu =>
        ⟨by simp [unspelled, Node.unplaced, hu], fun rest hrest => ?_⟩
      exact .ref ((kind_of_unplaced hu).trans hname.kind) hrest
  | float => cases hn
  | @call name args hname _ ih =>
      cases hn with
      | call _ hargs =>
          intro us hus
          rw [closedTokens, closedTokensAll_eq_map] at hus
          obtain ⟨u, vs, rfl, hu, hvs⟩ := hus.of_cons
          obtain ⟨es, hes, hspans⟩ := readsBack_arguments (fun a ha => ih a ha (hargs a ha)) vs hvs
          refine ⟨.call u es, by simp [unspelled, hu, hes], fun rest hrest => ?_⟩
          exact .call ((kind_of_unplaced hu).trans hname.kind) (hspans rest hrest)
  | @binary l r op o hop _ _ ihl ihr =>
      cases hn with
      | binary _ hl hr =>
          intro us hus
          obtain ⟨a, ts, b, rfl, ha, hb, hts⟩ := Same.of_enclosed hus
          obtain ⟨vs, _, rfl, hvs, hts⟩ := hts.of_append
          obtain ⟨u, ws, rfl, hu, hws⟩ := hts.of_cons
          have hkind : u.kind = .operator o := (kind_of_unplaced hu).trans hop.kind
          obtain ⟨l', hl', hleft⟩ := ihl hl vs hvs
          obtain ⟨r', hr', hright⟩ := ihr hr ws hws
          refine ⟨.binary l' u r', by simp [unspelled, hu, hl', hr'], fun rest hrest => ?_⟩
          have hinner : Derives (.expr o.level (.binary l' u r')) (vs ++ u :: ws ++ b :: rest)
              (b :: rest) := by
            rw [List.append_assoc]
            have hl := hleft (u :: (ws ++ b :: rest)) (notCalled_cons _ hkind (by simp))
            have hr := hright (b :: rest) (notCalled_cons _ hb (by simp))
            exact .binary hkind (hl.ofOperand _) (hr.ofOperand _)
          rw [List.cons_append, List.append_assoc]
          exact .paren ha (hinner.raise o.level.fits_sum) hb

end Node

/-! ## The text is the spelling of the tokens -/

theorem Lexing.Spelled.lexemes {bs : Bytes} {ts : List Token} (h : Spelled bs ts) : Lexemes ts := by
  induction h with
  | nil => exact .nil
  | blank _ ih => exact ih
  | token ht _ _ ih => exact .cons ht ih

theorem Token.Spells.spelling_eq {t : Token} {k : Token.Kind} (h : t.Spells k) (hk : k ≠ .string) :
    t.spelling = t.lexeme := by
  simp [Token.spelling, h.kind, hk]

theorem Token.Spells.spelling_string {t : Token} (ht : t.Spells .string) :
    t.spelling = Bytes.quote :: (Bytes.without Bytes.quote t.lexeme ++ [Bytes.quote]) := by
  have hlexeme := ht.lexeme
  rw [Token.IsLexeme, ht.kind] at hlexeme
  obtain hempty | ⟨-, hquote, -⟩ := hlexeme
  · rw [Token.spelling, hempty]
    simp [Bytes.without]
  · have hbare : t.lexeme ≠ [Bytes.quote, Bytes.quote] := by
      intro h
      exact hquote (h ▸ List.mem_cons_self)
    have hwithout : Bytes.without Bytes.quote t.lexeme = t.lexeme :=
      List.filter_eq_self.2 fun b hb => by simpa using ne_of_mem_of_not_mem hb hquote
    rw [Token.spelling, if_pos ⟨ht.kind, hbare⟩, hwithout]

namespace CSource

/-- Bytes that are no part of the token before them, whatever it is. -/
def delimiters : Bytes := [32, 40, 41, 44]

theorem goesOn_delimiter (k : Token.Kind) : ∀ b ∈ delimiters, goesOn k b = false := by
  intro b hb
  simp only [delimiters, List.mem_cons, List.not_mem_nil, or_false] at hb
  cases k with
  | operator o => cases o <;> rcases hb with rfl | rfl | rfl | rfl <;> rfl
  | _ => rcases hb with rfl | rfl | rfl | rfl <;> rfl

/-- In front of a delimiter or of nothing, the text is the spelling of the tokens. -/
def Delimited (text : Bytes) (ts : List Token) : Prop :=
  ∀ rest us, (∀ b ∈ rest.head?, b ∈ delimiters) → Spelled rest us → Spelled (text ++ rest) (ts ++ us)

theorem spelled_punct (p : Punct) {bs : Bytes} {ts : List Token} (h : Spelled bs ts) :
    Spelled (p.spelling ++ bs) (fixed (.punct p) :: ts) :=
  .token (t := fixed (.punct p)) rfl (fun _ _ => rfl) h

theorem delimited_token {t : Token} (ht : t.IsLexeme) : Delimited t.spelling [t] :=
  fun _ _ hrest h => .token ht (fun b hb => goesOn_delimiter t.kind b (hrest b hb)) h

theorem delimited_parens {text : Bytes} {ts : List Token} (h : Delimited text ts) :
    Delimited (utf8 "(" ++ text ++ utf8 ")") (enclosed .leftParen .rightParen ts) := by
  intro rest us _ hrest
  have hclose : Spelled (utf8 ")" ++ rest) (fixed (.punct .rightParen) :: us) :=
    spelled_punct .rightParen hrest
  have hinner := h _ _ (by rintro b ⟨⟩; decide) hclose
  have hopen : Spelled (utf8 "(" ++ _) (fixed (.punct .leftParen) :: _) :=
    spelled_punct .leftParen hinner
  simpa [enclosed] using hopen

/-- An operation: blanks stand around its operator. -/
theorem delimited_operation {l r : Bytes} {ls rs : List Token} {op : Token} (hl : Delimited l ls)
    (hop : op.IsLexeme) (hr : Delimited r rs) :
    Delimited (l ++ utf8 " " ++ op.spelling ++ utf8 " " ++ r) (ls ++ op :: rs) := by
  intro rest us hdelimiter hrest
  have hright : Spelled (32 :: (r ++ rest)) (rs ++ us) := .blank (hr rest us hdelimiter hrest)
  have hmiddle := delimited_token hop _ _ (by rintro b ⟨⟩; decide) hright
  have hleft := hl _ _ (by rintro b ⟨⟩; decide) (.blank hmiddle)
  have hblank : utf8 " " = [32] := rfl
  simpa [hblank] using hleft

theorem delimited_join {texts : List Bytes} {tss : List (List Token)}
    (h : List.Forall₂ Delimited texts tss) :
    Delimited (Bytes.join (utf8 ", ") texts) (separated .comma tss) := by
  induction h with
  | nil => exact fun _ _ _ hrest => hrest
  | @cons text ts texts tss htext htexts ih =>
      cases htexts with
      | nil => simpa [Bytes.join, separated] using htext
      | cons =>
          intro rest us hdelimiter hrest
          have hcomma : Spelled (utf8 "," ++ _) (fixed (.punct .comma) :: _) :=
            spelled_punct .comma (.blank (ih rest us hdelimiter hrest))
          have hwhole := htext _ _ (by rintro b ⟨⟩; decide) hcomma
          have hseparator : utf8 ", " = utf8 "," ++ [32] := rfl
          simpa [Bytes.join, separated, hseparator] using hwhole

theorem quote_of_ascii {v : Bytes} (h : ∀ b ∈ v, 0x20 ≤ b ∧ b ≤ 0x7E ∧ b ≠ 92)
    (hquote : Bytes.quote ∉ v) : Quoted.quote v = Bytes.quote :: (v ++ [Bytes.quote]) := by
  have hescape : (Utf8.runes v).flatMap Quoted.escape = v := by
    induction v with
    | nil =>
        rw [Utf8.runes]
        rfl
    | cons b v ih =>
        rw [List.forall_mem_cons] at h
        rw [List.mem_cons, not_or] at hquote
        have hb : 0x20 ≤ b.toNat ∧ b.toNat ≤ 0x7E ∧ b.toNat ≠ 92 ∧ b.toNat ≠ 34 := by
          refine ⟨h.1.1, h.1.2.1, fun heq => h.1.2.2 ?_, fun heq => hquote.1 ?_⟩
          · exact UInt8.toNat_inj.1 heq
          · exact UInt8.toNat_inj.1 heq.symm
        have hlow : b < 0x80 := by
          rw [UInt8.lt_iff_toNat_lt]
          exact Nat.lt_succ_of_le (Nat.le_succ_of_le hb.2.1)
        have hfirst : Utf8.first b v = (.point b.toNat [b], v) := by
          unfold Utf8.first
          exact if_pos hlow
        have hprint : Printable.isPrintable b.toNat = true := by
          rw [Printable.isPrintable, if_pos (by omega)]
          simp only [Bool.and_eq_true, decide_eq_true_eq]
          omega
        have hescape : Quoted.escape (.point b.toNat [b]) = [b] := by
          simp only [Quoted.escape]
          rw [if_neg (by omega), if_pos hprint]
        rw [Utf8.runes, hfirst, List.flatMap_cons, hescape, ih h.2 hquote.2]
        rfl
  rw [Quoted.quote, hescape, List.cons_append]

theorem expressions_delimited {args : List Node}
    (h : ∀ a ∈ args, ∃ text, expression a = .ok text ∧ Delimited text a.closedTokens) :
    ∃ texts, expressions args = .ok texts ∧
      List.Forall₂ Delimited texts (args.map Node.closedTokens) := by
  induction args with
  | nil => exact ⟨[], rfl, .nil⟩
  | cons a args ih =>
      rw [List.forall_mem_cons] at h
      obtain ⟨text, htext, hdelimited⟩ := h.1
      obtain ⟨texts, htexts, hall⟩ := ih h.2
      exact ⟨text :: texts, by simp [expressions, htext, htexts], .cons hdelimited hall⟩

theorem expression_delimited {n : Node} (h : n.WritableExpr) (hn : n.IsCommon) :
    ∃ text, expression n = .ok text ∧ Delimited text n.closedTokens := by
  induction h with
  | @int t v ht hv =>
      cases Node.WritableExpr.canonical ht hv with
      | int ht' _ =>
          refine ⟨_, rfl, ?_⟩
          have hdelimited := delimited_token ht'.lexeme
          rwa [ht'.spelling_eq (by simp)] at hdelimited
  | float => cases hn
  | @bool t v ht =>
      have hlexeme : t.lexeme = (Token.Kind.bool v).name := by
        have := ht.lexeme
        rwa [Token.IsLexeme, ht.kind] at this
      refine ⟨t.spelling, ?_, delimited_token ht.lexeme⟩
      rw [ht.spelling_eq (by simp), hlexeme]
      cases v <;> rfl
  | @string t ht =>
      cases hn with
      | string _ hv =>
          refine ⟨t.spelling, ?_, delimited_token ht.lexeme⟩
          rw [ht.spelling_string, ← quote_of_ascii hv (by simp [Bytes.without])]
          rfl
  | @ref name hname =>
      refine ⟨_, rfl, ?_⟩
      have hdelimited := delimited_token hname.lexeme
      rwa [hname.spelling_eq (by simp)] at hdelimited
  | @call name args hname _ ih =>
      cases hn with
      | call _ hargs =>
          obtain ⟨texts, htexts, hall⟩ := expressions_delimited fun a ha => ih a ha (hargs a ha)
          refine ⟨_, by rw [expression, htexts], ?_⟩
          rw [Node.closedTokens, Node.closedTokensAll_eq_map]
          intro rest us hdelimiter hrest
          have hparens := delimited_parens (delimited_join hall) rest us hdelimiter hrest
          have hwhole := delimited_token hname.lexeme _ _ (by rintro b ⟨⟩; decide) hparens
          rw [hname.spelling_eq (by simp)] at hwhole
          simpa using hwhole
  | @binary l r op o hop _ _ ihl ihr =>
      cases hn with
      | binary _ hl hr =>
          obtain ⟨left, hleft, hls⟩ := ihl hl
          obtain ⟨right, hright, hrs⟩ := ihr hr
          refine ⟨_, by simp only [expression, hleft, hright]; rfl, ?_⟩
          have hparens := delimited_parens (delimited_operation hls hop.lexeme hrs)
          rw [hop.spelling_eq (by simp)] at hparens
          simpa [Node.closedTokens] using hparens

/-! ## Reading an expression back -/

theorem Delimited.spelled {text : Bytes} {ts : List Token} (h : Delimited text ts) :
    Spelled text ts := by
  have hspelled := h [] [] (by rintro b ⟨⟩) .nil
  rwa [List.append_nil, List.append_nil] at hspelled

/-- **The C text of an expression keeps its tree.** Every expression of a parsed program in the forms
that both languages write alike has a text, and that text is lexed and parsed as the expression, the
positions of its tokens and the spelling of its numbers apart. -/
theorem parse_expression {source : Bytes} {tokens : List Token} {program : List Node} {n e : Node}
    (hlex : lex source = .ok tokens) (hparse : parse tokens = .ok program) (hn : n ∈ program)
    (he : e.IsPart n) (hcommon : e.IsCommon) :
    ∃ text tokens' e', expression e = .ok text ∧ lex text = .ok tokens' ∧
      parse tokens' = .ok [e'] ∧ e'.unspelled = e.unspelled := by
  have hwritable := hcommon.writableExpr (he.writable (writable_of_parse hlex hparse n hn))
  obtain ⟨text, htext, hdelimited⟩ := expression_delimited hwritable hcommon
  obtain ⟨us, last, hus, hsame⟩ := hdelimited.spelled.lexFrom Pos.start
  obtain ⟨e', he', hspans⟩ := Node.readsBack_closedTokens hwritable hcommon us hsame
  have hderives := hspans [] (by rintro _ ⟨⟩)
  rw [List.append_nil] at hderives
  refine ⟨text, _, e', htext, hus, parse_of_program ?_, he'⟩
  rw [takeWhile_append_endAt (Same.kind_ne_endOfFile hsame hdelimited.spelled.lexemes)]
  exact .next .nil (.alone (hderives.ofOperand .sum))

/-- A token on the first line. -/
def placed (column : Nat) (k : Token.Kind) (lexeme : String) : Token := ⟨k, utf8 lexeme, ⟨1, column⟩⟩

/-- The tokens of `return a-(b-f(007,"x"))`. -/
def nestedTokens : List Token :=
  [placed 1 (.keyword .returning) "return", placed 8 .identifier "a", placed 9 (.operator .minus) "-",
    placed 10 (.punct .leftParen) "(", placed 11 .identifier "b", placed 12 (.operator .minus) "-",
    placed 13 .identifier "f", placed 14 (.punct .leftParen) "(", placed 15 .int "007",
    placed 18 (.punct .comma) ",", placed 19 .string "x", placed 22 (.punct .rightParen) ")",
    placed 23 (.punct .rightParen) ")", Token.endAt ⟨1, 24⟩]

/-- The value that is returned there. -/
def nested : Node :=
  .binary (.ref (placed 8 .identifier "a")) (placed 9 (.operator .minus) "-")
    (.binary (.ref (placed 11 .identifier "b")) (placed 12 (.operator .minus) "-")
      (.call (placed 13 .identifier "f")
        [.int (placed 15 .int "007") 7, .string (placed 19 .string "x") (utf8 "x")]))

theorem parse_expression_nested :
    lex (utf8 "return a-(b-f(007,\"x\"))") = .ok nestedTokens ∧
      parse nestedTokens = .ok [.ret (placed 1 (.keyword .returning) "return") nested] ∧
      nested.IsCommon ∧
      ∃ text tokens' e', expression nested = .ok text ∧ lex text = .ok tokens' ∧
        parse tokens' = .ok [e'] ∧ e'.unspelled = nested.unspelled := by
  have hlex : lex (utf8 "return a-(b-f(007,\"x\"))") = .ok nestedTokens := by decide +kernel
  have hparse :
      parse nestedTokens = .ok [.ret (placed 1 (.keyword .returning) "return") nested] := by rfl
  have hcommon : nested.IsCommon := by
    refine .binary _ (.ref _) (.binary _ (.ref _) (.call _ ?_))
    rw [List.forall_mem_cons, List.forall_mem_singleton]
    exact ⟨.int _ _, .string _ (List.forall_iff_forall_mem.1 (by decide))⟩
  have hpart : nested.IsPart (.ret (placed 1 (.keyword .returning) "return") nested) :=
    .child List.mem_cons_self .self
  exact ⟨hlex, hparse, hcommon, parse_expression hlex hparse List.mem_cons_self hpart hcommon⟩

/-- Every operation is in parentheses, and numbers are in decimal. -/
example : expression nested = .ok (utf8 "(a - (b - f(7, \"x\")))") := by decide +kernel

end CSource

end Swiftlet
