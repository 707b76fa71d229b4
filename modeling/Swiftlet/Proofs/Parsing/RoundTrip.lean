import Swiftlet.Proofs.Parsing.Printing

/-!
# Source texts and trees

Writing a tree down and reading it back gives the tree, and `Node.Writable` is just what that takes.

Principal results: `writable_of_parse`, that every parsed tree is writable, and `parse_source_iff`, that
a program is read back from its source, positions apart, exactly if it is writable.
-/

namespace Swiftlet

open Grammar Parsing

/-! ## What the parser builds is writable -/

/-- The trees of a phrase are writable. -/
def Grammar.Phrase.Writable : Phrase → Prop
  | .expr _ e => e.WritableExpr
  | .list es | .arguments es => ∀ e ∈ es, e.WritableExpr
  | .binding d => d.name.Spells .identifier
  | .params ps | .parameters ps =>
    ∀ p ∈ ps, p.mutable = false ∧ p.name.Spells .identifier ∧ p.type.isSome
  | .signature s => s.Writable
  | .statement n => n.Writable
  | .statements ns | .body ns => ∀ n ∈ ns, n.Writable

theorem operator_of_group {k : Token.Kind} (h : k.group ≠ .none) : ∃ o, k = .operator o := by
  cases k with
  | operator o => exact ⟨o, rfl⟩
  | _ => exact absurd rfl h

theorem Lexemes.head {t : Token} {ts : List Token} (h : Lexemes (t :: ts)) : t.IsLexeme :=
  h t List.mem_cons_self

theorem Lexemes.tail {t : Token} {ts : List Token} (h : Lexemes (t :: ts)) : Lexemes ts :=
  fun u hu => h u (List.mem_cons_of_mem t hu)

/-- Tokens that have spellings derive writable trees, and those behind them are left. -/
theorem Grammar.Derives.writable {p : Phrase} {ts rest : List Token} (h : Derives p ts rest) :
    Lexemes ts → p.Writable ∧ Lexemes rest := by
  induction h with
  | int ht hv => exact fun hts => ⟨.int ⟨ht, hts.head⟩ hv, hts.tail⟩
  | float ht hv => exact fun hts => ⟨.float ⟨ht, hts.head⟩ hv, hts.tail⟩
  | bool ht => exact fun hts => ⟨.bool ⟨ht, hts.head⟩, hts.tail⟩
  | string ht => exact fun hts => ⟨.string ⟨ht, hts.head⟩, hts.tail⟩
  | ref hname => exact fun hts => ⟨.ref ⟨hname, hts.head⟩, hts.tail⟩
  | paren _ _ _ ih =>
      intro hts
      obtain ⟨he, hrest⟩ := ih hts.tail
      exact ⟨he, hrest.tail⟩
  | call hname _ ih =>
      intro hts
      obtain ⟨hes, hrest⟩ := ih hts.tail
      exact ⟨.call ⟨hname, hts.head⟩ hes, hrest⟩
  | product _ ih | sum _ ih => exact ih
  | times _ hop _ ihl ihr | plus _ hop _ ihl ihr =>
      intro hts
      obtain ⟨hl, hmid⟩ := ihl hts
      obtain ⟨hr, hrest⟩ := ihr hmid.tail
      obtain ⟨o, ho⟩ := operator_of_group (by rw [hop]; simp)
      exact ⟨.binary ⟨ho, hmid.head⟩ hl hr, hrest⟩
  | one _ ih =>
      intro hts
      obtain ⟨he, hrest⟩ := ih hts
      exact ⟨List.forall_mem_singleton.2 he, hrest⟩
  | more _ _ _ ihes ihe =>
      intro hts
      obtain ⟨hes, hmid⟩ := ihes hts
      obtain ⟨he, hrest⟩ := ihe hmid.tail
      exact ⟨List.forall_mem_append.2 ⟨hes, List.forall_mem_singleton.2 he⟩, hrest⟩
  | noArguments | noParameters => exact fun hts => ⟨List.forall_mem_nil _, hts.tail.tail⟩
  | arguments _ _ _ ih | parameters _ _ _ ih | body _ _ _ ih =>
      intro hts
      obtain ⟨hes, hrest⟩ := ih hts.tail
      exact ⟨hes, hrest.tail⟩
  | param hname =>
      intro hts
      exact ⟨List.forall_mem_singleton.2 ⟨rfl, ⟨hname, hts.head⟩, rfl⟩, hts.tail.tail.tail⟩
  | nextParam _ _ hname _ _ ih =>
      intro hts
      obtain ⟨hps, hmid⟩ := ih hts
      refine ⟨List.forall_mem_append.2 ⟨hps, ?_⟩, hmid.tail.tail.tail.tail⟩
      exact List.forall_mem_singleton.2 ⟨rfl, ⟨hname, hmid.tail.head⟩, rfl⟩
  | void hname _ ih =>
      intro hts
      obtain ⟨hps, hrest⟩ := ih hts.tail
      exact ⟨⟨⟨hname, hts.head⟩, hps, rfl⟩, hrest⟩
  | returning hname _ _ _ ih =>
      intro hts
      obtain ⟨hps, hrest⟩ := ih hts.tail
      exact ⟨⟨⟨hname, hts.head⟩, hps, rfl⟩, hrest.tail.tail⟩
  | inferred _ hname => exact fun hts => ⟨⟨hname, hts.tail.head⟩, hts.tail.tail⟩
  | annotated _ hname => exact fun hts => ⟨⟨hname, hts.tail.head⟩, hts.tail.tail.tail.tail⟩
  | alone _ ih =>
      intro hts
      obtain ⟨he, hrest⟩ := ih hts
      exact ⟨.expr he, hrest⟩
  | decl _ htype ih =>
      intro hts
      obtain ⟨hd, hrest⟩ := ih hts
      exact ⟨.decl hd htype, hrest⟩
  | assign _ _ _ ihd ihv =>
      intro hts
      obtain ⟨hd, hmid⟩ := ihd hts
      obtain ⟨hv, hrest⟩ := ihv hmid.tail
      exact ⟨.assign hd hv, hrest⟩
  | ret hkey _ ih =>
      intro hts
      obtain ⟨hv, hrest⟩ := ih hts.tail
      exact ⟨.ret ⟨hkey, hts.head⟩ hv, hrest⟩
  | print hkey _ ih =>
      intro hts
      obtain ⟨hes, hrest⟩ := ih hts.tail
      exact ⟨.print ⟨hkey, hts.head⟩ hes, hrest⟩
  | cond hkey _ _ ihc ihns =>
      intro hts
      obtain ⟨hc, hmid⟩ := ihc hts.tail
      obtain ⟨hns, hrest⟩ := ihns hmid
      exact ⟨.cond ⟨hkey, hts.head⟩ hc hns, hrest⟩
  | signature _ _ ih =>
      intro hts
      obtain ⟨hs, hrest⟩ := ih hts.tail
      exact ⟨.signature hs, hrest⟩
  | func _ _ _ ihs ihns =>
      intro hts
      obtain ⟨hs, hmid⟩ := ihs hts.tail
      obtain ⟨hns, hrest⟩ := ihns hmid
      exact ⟨.func hs hns, hrest⟩
  | nil => exact fun hts => ⟨List.forall_mem_nil _, hts⟩
  | semicolon _ _ ih =>
      intro hts
      obtain ⟨hns, hmid⟩ := ih hts
      exact ⟨hns, hmid.tail⟩
  | next _ _ ihns ihn =>
      intro hts
      obtain ⟨hns, hmid⟩ := ihns hts
      obtain ⟨hn, hrest⟩ := ihn hmid
      exact ⟨List.forall_mem_append.2 ⟨hns, List.forall_mem_singleton.2 hn⟩, hrest⟩

/-- **Every tree that is parsed from a source text is writable.** -/
theorem writable_of_parse {bs : Bytes} {ts : List Token} {ns : List Node}
    (hlex : Lexing.lex bs = .ok ts) (hparse : parse ts = .ok ns) : ∀ n ∈ ns, n.Writable := by
  refine ((program_of_parse hparse).writable fun t ht => ?_).1
  have hkind := List.all_eq_true.1 List.all_takeWhile t ht
  have hmem := (List.takeWhile_sublist _).mem ht
  exact Lexing.isLexeme_of_isScanned (Lexing.isScanned_of_lex hlex t hmem) (by simpa using hkind)

/-! ## Positions do not matter -/

theorem Token.spells_unplaced {k : Token.Kind} {t : Token} : t.unplaced.Spells k ↔ t.Spells k :=
  ⟨fun h => ⟨h.kind, h.lexeme⟩, fun h => ⟨h.kind, h.lexeme⟩⟩

theorem Signature.writable_unplaced {s : Signature} : s.unplaced.Writable ↔ s.Writable := by
  constructor
  · rintro ⟨hname, hparams, hret⟩
    refine ⟨Token.spells_unplaced.1 hname, fun p hp => ?_, hret⟩
    obtain ⟨hmutable, hparam, htype⟩ := hparams p.unplaced (List.mem_map_of_mem hp)
    exact ⟨hmutable, Token.spells_unplaced.1 hparam, htype⟩
  · rintro ⟨hname, hparams, hret⟩
    refine ⟨Token.spells_unplaced.2 hname, List.forall_mem_map.2 fun p hp => ?_, hret⟩
    obtain ⟨hmutable, hparam, htype⟩ := hparams p hp
    exact ⟨hmutable, Token.spells_unplaced.2 hparam, htype⟩

theorem Node.WritableExpr.unplaced {n : Node} (h : n.WritableExpr) :
    n.unplaced.WritableExpr := by
  induction h with
  | int ht hv => exact .int (Token.spells_unplaced.2 ht) hv
  | float ht hv => exact .float (Token.spells_unplaced.2 ht) hv
  | bool ht => exact .bool (Token.spells_unplaced.2 ht)
  | string ht => exact .string (Token.spells_unplaced.2 ht)
  | ref hname => exact .ref (Token.spells_unplaced.2 hname)
  | call hname _ ih =>
      rw [Node.unplaced, unplacedAll_eq_map]
      exact .call (Token.spells_unplaced.2 hname) (List.forall_mem_map.2 ih)
  | binary hop _ _ ihl ihr => exact .binary (Token.spells_unplaced.2 hop) ihl ihr

theorem Node.writableExpr_of_unplaced (n : Node) (h : n.unplaced.WritableExpr) :
    n.WritableExpr := by
  match n with
  | .int .. => cases h with | int ht hv => exact .int (Token.spells_unplaced.1 ht) hv
  | .float .. => cases h with | float ht hv => exact .float (Token.spells_unplaced.1 ht) hv
  | .bool .. => cases h with | bool ht => exact .bool (Token.spells_unplaced.1 ht)
  | .string .. => cases h with | string ht => exact .string (Token.spells_unplaced.1 ht)
  | .ref .. => cases h with | ref hname => exact .ref (Token.spells_unplaced.1 hname)
  | .call name args =>
      rw [Node.unplaced, unplacedAll_eq_map] at h
      cases h with
      | call hname hargs =>
          refine .call (Token.spells_unplaced.1 hname) fun a ha => ?_
          exact a.writableExpr_of_unplaced (hargs _ (List.mem_map_of_mem ha))
  | .binary l op r =>
      cases h with
      | binary hop hl hr =>
          exact .binary (Token.spells_unplaced.1 hop) (l.writableExpr_of_unplaced hl)
            (r.writableExpr_of_unplaced hr)
  | .decl .. | .assign .. | .signature .. | .func .. | .cond .. | .ret .. | .print .. => cases h
termination_by n
decreasing_by
  all_goals simp_wf
  all_goals try omega
  have := List.sizeOf_lt_of_mem ‹_›
  omega

theorem Node.Writable.unplaced {n : Node} (h : n.Writable) : n.unplaced.Writable := by
  induction h with
  | expr he => exact .expr he.unplaced
  | decl hname htype => exact .decl (Token.spells_unplaced.2 hname) htype
  | assign hname hv => exact .assign (Token.spells_unplaced.2 hname) hv.unplaced
  | signature hs => exact .signature (Signature.writable_unplaced.2 hs)
  | func hs _ ih =>
      rw [Node.unplaced, unplacedAll_eq_map]
      exact .func (Signature.writable_unplaced.2 hs) (List.forall_mem_map.2 ih)
  | cond ht hc _ ih =>
      rw [Node.unplaced, unplacedAll_eq_map]
      exact .cond (Token.spells_unplaced.2 ht) hc.unplaced (List.forall_mem_map.2 ih)
  | ret ht hv => exact .ret (Token.spells_unplaced.2 ht) hv.unplaced
  | print ht hargs =>
      rw [Node.unplaced, unplacedAll_eq_map]
      exact .print (Token.spells_unplaced.2 ht)
        (List.forall_mem_map.2 fun a ha => (hargs a ha).unplaced)

theorem Node.writable_of_unplaced (n : Node) (h : n.unplaced.Writable) : n.Writable := by
  match n with
  | .int .. | .float .. | .bool .. | .string .. | .ref .. | .call .. | .binary .. =>
      cases h with | expr he => exact .expr (Node.writableExpr_of_unplaced _ he)
  | .decl .. =>
      cases h with
      | expr he => cases he
      | decl hname htype => exact .decl (Token.spells_unplaced.1 hname) htype
  | .assign _ v =>
      cases h with
      | expr he => cases he
      | assign hname hv =>
          exact .assign (Token.spells_unplaced.1 hname) (v.writableExpr_of_unplaced hv)
  | .signature .. =>
      cases h with
      | expr he => cases he
      | signature hs => exact .signature (Signature.writable_unplaced.1 hs)
  | .func s body =>
      rw [Node.unplaced, unplacedAll_eq_map] at h
      cases h with
      | expr he => cases he
      | func hs hbody =>
          refine .func (Signature.writable_unplaced.1 hs) fun m hm => ?_
          exact m.writable_of_unplaced (hbody _ (List.mem_map_of_mem hm))
  | .cond t c body =>
      rw [Node.unplaced, unplacedAll_eq_map] at h
      cases h with
      | expr he => cases he
      | cond ht hc hbody =>
          refine .cond (Token.spells_unplaced.1 ht) (c.writableExpr_of_unplaced hc) fun m hm => ?_
          exact m.writable_of_unplaced (hbody _ (List.mem_map_of_mem hm))
  | .ret t v =>
      cases h with
      | expr he => cases he
      | ret ht hv => exact .ret (Token.spells_unplaced.1 ht) (v.writableExpr_of_unplaced hv)
  | .print t args =>
      rw [Node.unplaced, unplacedAll_eq_map] at h
      cases h with
      | expr he => cases he
      | print ht hargs =>
          refine .print (Token.spells_unplaced.1 ht) fun a ha => ?_
          exact a.writableExpr_of_unplaced (hargs _ (List.mem_map_of_mem ha))
termination_by n
decreasing_by
  all_goals
    simp_wf
    have := List.sizeOf_lt_of_mem ‹_›
    omega

/-! ## The round trip -/

theorem Same.kind_ne_endOfFile {us ts : List Token} (h : Same us ts) (hts : Lexemes ts) :
    ∀ u ∈ us, u.kind ≠ .endOfFile := by
  intro u hu
  have hmem : u.unplaced ∈ ts.map Token.unplaced := h ▸ List.mem_map_of_mem hu
  obtain ⟨t, ht, htu⟩ := List.mem_map.1 hmem
  rw [← kind_of_unplaced htu]
  exact (hts t ht).kind_ne_endOfFile

theorem takeWhile_append_endAt {us : List Token} {last : Pos}
    (h : ∀ u ∈ us, u.kind ≠ .endOfFile) :
    (us ++ [Token.endAt last]).takeWhile (·.kind ≠ .endOfFile) = us := by
  rw [List.takeWhile_append_of_pos (by simpa using h)]
  simp [Token.endAt]

/-- **A program is read back from its source exactly if it is one that the parser can build**, the
positions of its tokens apart. -/
theorem parse_source_iff {ns : List Node} :
    (∃ ts ns', Lexing.lex (source ns) = .ok ts ∧ parse ts = .ok ns' ∧
      ns'.map Node.unplaced = ns.map Node.unplaced) ↔ ∀ n ∈ ns, n.Writable := by
  constructor
  · rintro ⟨ts, ns', hlex, hparse, heq⟩ n hn
    have hmem : n.unplaced ∈ ns'.map Node.unplaced := heq ▸ List.mem_map_of_mem hn
    obtain ⟨n', hn', hsame⟩ := List.mem_map.1 hmem
    have hwritable := writable_of_parse hlex hparse n' hn'
    exact n.writable_of_unplaced (hsame ▸ hwritable.unplaced)
  · intro h
    have hlexemes : Lexemes (separated .semicolon (ns.map Node.tokens)) :=
      .separated (List.forall_mem_map.2 fun n hn => (h n hn).lexemes)
    obtain ⟨us, last, hlex, hus⟩ := Lexing.lex_spell hlexemes
    obtain ⟨ns', hns', hspans⟩ := readsBack_statements (fun n hn => (h n hn).readsBack) us hus
    have hprogram := hspans [] (by rintro _ ⟨⟩)
    rw [List.append_nil] at hprogram
    refine ⟨_, ns', by rw [source, tokensAll_eq_map, hlex], parse_of_program ?_, hns'⟩
    rwa [takeWhile_append_endAt (Same.kind_ne_endOfFile hus hlexemes)]

/-- Parentheses and blanks stand where they are needed and nowhere else. -/
example :
    let sum := Node.binary (.ref (named "a")) (fixed (.operator .minus)) (.ref (named "b"))
    let product := Node.binary sum (fixed (.operator .star)) (.ref (named "c"))
    source [.binary product (fixed (.operator .minus)) sum,
      .ret (fixed (.keyword .returning)) (.ref (named "a"))] =
        utf8 "(a-b)*c-(a-b);return a" := by
  decide

end Swiftlet
