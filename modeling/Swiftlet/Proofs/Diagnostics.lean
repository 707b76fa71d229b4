import Swiftlet.Pipeline
import Swiftlet.Proofs.Lexing.Refusal
import Swiftlet.Proofs.Parsing.Refusal
import Swiftlet.Proofs.Source.Excerpt
import Swiftlet.Proofs.Typing.Repeated

/-!
# Diagnostics point into the source

A source text is refused by the lexer, by the parser or by the checker. The lexer counts positions, the
parser and the checker hand on tokens, and the excerpt is cut out of the text again; so that a problem
is shown where it is, all of them have to agree.

* `Refused entry text p` — the problem `p` of a source text is found before any code is made of it.
* `Blamed text p t x` — the token `t`, with which the problem is reported, stands where the text has the
  bytes `x`: those of a token of the text, or the first byte of the lexeme that offends.

Principal results: `analyze_error`, that a program is refused at one of its tokens, and
`diagnostic_shown`.
-/

namespace Swiftlet

variable {P : Token → Prop}

theorem Node.IsStatement.token_holds {n : Node} (h : n.IsStatement P) : P n.token := by
  cases h with
  | expr he => exact he.token_holds
  | decl hd => exact hd.name.holds
  | assign hd _ => exact hd.holds
  | signature hs | func hs _ => exact hs.name.holds
  | cond ht _ _ | ret ht _ | print ht _ => exact ht

namespace Typing

/-! ## The checker points at a token of the program -/

theorem checkEntry_error {entry : Bytes} {program : List Node} {e : Error} (hne : program ≠ [])
    (hshape : ∀ n ∈ program, n.IsStatement P) (h : checkEntry entry program = .error e) :
    P e.token := by
  unfold checkEntry at h
  split at h
  · exact absurd rfl hne
  · rename_i s body rest
    rw [List.forall_mem_cons] at hshape
    have hname : P s.name := hshape.1.token_holds
    split at h
    · cases h
      exact hname
    split at h
    · rename_i again more hagain
      cases h
      have hmem : again ∈ rest := List.mem_of_mem_filter (hagain ▸ List.mem_cons_self)
      exact (hshape.2 again hmem).token_holds
    split at h
    · cases h
      exact hname
    split at h
    · cases h
      exact hname
    · cases h
  · cases h
    exact (hshape _ List.mem_cons_self).token_holds

theorem checkParams_error {params : List Decl} {seen : List Bytes} {e : Error}
    (hparams : ∀ p ∈ params, P p.name) (h : checkParams seen params = .error e) : P e.token := by
  induction params generalizing seen with
  | nil => cases h
  | cons p params ih =>
      rw [List.forall_mem_cons] at hparams
      rw [checkParams] at h
      split at h
      · cases h
        exact hparams.1
      split at h
      · cases h
        exact hparams.1
      · exact ih hparams.2 h

mutual

theorem collectNode_error {s : Signature} {e : Error} {n : Node} {bound : List Bytes}
    (hn : n.IsStatement P) (h : collectNode s bound n = .error e) : P e.token := by
  cases n with
  | decl d =>
      cases h
      exact hn.token_holds
  | assign d v =>
      have hname : P d.name := hn.token_holds
      rw [collectNode] at h
      split at h
      · cases h
        exact hname
      split at h
      · cases h
        exact hname
      · cases h
  | cond t c body =>
      rw [collectNode] at h
      exact collectBody_error hn.cond_parts.2 h
  | _ => cases h

theorem collectBody_error {s : Signature} {e : Error} {body : List Node} {bound : List Bytes}
    (hbody : ∀ n ∈ body, n.IsStatement P) (h : collectBody s bound body = .error e) :
    P e.token := by
  cases body with
  | nil => cases h
  | cons n rest =>
      rw [List.forall_mem_cons] at hbody
      rw [collectBody] at h
      split at h
      · rename_i he
        cases h
        exact collectNode_error hbody.1 he
      · exact collectBody_error hbody.2 h

end

theorem collectItem_error {n : Node} {e : Error} (hn : n.IsStatement P)
    (h : collectItem n = .error e) : P e.token := by
  cases n with
  | signature s =>
      have hs := hn.isParsed rfl
      exact checkParams_error (fun p hp => (hs.params p hp).name.holds) h
  | func s body =>
      have hs := hn.isParsed rfl
      rw [collectItem] at h
      split at h
      · rename_i he
        cases h
        exact checkParams_error (fun p hp => (hs.params p hp).name.holds) he
      split at h
      · rename_i he
        cases h
        exact collectBody_error hn.func_body he
      · cases h
  | _ =>
      cases h
      exact hn.token_holds

theorem collectItems_error {ns : List Node} {e : Error} (hns : ∀ n ∈ ns, n.IsStatement P)
    (h : collectItems ns = .error e) : P e.token := by
  induction ns with
  | nil => cases h
  | cons n ns ih =>
      rw [List.forall_mem_cons] at hns
      rw [collectItems] at h
      split at h
      · rename_i he
        cases h
        exact collectItem_error hns.1 he
      · exact ih hns.2 h

/-- **A program that is refused is refused at one of its tokens**, if there is anything in it. -/
theorem analyze_error {entry : Bytes} {program : List Node} {st : Stopped (List Node)}
    (hne : program ≠ []) (hshape : ∀ n ∈ program, n.IsStatement P)
    (h : analyze entry program = .error st) : P st.error.token := by
  have hrefused := h
  unfold analyze at h
  split at h
  · rename_i he
    cases h
    exact checkEntry_error hne hshape he
  rename_i hentry
  split at h
  · rename_i he
    cases h
    exact collectItems_error hshape he
  rename_i hcollect
  rw [collectItems_eq_ok_iff] at hcollect
  have hsigs : Signatures program := .of_collect hshape hcollect
  split at h
  · rename_i hcheck
    cases h
    exact (ItemsFilled.of_checkItems hsigs (fun _ hn => hn) hshape hcollect hcheck).2
  -- what passes all three is well typed, so no type is missing in the end
  · rename_i d hcheck
    have htyped : WellTyped entry program d.tree :=
      ⟨checkEntry_eq_ok_iff.1 hentry, items_of_checkItems hshape hcollect hcheck⟩
    cases hrefused.symm.trans (htyped.analyze_eq hshape)

end Typing

namespace Parsing

/-- **Tokens that are refused are refused at one of them**, if one of them ends the text. -/
theorem token_mem_of_parse {ts : List Token} {e : Error} (hend : ∃ t ∈ ts, t.kind = .endOfFile)
    (h : parse ts = .error e) : e.token ∈ ts := by
  obtain ⟨before, t, after, σ, heq, -, hrefuses⟩ := run_error rfl h
  rw [endedBy, if_pos hend] at heq
  rw [heq, hrefuses.asks.token]
  simp

end Parsing

open Lexing Source

/-! ## What a problem points at -/

/-- The bytes of a token in its source: the one at the end has none. -/
def Token.written (t : Token) : Bytes := if t.kind = .endOfFile then [] else t.spelling

/-- A problem of a source text that a stage finds before there is any code. The checker is only asked
about programs with something in them. -/
inductive Refused (entry text : Bytes) : Problem → Prop where
  | lexing {e : Lexing.Error} (h : lex text = .error e) : Refused entry text (.lexing e)
  | parsing {ts : List Token} {e : Parsing.Error} (hlex : lex text = .ok ts)
      (h : Parsing.parse ts = .error e) : Refused entry text (.parsing e)
  | typing {ts : List Token} {program : List Node} {st : Typing.Stopped (List Node)}
      (hlex : lex text = .ok ts) (hparse : Parsing.parse ts = .ok program) (hne : program ≠ [])
      (h : Typing.analyze entry program = .error st) : Refused entry text (.typing st.error)

/-- What a problem is blamed on: the first byte of a lexeme that offends behind tokens and gaps, or a
token of the text. -/
inductive Blamed (text : Bytes) : Problem → Token → Bytes → Prop where
  | lexeme {e : Lexing.Error} {t : Token} {before rest : Bytes} {ts : List Token}
      (htext : text = before ++ rest) (hcut : Cut IsText [] before rest ts)
      (hoffends : Offends e.cause rest) (hpos : t.pos = posAfter before) :
      Blamed text (.lexing e) t (rest.take 1)
  | token {t : Token} {ts : List Token} (p : Problem) (hlex : lex text = .ok ts) (ht : t ∈ ts) :
      Blamed text p t t.written

section

variable {path text : Bytes} {t : Token} {ts : List Token}

/-- A token of a source text is shown. -/
theorem shown_of_mem (hlex : lex text = .ok ts) (ht : t ∈ ts) :
    Shown ⟨path, text⟩ t.pos t.written := by
  obtain ⟨x, y, rest, rfl, hpos, hy⟩ := (partition_of_lexFrom [] text hlex).place ht
  rw [hpos, List.nil_append, Token.written]
  rcases hy with ⟨hlexeme, rfl⟩ | ⟨hkind, rfl, rfl⟩
  · rw [if_neg hlexeme.kind_ne_endOfFile]
    have hline := newline_not_mem_spelling hlexeme
    refine shown_at ?_ hline (getLast?_spelling hlexeme)
    rw [List.head?_append_of_ne_nil _ (spelling_ne_nil hlexeme)]
    exact fun h => hline (List.mem_of_head? h)
  · rw [if_pos hkind]
    exact shown_at (by simp) (by simp) (by simp)

/-- The first byte of an offending lexeme is shown. -/
theorem shown_of_offends {before rest : Bytes} {cause : Cause} (h : Offends cause rest) :
    Shown ⟨path, before ++ rest⟩ (posAfter before) (rest.take 1) := by
  cases rest with
  | nil => cases h
  | cons b rest =>
      obtain ⟨hcr, hnewline⟩ := h.starts
      refine shown_at (x := [b]) ?_ ?_ ?_
      · simpa using hnewline
      · simpa using Ne.symm hnewline
      · simpa using hcr

/-- What is reported with an excerpt has it in its text. -/
theorem excerpt_infix_errorText {s : Source} (hne : s.excerpt t.pos ≠ []) (r : Reporter)
    (message : Bytes) : s.excerpt t.pos <:+: r.errorText (some s) ⟨message, some t⟩ := by
  have hhint : s.excerpt t.pos <:+: r.hintText s t := by
    unfold Reporter.hintText
    split
    · rename_i h
      exact absurd h hne
    · exact ⟨_, _, rfl⟩
  exact hhint.trans (List.suffix_append _ _).isInfix

/-- **Every problem of a source text is shown where it is.** It is reported with a token of the text,
or with the place of the first byte of the lexeme that offends. The report has an excerpt, which is
never empty: the line of the source with these bytes at the column of the position, and below it the
caret at the same column. -/
theorem diagnostic_shown {entry : Bytes} {p : Problem} (h : Refused entry text p) :
    ∃ t x, p.token? = some t ∧ Blamed text p t x ∧ Shown ⟨path, text⟩ t.pos x ∧
      Source.excerpt ⟨path, text⟩ t.pos ≠ [] ∧
      ∀ r : Reporter, Source.excerpt ⟨path, text⟩ t.pos <:+:
        r.errorText (some ⟨path, text⟩) p.diagnostic := by
  suffices hshown : ∃ t x, p.token? = some t ∧ Blamed text p t x ∧ Shown ⟨path, text⟩ t.pos x by
    obtain ⟨t, x, htoken, hblamed, hshown⟩ := hshown
    refine ⟨t, x, htoken, hblamed, hshown, hshown.excerpt_ne_nil, fun r => ?_⟩
    rw [Problem.diagnostic, htoken]
    exact excerpt_infix_errorText hshown.excerpt_ne_nil r _
  cases h with
  | @lexing e h =>
      obtain ⟨before, rest, ts, rfl, hcut, hpos, hoffends⟩ := (lexFrom_error_iff [] text).1 h
      rw [List.nil_append] at hpos
      refine ⟨Token.bare e.pos, _, rfl, .lexeme rfl hcut hoffends hpos, ?_⟩
      exact hpos ▸ shown_of_offends hoffends
  | parsing hlex h =>
      obtain ⟨us, rfl, -⟩ := (partition_of_lexFrom [] text hlex).ends
      have hmem := Parsing.token_mem_of_parse ⟨_, List.mem_append_right us List.mem_cons_self, rfl⟩ h
      exact ⟨_, _, rfl, .token _ hlex hmem, shown_of_mem hlex hmem⟩
  | @typing ts program st hlex hparse hne h =>
      have hmem : st.error.token ∈ ts :=
        Typing.analyze_error hne (Parsing.parse_grown (fun _ ht => ht) hparse) h
      exact ⟨_, _, rfl, .token _ hlex hmem, shown_of_mem hlex hmem⟩

end

/-- A program that prints a name which is not declared, on a line with a tab and a CR. -/
def undeclaredText : Bytes := utf8 "func main() \x7b\r\n\tprint(x)\r\n\x7d"

def undeclaredTokens : List Token :=
  [⟨.keyword .func, utf8 "func", ⟨1, 1⟩⟩, ⟨.identifier, utf8 "main", ⟨1, 6⟩⟩,
    ⟨.punct .leftParen, utf8 "(", ⟨1, 10⟩⟩, ⟨.punct .rightParen, utf8 ")", ⟨1, 11⟩⟩,
    ⟨.punct .leftBrace, utf8 "\x7b", ⟨1, 13⟩⟩, ⟨.keyword .printing, utf8 "print", ⟨2, 2⟩⟩,
    ⟨.punct .leftParen, utf8 "(", ⟨2, 7⟩⟩, ⟨.identifier, utf8 "x", ⟨2, 8⟩⟩,
    ⟨.punct .rightParen, utf8 ")", ⟨2, 9⟩⟩, ⟨.punct .rightBrace, utf8 "\x7d", ⟨3, 1⟩⟩,
    Token.endAt ⟨3, 2⟩]

def undeclaredProgram : List Node :=
  [.func ⟨⟨.identifier, utf8 "main", ⟨1, 6⟩⟩, [], some .void⟩
    [.print ⟨.keyword .printing, utf8 "print", ⟨2, 2⟩⟩ [.ref ⟨.identifier, utf8 "x", ⟨2, 8⟩⟩]]]

theorem diagnostic_shown_undeclared :
    let s : Source := ⟨utf8 "a.swift", undeclaredText⟩
    let p : Problem := .typing ⟨.undeclared (utf8 "x"), ⟨.identifier, utf8 "x", ⟨2, 8⟩⟩⟩
    Refused defaultEntry undeclaredText p ∧
      ∃ t x, p.token? = some t ∧ Blamed undeclaredText p t x ∧ Shown s t.pos x ∧
        s.excerpt t.pos ≠ [] ∧
        ∀ r : Reporter, s.excerpt t.pos <:+: r.errorText (some s) p.diagnostic := by
  intro s p
  have hlex : lex undeclaredText = .ok undeclaredTokens := by decide +kernel
  have hparse : Parsing.parse undeclaredTokens = .ok undeclaredProgram := by rfl
  have hanalyze : Typing.analyze defaultEntry undeclaredProgram =
      .error ⟨⟨.undeclared (utf8 "x"), ⟨.identifier, utf8 "x", ⟨2, 8⟩⟩⟩, undeclaredProgram⟩ := by rfl
  have hrefused : Refused defaultEntry undeclaredText p :=
    .typing hlex hparse (List.cons_ne_nil _ _) hanalyze
  exact ⟨hrefused, diagnostic_shown hrefused⟩

end Swiftlet
