import Swiftlet.Token.Lexing

/-!
# Spelling tokens

Tokens written down one after the other are read back as they are.

* `Token.IsLexeme` — a token that has a spelling: its text is one that the lexer gives its kind to.
* `Token.spelling` — the bytes of a token in a source text.
* `goesOn k b` — behind a token of kind `k` the byte `b` would be taken for a part of the token.
* `spell` — the tokens with as few blanks as keep them apart: one only where the next byte would go on
  with the token before it.
* `Lexing.Spelled` — bytes that are the spellings of tokens, with any blanks between them.
* `Token.IsScanned` — the lexer gives such a token; `isScanned_of_lex` says that all the tokens of a
  source text are like that.

Principal results: `lex_spell`, that lexing inverts spelling, positions apart, and
`isLexeme_of_isScanned`, that only tokens with a spelling are lexed.
-/

namespace Swiftlet

open Lexing

/-- Spelled like a name, which keywords and truth values are too. -/
def Lexing.IsWord (w : Bytes) : Prop :=
  ∃ b bs, w = b :: bs ∧ startsName b = true ∧ ∀ c ∈ bs, inName c = true

namespace Token

/-- A token without its position. -/
def unplaced (t : Token) : Token := { t with pos := .zero }

@[simp] theorem unplaced_kind (t : Token) : t.unplaced.kind = t.kind := rfl

@[simp] theorem unplaced_lexeme (t : Token) : t.unplaced.lexeme = t.lexeme := rfl

/-- The text of a token is one that the lexer gives its kind to. -/
def IsLexeme (t : Token) : Prop :=
  match t.kind with
  | .identifier =>
    IsWord t.lexeme ∧ (∀ k : Keyword, t.lexeme ≠ k.spelling) ∧
      ∀ v, t.lexeme ≠ (Token.Kind.bool v).name
  | .int => t.lexeme ≠ [] ∧ ∀ c ∈ t.lexeme, Bytes.isDigit c = true
  | .float =>
    ∃ whole fraction, t.lexeme = whole ++ 46 :: fraction ∧ whole ≠ [] ∧ fraction ≠ [] ∧
      (∀ c ∈ whole, Bytes.isDigit c = true) ∧ ∀ c ∈ fraction, Bytes.isDigit c = true
  | .string =>
    t.lexeme = [Bytes.quote, Bytes.quote] ∨
      t.lexeme ≠ [] ∧ Bytes.quote ∉ t.lexeme ∧ Bytes.newline ∉ t.lexeme
  | .endOfFile | .unknown => False
  | k => t.lexeme = k.name

theorem IsLexeme.kind_ne_endOfFile {t : Token} (h : t.IsLexeme) : t.kind ≠ .endOfFile := by
  intro hkind
  simp only [IsLexeme, hkind] at h

/-- The bytes of a token in a source text: a string stands in quotes. -/
def spelling (t : Token) : Bytes :=
  if t.kind = .string ∧ t.lexeme ≠ [Bytes.quote, Bytes.quote] then
    Bytes.quote :: (t.lexeme ++ [Bytes.quote])
  else t.lexeme

end Token

/-- Whether behind a token of a kind the next byte would be taken for a part of the token. -/
def goesOn : Token.Kind → UInt8 → Bool
  | .identifier, b | .keyword _, b | .bool _, b => inName b
  | .int, b => Bytes.isDigit b || b == 46
  | .float, b => Bytes.isDigit b
  | .operator .minus, b => b == 62
  | .operator .slash, b => b == 47
  | _, _ => false

/-- The bytes `bs` behind a token of kind `k`, and a blank in between if it takes one. -/
def apart (k : Token.Kind) (bs : Bytes) : Bytes :=
  if bs.head?.any (goesOn k) then 32 :: bs else bs

/-- Tokens as a source text. -/
def spell : List Token → Bytes
  | [] => []
  | t :: ts => t.spelling ++ apart t.kind (spell ts)

/-- No byte of a token of kind `k` comes next. -/
def Stops (k : Token.Kind) (bs : Bytes) : Prop := ∀ b ∈ bs.head?, goesOn k b = false

theorem stops_apart (k : Token.Kind) (bs : Bytes) : Stops k (apart k bs) := by
  intro b hb
  unfold apart at hb
  split at hb
  · cases hb
    cases k with
    | operator o => cases o <;> rfl
    | _ => rfl
  · rename_i hnot
    rw [hb] at hnot
    simpa using hnot

namespace Lexing

/-! ## Reading one token -/

theorem takeWhile_append_stop {p : UInt8 → Bool} {bs : Bytes} (rest : Bytes)
    (h : ∀ b ∈ bs, p b = true) (hrest : ∀ b ∈ rest.head?, p b = false) :
    (bs ++ rest).takeWhile p = bs ∧ (bs ++ rest).dropWhile p = rest := by
  rw [List.takeWhile_append_of_pos h, List.dropWhile_append_of_pos h]
  cases rest with
  | nil => simp
  | cons b rest => simp [hrest b rfl]

/-- The bytes that are no part of a number or a word. -/
def marks : Bytes :=
  [40, 41, 123, 125, 44, 46, 58, 59, 61, 43, 42, 45, 47, 32, 13, 9, Bytes.newline, Bytes.quote]

theorem scan_of_not_mem_marks {b : UInt8} (bs : Bytes) (h : b ∉ marks) :
    scan b bs = if Bytes.isDigit b then .ok (scanNumber b bs)
      else if startsName b then .ok (scanWord b bs) else .error (.unexpected b) := by
  simp only [marks, List.mem_cons, List.not_mem_nil, not_or] at h
  simp [scan, single?, isBlank, h]

theorem scan_of_isDigit {b : UInt8} (bs : Bytes) (h : Bytes.isDigit b = true) :
    scan b bs = .ok (scanNumber b bs) := by
  have hmarks : marks.all (fun c => !Bytes.isDigit c) = true := by decide
  have hb : b ∉ marks := fun hmem => by simpa [h] using List.all_eq_true.1 hmarks b hmem
  rw [scan_of_not_mem_marks bs hb, if_pos h]

/-- What can start a name starts no number. -/
theorem not_number_of_startsName {b : UInt8} (h : startsName b = true) :
    Bytes.isDigit b = false ∧ b ≠ 43 ∧ b ≠ 45 := by
  simp only [startsName, isLetter, Bytes.isDigit] at *
  grind

theorem scan_of_startsName {b : UInt8} (bs : Bytes) (h : startsName b = true) :
    scan b bs = .ok (scanWord b bs) := by
  have hmarks : marks.all (fun c => !startsName c) = true := by decide
  have hb : b ∉ marks := fun hmem => by simpa [h] using List.all_eq_true.1 hmarks b hmem
  simp [scan_of_not_mem_marks bs hb, not_number_of_startsName h, h]

/-- What the lexer has to read at the head of `bs` to give the token `t` and leave `rest`. -/
def Reads (t : Token) (bs rest : Bytes) : Prop :=
  ∃ b tail, bs = b :: tail ∧ scan b tail = .ok ⟨.token t.kind t.lexeme, t.spelling, rest⟩

theorem reads_word {t : Token} {rest : Bytes} (h : IsWord t.lexeme)
    (hkind : wordKind t.lexeme = t.kind) (hstring : t.kind ≠ .string)
    (hrest : ∀ b ∈ rest.head?, inName b = false) : Reads t (t.spelling ++ rest) rest := by
  obtain ⟨b, bs, hlexeme, hb, hbs⟩ := h
  have hspelling : t.spelling = b :: bs := by simp [Token.spelling, hstring, hlexeme]
  obtain ⟨htake, hdrop⟩ := takeWhile_append_stop rest hbs hrest
  refine ⟨b, bs ++ rest, by rw [hspelling]; rfl, ?_⟩
  rw [scan_of_startsName _ hb, scanWord, htake, hdrop, hspelling, ← hkind, hlexeme]
  rfl

/-- A point behind an integer does not matter unless a digit follows it. -/
theorem reads_int {t : Token} {rest : Bytes} (ht : t.kind = .int) (hne : t.lexeme ≠ [])
    (h : ∀ c ∈ t.lexeme, Bytes.isDigit c = true)
    (hrest : ∀ c ∈ rest.head?, Bytes.isDigit c = false)
    (hpoint : ∀ d more, rest = 46 :: d :: more → Bytes.isDigit d = false) :
    Reads t (t.spelling ++ rest) rest := by
  obtain ⟨b, bs, hlexeme⟩ := List.exists_cons_of_ne_nil hne
  have hspelling : t.spelling = b :: bs := by simp [Token.spelling, ht, hlexeme]
  rw [hlexeme, List.forall_mem_cons] at h
  obtain ⟨htake, hdrop⟩ := takeWhile_append_stop rest h.2 hrest
  refine ⟨b, bs ++ rest, by rw [hspelling]; rfl, ?_⟩
  rw [scan_of_isDigit _ h.1, scanNumber, htake, hdrop, hspelling, ht, hlexeme]
  split
  · rename_i d more
    simp [hpoint d more rfl, Scanned.plain]
  · rfl

theorem reads_float {t : Token} {rest whole fraction : Bytes} (ht : t.kind = .float)
    (hlexeme : t.lexeme = whole ++ 46 :: fraction) (hwhole : whole ≠ []) (hfraction : fraction ≠ [])
    (hw : ∀ c ∈ whole, Bytes.isDigit c = true) (hf : ∀ c ∈ fraction, Bytes.isDigit c = true)
    (hrest : Stops .float rest) : Reads t (t.spelling ++ rest) rest := by
  obtain ⟨b, bs, rfl⟩ := List.exists_cons_of_ne_nil hwhole
  obtain ⟨d, ds, rfl⟩ := List.exists_cons_of_ne_nil hfraction
  have hspelling : t.spelling = b :: (bs ++ 46 :: d :: ds) := by simp [Token.spelling, ht, hlexeme]
  rw [List.forall_mem_cons] at hw hf
  obtain ⟨htake, hdrop⟩ := takeWhile_append_stop (46 :: d :: (ds ++ rest)) hw.2
    (by rintro c ⟨⟩; rfl)
  obtain ⟨htake', hdrop'⟩ := takeWhile_append_stop rest hf.2 hrest
  refine ⟨b, bs ++ 46 :: d :: (ds ++ rest), by rw [hspelling]; simp, ?_⟩
  rw [scan_of_isDigit _ hw.1, scanNumber, htake, hdrop]
  simp only [hf.1, if_true, htake', hdrop', Scanned.plain, hspelling, ht, hlexeme,
    List.cons_append]

theorem reads_string {t : Token} {body rest : Bytes} (ht : t.kind = .string)
    (hspelling : t.spelling = Bytes.quote :: (body ++ [Bytes.quote]))
    (hlexeme : t.lexeme = if body = [] then [Bytes.quote, Bytes.quote] else body)
    (hquote : Bytes.quote ∉ body) (hnewline : Bytes.newline ∉ body) :
    Reads t (t.spelling ++ rest) rest := by
  have hbody : ∀ b ∈ body, (b != Bytes.quote && b != Bytes.newline) = true := by
    intro b hb
    simp only [Bool.and_eq_true, bne_iff_ne]
    exact ⟨fun h => hquote (h ▸ hb), fun h => hnewline (h ▸ hb)⟩
  obtain ⟨htake, hdrop⟩ := takeWhile_append_stop (Bytes.quote :: rest) hbody
    (by rintro c ⟨⟩; rfl)
  refine ⟨Bytes.quote, body ++ Bytes.quote :: rest, by rw [hspelling]; simp, ?_⟩
  have hscan : scan Bytes.quote (body ++ Bytes.quote :: rest) =
      scanString (body ++ Bytes.quote :: rest) := rfl
  rw [hscan, scanString, htake, hdrop, hspelling, ht, hlexeme]
  rfl

/-- A word that is neither a truth value nor a keyword is an identifier. -/
theorem wordKind_eq_identifier {w : Bytes} (hkeyword : ∀ k : Keyword, w ≠ k.spelling)
    (htruth : ∀ v, w ≠ (Token.Kind.bool v).name) : wordKind w = .identifier := by
  have hnone : Keyword.ofSpelling? w = none :=
    List.find?_eq_none.2 fun k _ => by simpa using (hkeyword k).symm
  have htrue : w ≠ utf8 "true" := htruth true
  have hfalse : w ≠ utf8 "false" := htruth false
  rw [wordKind, if_neg htrue, if_neg hfalse, hnone]

theorem isWord_spelling (k : Keyword) :
    IsWord k.spelling ∧ wordKind k.spelling = .keyword k := by
  cases k with
  | type t => cases t <;> exact ⟨⟨_, _, rfl, by decide, List.all_eq_true.1 (by decide)⟩, by decide⟩
  | _ => exact ⟨⟨_, _, rfl, by decide, List.all_eq_true.1 (by decide)⟩, by decide⟩

theorem isWord_truth (v : Bool) :
    IsWord (Token.Kind.bool v).name ∧ wordKind (Token.Kind.bool v).name = .bool v := by
  cases v <;> exact ⟨⟨_, _, rfl, by decide, List.all_eq_true.1 (by decide)⟩, by decide⟩

theorem reads_punct (p : Punct) (pos : Pos) (rest : Bytes) :
    Reads ⟨.punct p, p.spelling, pos⟩ (p.spelling ++ rest) rest := by
  cases p <;> exact ⟨_, _, rfl, rfl⟩

theorem reads_operator {o : Operator} (pos : Pos) {rest : Bytes}
    (hrest : Stops (.operator o) rest) :
    Reads ⟨.operator o, o.spelling, pos⟩ (o.spelling ++ rest) rest := by
  cases o with
  | plus | star => exact ⟨_, _, rfl, rfl⟩
  | minus =>
      refine ⟨45, rest, rfl, ?_⟩
      change Except.ok (scanMinus rest) = _
      unfold scanMinus
      split
      · exact absurd (hrest 62 rfl) (by decide)
      · rfl
  | slash =>
      refine ⟨47, rest, rfl, ?_⟩
      change Except.ok (scanSlash rest) = _
      unfold scanSlash
      split
      · exact absurd (hrest 47 rfl) (by decide)
      · rfl

/-- **A token that has a spelling is read from it**, if no byte that would go on with it follows. -/
theorem reads_spelling {t : Token} {rest : Bytes} (h : t.IsLexeme) (hrest : Stops t.kind rest) :
    Reads t (t.spelling ++ rest) rest := by
  obtain ⟨kind, lexeme, pos⟩ := t
  cases kind with
  | identifier =>
      obtain ⟨hword, hkeyword, htruth⟩ := h
      exact reads_word hword (wordKind_eq_identifier hkeyword htruth) (by simp) hrest
  | int =>
      have hstop : ∀ c ∈ rest.head?, Bytes.isDigit c = false ∧ c ≠ 46 := by
        intro c hc
        simpa [goesOn] using hrest c hc
      refine reads_int rfl h.1 h.2 (fun c hc => (hstop c hc).1) ?_
      rintro d more rfl
      exact absurd rfl (hstop 46 rfl).2
  | float =>
      obtain ⟨whole, fraction, hlexeme, hwhole, hfraction, hw, hf⟩ := h
      exact reads_float rfl hlexeme hwhole hfraction hw hf hrest
  | string =>
      obtain hempty | ⟨hne, hquote, hnewline⟩ := h
      · cases hempty
        exact reads_string rfl rfl rfl (List.not_mem_nil) (List.not_mem_nil)
      · refine reads_string rfl ?_ (if_neg hne).symm hquote hnewline
        have hbare : lexeme ≠ [Bytes.quote, Bytes.quote] := by
          rintro rfl
          exact hquote List.mem_cons_self
        exact if_pos ⟨rfl, hbare⟩
  | bool v =>
      obtain rfl : lexeme = (Token.Kind.bool v).name := h
      exact reads_word (isWord_truth v).1 (isWord_truth v).2 (by simp) hrest
  | keyword k =>
      obtain rfl : lexeme = k.spelling := h
      exact reads_word (isWord_spelling k).1 (isWord_spelling k).2 (by simp) hrest
  | punct p =>
      obtain rfl : lexeme = p.spelling := h
      exact reads_punct p pos rest
  | operator o =>
      obtain rfl : lexeme = o.spelling := h
      exact reads_operator pos hrest
  | endOfFile | unknown => cases h

/-! ## Reading them all -/

theorem lexFrom_of_reads {t : Token} {bs rest : Bytes} (h : Reads t bs rest) (pos : Pos)
    {ts : List Token} (hrest : lexFrom (pos.right t.spelling.length) rest = .ok ts) :
    lexFrom pos bs = .ok ({ t with pos } :: ts) := by
  obtain ⟨b, tail, rfl, hscan⟩ := h
  rw [lexFrom]
  split
  · rename_i hs
    cases hscan.symm.trans hs
  · rename_i s hs
    cases hscan.symm.trans hs
    simp [hrest]

theorem lexFrom_blank (pos : Pos) (bs : Bytes) :
    lexFrom pos (32 :: bs) = lexFrom (pos.right 1) bs := by
  rw [lexFrom]
  split
  · rename_i hs
    cases hs
  · rename_i s hs
    cases hs
    rfl

/-- The bytes are the spellings of the tokens, each with any number of blanks before it, and no token
runs on into what follows it. -/
inductive Spelled : Bytes → List Token → Prop where
  | nil : Spelled [] []
  | blank {bs : Bytes} {ts : List Token} (h : Spelled bs ts) : Spelled (32 :: bs) ts
  | token {t : Token} {bs : Bytes} {ts : List Token} (ht : t.IsLexeme) (hstops : Stops t.kind bs)
      (h : Spelled bs ts) : Spelled (t.spelling ++ bs) (t :: ts)

theorem spelled_spell {ts : List Token} (h : ∀ t ∈ ts, t.IsLexeme) : Spelled (spell ts) ts := by
  induction ts with
  | nil => exact .nil
  | cons t ts ih =>
      rw [List.forall_mem_cons] at h
      refine .token h.1 (stops_apart t.kind (spell ts)) ?_
      unfold apart
      split
      · exact .blank (ih h.2)
      · exact ih h.2

theorem Spelled.lexFrom {bs : Bytes} {ts : List Token} (h : Spelled bs ts) (pos : Pos) :
    ∃ ts' last, lexFrom pos bs = .ok (ts' ++ [Token.endAt last]) ∧
      ts'.map Token.unplaced = ts.map Token.unplaced := by
  induction h generalizing pos with
  | nil => exact ⟨[], pos, by rw [Lexing.lexFrom]; rfl, rfl⟩
  | blank _ ih =>
      rw [lexFrom_blank]
      exact ih _
  | @token t bs ts ht hstops _ ih =>
      obtain ⟨ts', last, hlex, heq⟩ := ih (pos.right t.spelling.length)
      refine ⟨{ t with pos } :: ts', last, ?_, ?_⟩
      · exact lexFrom_of_reads (reads_spelling ht hstops) pos hlex
      · rw [List.map_cons, List.map_cons, heq]
        rfl

/-- **Tokens that are spelled and lexed are the tokens again**, positions apart. -/
theorem lex_spell {ts : List Token} (h : ∀ t ∈ ts, t.IsLexeme) :
    ∃ ts' last, lex (spell ts) = .ok (ts' ++ [Token.endAt last]) ∧
      ts'.map Token.unplaced = ts.map Token.unplaced :=
  (spelled_spell h).lexFrom Pos.start

end Lexing

/-! ## What the lexer gives -/

/-- A token that the lexer gives for some input, or the end of an input. -/
def Token.IsScanned (t : Token) : Prop :=
  t.kind = .endOfFile ∨ ∃ b bs s, Lexing.scan b bs = .ok s ∧ s.piece = .token t.kind t.lexeme

namespace Lexing

theorem isScanned_of_lexFrom (pos : Pos) (bs : Bytes) {ts : List Token}
    (h : lexFrom pos bs = .ok ts) : ∀ t ∈ ts, t.IsScanned := by
  match bs with
  | [] =>
      rw [lexFrom] at h
      cases h
      simp [Token.IsScanned, Token.endAt]
  | b :: bs =>
      rw [lexFrom] at h
      split at h
      · cases h
      rename_i s hs
      have hlt := scan_rest_lt hs
      split at h
      · exact isScanned_of_lexFrom _ s.rest h
      · exact isScanned_of_lexFrom _ s.rest h
      · rename_i kind lexeme hpiece
        split at h
        · cases h
        rename_i rest hrest
        cases h
        exact List.forall_mem_cons.2
          ⟨.inr ⟨b, bs, s, hs, hpiece⟩, isScanned_of_lexFrom _ s.rest hrest⟩
termination_by bs.length
decreasing_by
  all_goals
    rw [List.length_cons] at hlt
    simp_wf
    omega

/-- **Every token of a source text is one that the lexer gives.** -/
theorem isScanned_of_lex {source : Bytes} {ts : List Token} (h : lex source = .ok ts) :
    ∀ t ∈ ts, t.IsScanned :=
  isScanned_of_lexFrom _ _ h

theorem isLexeme_of_single? {b : UInt8} {kind : Token.Kind} (h : single? b = some kind)
    (pos : Pos) : Token.IsLexeme ⟨kind, [b], pos⟩ := by
  revert h
  fun_cases single? b
  all_goals rintro ⟨⟩
  all_goals
    subst b
    exact rfl

theorem isLexeme_of_scanString {bs : Bytes} {s : Scanned} {kind : Token.Kind} {lexeme : Bytes}
    (h : scanString bs = .ok s) (hpiece : s.piece = .token kind lexeme) (pos : Pos) :
    Token.IsLexeme ⟨kind, lexeme, pos⟩ := by
  have hbody : ∀ c ∈ bs.takeWhile fun b => b != Bytes.quote && b != Bytes.newline,
      (c != Bytes.quote && c != Bytes.newline) = true :=
    List.all_eq_true.1 List.all_takeWhile
  unfold scanString at h
  simp only at h
  split at h
  · cases h
  split at h
  · cases h
    cases hpiece
    split
    · exact .inl rfl
    · rename_i hne
      exact .inr ⟨hne, fun hmem => by simpa using hbody _ hmem,
        fun hmem => by simpa using hbody _ hmem⟩
  · cases h

theorem isLexeme_of_scanNumber {b : UInt8} (hb : Bytes.isDigit b = true) (bs : Bytes)
    {kind : Token.Kind} {lexeme : Bytes} (hpiece : (scanNumber b bs).piece = .token kind lexeme)
    (pos : Pos) : Token.IsLexeme ⟨kind, lexeme, pos⟩ := by
  have hwhole : ∀ c ∈ b :: bs.takeWhile Bytes.isDigit, Bytes.isDigit c = true :=
    List.forall_mem_cons.2 ⟨hb, List.all_eq_true.1 List.all_takeWhile⟩
  unfold scanNumber at hpiece
  split at hpiece
  · rename_i d rest _
    split at hpiece
    · rename_i hd
      cases hpiece
      exact ⟨_, _, rfl, by simp, by simp, hwhole,
        List.forall_mem_cons.2 ⟨hd, List.all_eq_true.1 List.all_takeWhile⟩⟩
    · cases hpiece
      exact ⟨by simp, hwhole⟩
  · cases hpiece
    exact ⟨by simp, hwhole⟩

theorem isLexeme_wordKind {w : Bytes} (h : IsWord w) (pos : Pos) :
    Token.IsLexeme ⟨wordKind w, w, pos⟩ := by
  by_cases htrue : w = utf8 "true"
  · rw [wordKind, if_pos htrue]
    exact htrue
  by_cases hfalse : w = utf8 "false"
  · rw [wordKind, if_neg htrue, if_pos hfalse]
    exact hfalse
  rw [wordKind, if_neg htrue, if_neg hfalse]
  cases hkeyword : Keyword.ofSpelling? w with
  | some k =>
      have hspelling := List.find?_some hkeyword
      simp only [decide_eq_true_eq] at hspelling
      exact hspelling.symm
  | none =>
      refine ⟨h, fun k hk => ?_, fun v => by cases v <;> assumption⟩
      have hmem : k ∈ Keyword.all := by
        cases k with
        | type t => cases t <;> decide
        | _ => decide
      exact absurd (decide_eq_true hk.symm) (List.find?_eq_none.1 hkeyword k hmem)

theorem isLexeme_of_scan {b : UInt8} {bs : Bytes} {s : Scanned} {kind : Token.Kind}
    {lexeme : Bytes} (h : scan b bs = .ok s) (hpiece : s.piece = .token kind lexeme) (pos : Pos) :
    Token.IsLexeme ⟨kind, lexeme, pos⟩ := by
  revert h
  fun_cases scan b bs with
  | case1 kind hsingle =>
      rintro ⟨⟩
      cases hpiece
      exact isLexeme_of_single? hsingle pos
  | case2 =>
      rintro ⟨⟩
      unfold scanMinus at hpiece
      split at hpiece <;> cases hpiece <;> exact rfl
  | case3 =>
      rintro ⟨⟩
      unfold scanSlash at hpiece
      split at hpiece <;> cases hpiece
      exact rfl
  | case4 | case5 =>
      rintro ⟨⟩
      cases hpiece
  | case6 => exact fun h => isLexeme_of_scanString h hpiece pos
  | case7 _ _ _ _ _ _ hdigit =>
      rintro ⟨⟩
      exact isLexeme_of_scanNumber hdigit bs hpiece pos
  | case8 _ _ _ _ _ _ _ hstart =>
      rintro ⟨⟩
      cases hpiece
      exact isLexeme_wordKind ⟨b, _, rfl, hstart, List.all_eq_true.1 List.all_takeWhile⟩ pos
  | case9 => rintro ⟨⟩

/-- **A token that the lexer gives has a spelling**, the end of the input apart. -/
theorem isLexeme_of_isScanned {t : Token} (h : t.IsScanned) (hend : t.kind ≠ .endOfFile) :
    t.IsLexeme := by
  obtain hk | ⟨b, bs, s, hscan, hpiece⟩ := h
  · exact absurd hk hend
  · exact isLexeme_of_scan hscan hpiece t.pos

end Lexing

end Swiftlet
