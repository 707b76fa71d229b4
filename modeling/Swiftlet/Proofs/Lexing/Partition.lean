import Mathlib.Data.List.Count
import Swiftlet.Proofs.Lexing.Spelling

/-!
# The tokens of a source text

Lexing cuts a source text into the spellings of its tokens and gaps between them. At each place it
takes the longest spelling that there is.

* `IsTokenText` — the bytes of some token; `IsComment` — two slashes and more on the same line.
* `Longest L x rest` — no byte string of `L` that `x ++ rest` starts with is longer than `x`.
* `Gap g rest` — the bytes `g` in front of `rest` are blanks, newlines and whole comments.
* `posAfter` — the position of the byte behind a text.
* `Partition L before bs ts` — behind the bytes `before`, the bytes `bs` are the spellings of the
  tokens `ts`, each the longest of `L`, with gaps around them.
* `Cut L before x rest ts` — the same of the bytes `x` in front of `rest`, with no token for the end.

Two slashes are two tokens as far as spellings go, and a comment to the lexer. So a text may have a
partition other than the one that the lexer finds, unless comments count as spellings.

Principal results: `longest_of_scan`, that what is scanned is a longest text, `exists_cut`, that the
lexer cuts every text up to a lexeme that it refuses, `partition_of_lexFrom` and
`lexFrom_of_partition`, that lexing finds the one partition in which comments count, and
`Partition.lexes`, that it succeeds on every text with a partition.
-/

namespace Swiftlet

namespace Lexing

/-! ## Texts and gaps -/

/-- The bytes of some token. -/
def IsTokenText (x : Bytes) : Prop := ∃ t : Token, t.IsLexeme ∧ t.spelling = x

/-- Two slashes and more on the same line. -/
def IsComment (x : Bytes) : Prop := ∃ c, x = 47 :: 47 :: c ∧ Bytes.newline ∉ c

/-- No byte string of `L` that the bytes start with is longer than `x`. -/
def Longest (L : Bytes → Prop) (x rest : Bytes) : Prop :=
  ∀ y, L y → y <+: x ++ rest → y.length ≤ x.length

/-- The bytes between two tokens. A comment goes on to the end of its line. -/
inductive Gap : Bytes → Bytes → Prop where
  | nil (rest : Bytes) : Gap [] rest
  | blank {b : UInt8} {g rest : Bytes} (hb : b ∈ [32, 9, 13, Bytes.newline]) (hg : Gap g rest) :
      Gap (b :: g) rest
  | comment {c g rest : Bytes} (hc : IsComment c)
      (hend : ∀ b ∈ (g ++ rest).head?, b = Bytes.newline) (hg : Gap g rest) : Gap (c ++ g) rest

/-- The position of the byte behind a text: lines end with a newline, and columns count bytes. -/
def posAfter (before : Bytes) : Pos :=
  ⟨1 + before.count Bytes.newline, 1 + (before.reverse.takeWhile (· ≠ Bytes.newline)).length⟩

/-- Behind `before`, the bytes are the spellings of the tokens and gaps. -/
inductive Partition (L : Bytes → Prop) : Bytes → Bytes → List Token → Prop where
  | finish {before g : Bytes} (hg : Gap g []) :
      Partition L before g [Token.endAt (posAfter (before ++ g))]
  | token {before g rest : Bytes} {t : Token} {ts : List Token} (hg : Gap g (t.spelling ++ rest))
      (ht : t.IsLexeme) (hlongest : Longest L t.spelling rest)
      (hpos : t.pos = posAfter (before ++ g))
      (hrest : Partition L (before ++ g ++ t.spelling) rest ts) :
      Partition L before (g ++ (t.spelling ++ rest)) (t :: ts)

/-- Behind `before` and in front of `rest`, the bytes are the spellings of the tokens and gaps. -/
inductive Cut (L : Bytes → Prop) : Bytes → Bytes → Bytes → List Token → Prop where
  | stop {before g rest : Bytes} (hg : Gap g rest) : Cut L before g rest []
  | token {before g x rest : Bytes} {t : Token} {ts : List Token}
      (hg : Gap g (t.spelling ++ (x ++ rest))) (ht : t.IsLexeme)
      (hlongest : Longest L t.spelling (x ++ rest)) (hpos : t.pos = posAfter (before ++ g))
      (hrest : Cut L (before ++ g ++ t.spelling) x rest ts) :
      Cut L before (g ++ (t.spelling ++ x)) rest (t :: ts)

/-- The spellings that the lexer looks for. -/
def IsText (x : Bytes) : Prop := IsTokenText x ∨ IsComment x

/-! ## Positions -/

/-- The position behind one more byte. -/
def advance (pos : Pos) (b : UInt8) : Pos :=
  if b = Bytes.newline then pos.nextLine else pos.right 1

theorem posAfter_concat (before : Bytes) (b : UInt8) :
    posAfter (before ++ [b]) = advance (posAfter before) b := by
  unfold advance
  split
  · rename_i hb
    subst hb
    simp [posAfter, Pos.nextLine]
    omega
  · rename_i hb
    simp [posAfter, Pos.right, hb]
    omega

theorem posAfter_append (before x : Bytes) :
    posAfter (before ++ x) = x.foldl advance (posAfter before) := by
  induction x generalizing before with
  | nil => simp
  | cons b x ih =>
      rw [List.append_cons, ih, posAfter_concat]
      rfl

/-- On one line a position moves by a column for each byte. -/
theorem foldl_advance {x : Bytes} (hx : Bytes.newline ∉ x) (pos : Pos) :
    x.foldl advance pos = pos.right x.length := by
  induction x generalizing pos with
  | nil => simp [Pos.right]
  | cons b x ih =>
      rw [List.mem_cons, not_or] at hx
      have hb : b ≠ Bytes.newline := fun h => hx.1 h.symm
      simp only [List.foldl_cons, advance, if_neg hb, ih hx.2, Pos.right, List.length_cons]
      congr 1
      omega

/-! ## Spellings -/

theorem wordKind_ne_string (w : Bytes) : wordKind w ≠ .string := by
  unfold wordKind
  split
  · simp
  split
  · simp
  split <;> simp

theorem isTokenText_word {w : Bytes} (h : IsWord w) : IsTokenText w :=
  ⟨⟨wordKind w, w, .start⟩, isLexeme_wordKind h .start, by
    simp [Token.spelling, wordKind_ne_string w]⟩

theorem isTokenText_int {w : Bytes} (hne : w ≠ []) (h : ∀ c ∈ w, Bytes.isDigit c = true) :
    IsTokenText w :=
  ⟨⟨.int, w, .start⟩, ⟨hne, h⟩, rfl⟩

theorem isTokenText_float {whole fraction : Bytes} (hwhole : whole ≠ []) (hfraction : fraction ≠ [])
    (hw : ∀ c ∈ whole, Bytes.isDigit c = true) (hf : ∀ c ∈ fraction, Bytes.isDigit c = true) :
    IsTokenText (whole ++ 46 :: fraction) :=
  ⟨⟨.float, whole ++ 46 :: fraction, .start⟩, ⟨_, _, rfl, hwhole, hfraction, hw, hf⟩, rfl⟩

/-- A longest text does not go on with what follows it. -/
theorem Longest.not_append {L : Bytes → Prop} {x z rest : Bytes} (h : Longest L x rest)
    (hz : z <+: rest) (hne : z ≠ []) : ¬L (x ++ z) := by
  intro hxz
  have hlength := h _ hxz ((List.prefix_append_right_inj x).2 hz)
  rw [List.length_append] at hlength
  have := List.length_pos_iff.2 hne
  omega

theorem prefix_of_mem_head? {rest : Bytes} {b : UInt8} (hb : b ∈ rest.head?) : [b] <+: rest := by
  cases rest with
  | nil => cases hb
  | cons c rest =>
      cases hb
      exact ⟨rest, rfl⟩

/-- A byte that would make a longer token does not follow. -/
theorem Longest.stops {x rest : Bytes} {p : UInt8 → Bool} (h : Longest IsTokenText x rest)
    (hp : ∀ b, p b = true → IsTokenText (x ++ [b])) : ∀ b ∈ rest.head?, p b = false := by
  intro b hb
  by_contra hin
  rw [Bool.not_eq_false] at hin
  exact h.not_append (prefix_of_mem_head? hb) (List.cons_ne_nil _ _) (hp b hin)

theorem Longest.stops_word {w rest : Bytes} (h : Longest IsTokenText w rest) (hw : IsWord w) :
    ∀ b ∈ rest.head?, inName b = false := by
  obtain ⟨c, cs, rfl, hc, hcs⟩ := hw
  refine h.stops fun b hb => isTokenText_word ⟨c, cs ++ [b], rfl, hc, ?_⟩
  exact List.forall_mem_append.2 ⟨hcs, List.forall_mem_singleton.2 hb⟩

/-- **A longest spelling is what the lexer reads**, if it is not half of the mark of a comment. -/
theorem reads_of_longest {t : Token} {rest : Bytes} (ht : t.IsLexeme)
    (h : Longest IsTokenText t.spelling rest)
    (hslash : t.kind = .operator .slash → ∀ b ∈ rest.head?, b ≠ 47) :
    Reads t (t.spelling ++ rest) rest := by
  obtain ⟨kind, lexeme, pos⟩ := t
  cases kind with
  | identifier =>
      obtain ⟨hword, hkeyword, htruth⟩ := ht
      exact reads_word hword (wordKind_eq_identifier hkeyword htruth) (by simp) (h.stops_word hword)
  | bool v =>
      obtain rfl : lexeme = (Token.Kind.bool v).name := ht
      obtain ⟨hword, hkind⟩ := isWord_truth v
      exact reads_word hword hkind (by simp) (h.stops_word hword)
  | keyword k =>
      obtain rfl : lexeme = k.spelling := ht
      obtain ⟨hword, hkind⟩ := isWord_spelling k
      exact reads_word hword hkind (by simp) (h.stops_word hword)
  | int =>
      obtain ⟨hne, hdigits⟩ := ht
      have h : Longest IsTokenText lexeme rest := h
      refine reads_int rfl hne hdigits (h.stops fun b hb => ?_) ?_
      · exact isTokenText_int (by simp)
          (List.forall_mem_append.2 ⟨hdigits, List.forall_mem_singleton.2 hb⟩)
      · rintro d more rfl
        by_contra hd
        rw [Bool.not_eq_false] at hd
        exact h.not_append (z := [46, d]) ⟨more, rfl⟩ (List.cons_ne_nil _ _)
          (isTokenText_float hne (List.cons_ne_nil _ _) hdigits (by simpa using hd))
  | float =>
      obtain ⟨whole, fraction, rfl, hwhole, hfraction, hw, hf⟩ := ht
      refine reads_float rfl rfl hwhole hfraction hw hf (h.stops fun b hb => ?_)
      have htext := isTokenText_float hwhole (by simp) hw
        (List.forall_mem_append.2 ⟨hf, List.forall_mem_singleton.2 hb⟩)
      simpa [Token.spelling] using htext
  | string => exact reads_spelling ht fun b hb => rfl
  | punct p => exact reads_spelling ht fun b hb => rfl
  | operator o =>
      cases o with
      | plus | star => exact reads_spelling ht fun b hb => rfl
      | minus =>
          obtain rfl : lexeme = Operator.minus.spelling := ht
          refine reads_spelling rfl (h.stops fun b hb => ?_)
          obtain rfl : b = 62 := by simpa [goesOn] using hb
          exact ⟨⟨.punct .arrow, Punct.arrow.spelling, .start⟩, rfl, rfl⟩
      | slash =>
          refine reads_spelling ht fun b hb => ?_
          simpa [goesOn] using hslash rfl b hb
  | endOfFile | unknown => cases ht

/-! ## One piece -/

/-- What can stand at the head of an input. -/
inductive IsPiece : Scanned → Prop where
  | plain {kind : Token.Kind} (hkind : kind ≠ .string) (text rest : Bytes) :
      IsPiece (.plain kind text rest)
  | string {body : Bytes} (hbody : Bytes.quote ∉ body) (rest : Bytes) :
      IsPiece ⟨.token .string (if body = [] then [Bytes.quote, Bytes.quote] else body),
        Bytes.quote :: (body ++ [Bytes.quote]), rest⟩
  | blank {b : UInt8} (hb : b ∈ [32, 9, 13]) (rest : Bytes) : IsPiece ⟨.blank, [b], rest⟩
  | comment {c rest : Bytes} (hc : IsComment c) (hend : ∀ b ∈ rest.head?, b = Bytes.newline) :
      IsPiece ⟨.blank, c, rest⟩
  | newline (rest : Bytes) : IsPiece ⟨.newline, [Bytes.newline], rest⟩

section

variable {b : UInt8} {bs : Bytes} {s : Scanned}

theorem isPiece_scanNumber (b : UInt8) (bs : Bytes) : IsPiece (scanNumber b bs) := by
  unfold scanNumber
  split
  · split
    · exact .plain (by simp) _ _
    · exact .plain (by simp) _ _
  · exact .plain (by simp) _ _

theorem isPiece_scanString (h : scanString bs = .ok s) : IsPiece s := by
  have hbody : ∀ c ∈ bs.takeWhile fun b => b != Bytes.quote && b != Bytes.newline,
      (c != Bytes.quote && c != Bytes.newline) = true :=
    List.all_eq_true.1 List.all_takeWhile
  unfold scanString at h
  simp only at h
  split at h
  · cases h
  split at h
  · cases h
    exact .string (fun hmem => by simpa using hbody _ hmem) _
  · cases h

theorem isPiece_scanSlash (bs : Bytes) : IsPiece (scanSlash bs) := by
  unfold scanSlash
  split
  · rename_i rest
    refine .comment ⟨_, rfl, fun hmem => ?_⟩ fun c hc => ?_
    · simpa using List.all_eq_true.1 List.all_takeWhile _ hmem
    · have := List.head?_dropWhile_not (p := (· != Bytes.newline)) rest
      rw [hc] at this
      simpa using this
  · exact .plain (by simp) _ _

theorem single?_ne_string (b : UInt8) : single? b ≠ some .string := by
  fun_cases single? b <;> simp

/-- **What the lexer scans is a token, a blank, a comment or a newline.** -/
theorem isPiece_of_scan (h : scan b bs = .ok s) : IsPiece s := by
  revert h
  fun_cases scan b bs with
  | case1 kind hsingle =>
      rintro ⟨⟩
      refine .plain ?_ _ _
      rintro rfl
      exact single?_ne_string b hsingle
  | case2 =>
      rintro ⟨⟩
      unfold scanMinus
      split <;> exact .plain (by simp) _ _
  | case3 =>
      rintro ⟨⟩
      exact isPiece_scanSlash bs
  | case4 _ _ _ hblank =>
      rintro ⟨⟩
      refine .blank ?_ bs
      simp only [isBlank, Bool.or_eq_true, beq_iff_eq] at hblank
      rcases hblank with (rfl | rfl) | rfl <;> decide
  | case5 _ _ _ _ hnewline =>
      rintro ⟨⟩
      subst hnewline
      exact .newline bs
  | case6 => exact isPiece_scanString
  | case7 =>
      rintro ⟨⟩
      exact isPiece_scanNumber b bs
  | case8 =>
      rintro ⟨⟩
      exact .plain (wordKind_ne_string _) _ _
  | case9 => rintro ⟨⟩

/-- The bytes of a scanned token are its spelling. -/
theorem IsPiece.text_eq_spelling {kind : Token.Kind} {lexeme : Bytes} (h : IsPiece s)
    (hpiece : s.piece = .token kind lexeme) (pos : Pos) :
    s.text = Token.spelling ⟨kind, lexeme, pos⟩ := by
  cases h with
  | plain hkind text rest =>
      cases hpiece
      simp [Token.spelling, hkind, Scanned.plain]
  | @string body hbody rest =>
      cases hpiece
      by_cases hempty : body = []
      · subst hempty
        rfl
      · have hbare : body ≠ [Bytes.quote, Bytes.quote] := by
          rintro rfl
          exact hbody List.mem_cons_self
        simp [Token.spelling, hempty, hbare]
  | blank | comment | newline => cases hpiece

/-- What scanning a piece means for the rest of the input. -/
theorem lexFrom_cons (h : scan b bs = .ok s) (pos : Pos) :
    lexFrom pos (b :: bs) =
      match s.piece with
      | .newline => lexFrom pos.nextLine s.rest
      | .blank => lexFrom (pos.right s.text.length) s.rest
      | .token kind lexeme =>
        match lexFrom (pos.right s.text.length) s.rest with
        | .error e => .error e
        | .ok ts => .ok (⟨kind, lexeme, pos⟩ :: ts) := by
  rw [lexFrom]
  split
  · rename_i hs
    cases h.symm.trans hs
  · rename_i s' hs
    cases h.symm.trans hs
    rfl

end

/-! ## The longest text -/

/-- Of the texts that an input starts with one is the longest. -/
theorem exists_longest {L : Bytes → Prop} {input x : Bytes} (hx : L x) (hstarts : x <+: input) :
    ∃ y rest, L y ∧ input = y ++ rest ∧ Longest L y rest := by
  induction hk : input.length - x.length using Nat.strongRecOn generalizing x with
  | ind k ih =>
      by_cases h : ∀ y, L y → y <+: input → y.length ≤ x.length
      · obtain ⟨rest, rfl⟩ := hstarts
        exact ⟨x, rest, hx, rfl, h⟩
      · push Not at h
        obtain ⟨y, hy, hystarts, hlonger⟩ := h
        have := hystarts.length_le
        exact ih (input.length - y.length) (by omega) hy hystarts rfl

theorem Longest.mono {L M : Bytes → Prop} {x rest : Bytes} (h : Longest M x rest)
    (hLM : ∀ y, L y → M y) : Longest L x rest :=
  fun y hy => h y (hLM y hy)

theorem spelling_slash {t : Token} (ht : t.IsLexeme) (hkind : t.kind = .operator .slash) :
    t.spelling = [47] := by
  obtain ⟨kind, lexeme, pos⟩ := t
  cases hkind
  obtain rfl : lexeme = Operator.slash.spelling := ht
  rfl

/-- Where comments count, a slash in front of another one is not a longest text. -/
theorem Longest.not_slash {t : Token} {rest : Bytes} (h : Longest IsText t.spelling rest)
    (ht : t.IsLexeme) (hkind : t.kind = .operator .slash) : ∀ b ∈ rest.head?, b ≠ 47 := by
  rintro b hb rfl
  rw [spelling_slash ht hkind] at h
  exact h.not_append (prefix_of_mem_head? hb) (List.cons_ne_nil _ _) (.inr ⟨[], rfl, by simp⟩)

/-- **A scanned token is the longest text that the input starts with.** The longest one is what the
lexer would read, so it is what it has read. -/
theorem longest_of_scan {b : UInt8} {bs : Bytes} {s : Scanned} {kind : Token.Kind} {lexeme : Bytes}
    (h : scan b bs = .ok s) (hpiece : s.piece = .token kind lexeme) :
    Longest IsText s.text s.rest := by
  have htext : IsTokenText s.text :=
    ⟨⟨kind, lexeme, .start⟩, isLexeme_of_scan h hpiece .start,
      ((isPiece_of_scan h).text_eq_spelling hpiece .start).symm⟩
  obtain ⟨y, rest, hy, hinput, hlongest⟩ :=
    exists_longest (L := IsText) (.inl htext) ⟨s.rest, (scan_append h).1⟩
  rcases hy with ⟨t, ht, rfl⟩ | ⟨c, rfl, -⟩
  · obtain ⟨b', bs', heq, hscan⟩ := reads_of_longest ht (hlongest.mono fun _ => .inl)
      (hlongest.not_slash ht)
    rw [← hinput] at heq
    cases heq
    cases h.symm.trans hscan
    exact hlongest
  · cases hinput
    cases h
    cases hpiece

/-! ## Gaps -/

theorem Gap.append {x g rest : Bytes} (hx : Gap x (g ++ rest)) (hg : Gap g rest) :
    Gap (x ++ g) rest := by
  generalize hbehind : g ++ rest = behind at hx
  induction hx with
  | nil => exact hg
  | blank hb _ ih => exact .blank hb (ih hbehind)
  | comment hc hend _ ih =>
      subst hbehind
      rw [List.append_assoc]
      exact .comment hc (by rwa [List.append_assoc]) (ih rfl)

theorem IsPiece.gap {s : Scanned} (h : IsPiece s)
    (hpiece : ∀ kind lexeme, s.piece ≠ .token kind lexeme) : Gap s.text s.rest := by
  cases h with
  | plain | string => exact absurd rfl (hpiece _ _)
  | @blank b hb rest =>
      refine .blank ?_ (.nil rest)
      simp only [List.mem_cons, List.not_mem_nil, or_false] at hb ⊢
      rcases hb with hb | hb | hb <;> simp [hb]
  | @comment c rest hc hend =>
      rw [← List.append_nil c]
      exact .comment hc hend (.nil rest)
  | newline rest => exact .blank (by decide) (.nil rest)

theorem scan_comment {c rest : Bytes} (hc : Bytes.newline ∉ c)
    (hend : ∀ b ∈ rest.head?, b = Bytes.newline) :
    scan 47 (47 :: (c ++ rest)) = .ok ⟨.blank, 47 :: 47 :: c, rest⟩ := by
  obtain ⟨htake, hdrop⟩ := takeWhile_append_stop (p := (· != Bytes.newline)) rest
    (fun b hb => bne_iff_ne.2 fun h => hc (h ▸ hb)) fun b hb => by simpa using hend b hb
  change Except.ok (scanSlash (47 :: (c ++ rest))) = _
  rw [scanSlash, htake, hdrop]

/-- Lexing passes over a gap. -/
theorem lexFrom_gap {g rest : Bytes} (h : Gap g rest) (pos : Pos) :
    lexFrom pos (g ++ rest) = lexFrom (g.foldl advance pos) rest := by
  induction h generalizing pos with
  | nil => rfl
  | @blank b g rest hb _ ih =>
      have hstep : lexFrom pos (b :: (g ++ rest)) = lexFrom (advance pos b) (g ++ rest) := by
        simp only [List.mem_cons, List.not_mem_nil, or_false] at hb
        rcases hb with rfl | rfl | rfl | rfl
        · exact lexFrom_cons (s := ⟨.blank, [32], g ++ rest⟩) rfl pos
        · exact lexFrom_cons (s := ⟨.blank, [9], g ++ rest⟩) rfl pos
        · exact lexFrom_cons (s := ⟨.blank, [13], g ++ rest⟩) rfl pos
        · exact lexFrom_cons (s := ⟨.newline, [Bytes.newline], g ++ rest⟩) rfl pos
      exact hstep.trans (ih _)
  | @comment c g rest hc hend _ ih =>
      obtain ⟨c, rfl, hline⟩ := hc
      have hcomment : Bytes.newline ∉ 47 :: 47 :: c := by
        simpa [Bytes.newline] using hline
      rw [List.foldl_append, foldl_advance hcomment, List.append_assoc, ← ih]
      exact lexFrom_cons (scan_comment hline hend) pos

/-! ## Lexing finds the partition -/

theorem not_mem_word {w : Bytes} {b : UInt8} (h : IsWord w) (hb : inName b = false) : b ∉ w := by
  obtain ⟨c, cs, rfl, hc, hcs⟩ := h
  rw [List.mem_cons, not_or]
  constructor
  · rintro rfl
    simp [inName, hc] at hb
  · exact fun hmem => absurd (hcs _ hmem) (by simp [hb])

/-- Only in strings there are bytes that end a line. -/
theorem not_mem_lexeme {t : Token} {b : UInt8} (ht : t.IsLexeme) (hkind : t.kind ≠ .string)
    (hb : b = 13 ∨ b = Bytes.newline) : b ∉ t.lexeme := by
  have hname : inName b = false := by rcases hb with rfl | rfl <;> rfl
  have hdigit : Bytes.isDigit b = false := by rcases hb with rfl | rfl <;> rfl
  obtain ⟨kind, lexeme, pos⟩ := t
  cases kind with
  | identifier => exact not_mem_word ht.1 hname
  | int => exact fun hmem => absurd (ht.2 _ hmem) (by simp [hdigit])
  | float =>
      obtain ⟨whole, fraction, rfl, -, -, hw, hf⟩ := ht
      intro hmem
      rcases List.mem_append.1 hmem with hmem | hmem
      · exact absurd (hw _ hmem) (by simp [hdigit])
      · rcases List.mem_cons.1 hmem with rfl | hmem
        · rcases hb with h | h <;> cases h
        · exact absurd (hf _ hmem) (by simp [hdigit])
  | string => exact absurd rfl hkind
  | bool v =>
      obtain rfl : lexeme = (Token.Kind.bool v).name := ht
      exact not_mem_word (isWord_truth v).1 hname
  | keyword k =>
      obtain rfl : lexeme = k.spelling := ht
      exact not_mem_word (isWord_spelling k).1 hname
  | punct p =>
      obtain rfl : lexeme = p.spelling := ht
      have hpunct : 13 ∉ p.spelling ∧ Bytes.newline ∉ p.spelling := by cases p <;> decide
      rcases hb with rfl | rfl
      · exact hpunct.1
      · exact hpunct.2
  | operator o =>
      obtain rfl : lexeme = o.spelling := ht
      have hoperator : 13 ∉ o.spelling ∧ Bytes.newline ∉ o.spelling := by cases o <;> decide
      rcases hb with rfl | rfl
      · exact hoperator.1
      · exact hoperator.2
  | endOfFile | unknown => cases ht

theorem newline_not_mem_spelling {t : Token} (ht : t.IsLexeme) : Bytes.newline ∉ t.spelling := by
  by_cases hkind : t.kind = .string
  · obtain ⟨kind, lexeme, pos⟩ := t
    cases hkind
    have hline : Bytes.newline ∉ lexeme := by
      rcases ht with hempty | ⟨-, -, hline⟩
      · obtain rfl : lexeme = [Bytes.quote, Bytes.quote] := hempty
        decide
      · exact hline
    have hquote : Bytes.newline ≠ Bytes.quote := by decide
    unfold Token.spelling
    split
    · simp [hline, hquote]
    · exact hline
  · rw [Token.spelling, if_neg fun h => hkind h.1]
    exact not_mem_lexeme ht hkind (.inr rfl)

section

variable {L : Bytes → Prop} {before g x rest bs : Bytes} {ts : List Token}

theorem Cut.gap (hg : Gap g (x ++ rest)) (h : Cut L (before ++ g) x rest ts) :
    Cut L before (g ++ x) rest ts := by
  cases h with
  | stop hx => exact .stop (hg.append hx)
  | token hx ht hlongest hpos hrest =>
      rw [List.append_assoc before] at hpos hrest
      rw [← List.append_assoc]
      refine .token (Gap.append ?_ hx) ht hlongest hpos hrest
      simpa using hg

/-- What is cut and nothing behind it is a partition, but for the token of the end. -/
theorem partition_iff_cut :
    Partition L before bs ts ↔
      ∃ us, ts = us ++ [Token.endAt (posAfter (before ++ bs))] ∧ Cut L before bs [] us := by
  constructor
  · intro h
    induction h with
    | finish hg => exact ⟨[], rfl, .stop hg⟩
    | @token before g rest t ts hg ht hlongest hpos _ ih =>
        obtain ⟨us, rfl, hus⟩ := ih
        refine ⟨t :: us, by simp, .token ?_ ht ?_ hpos hus⟩
        · rwa [List.append_nil]
        · rwa [List.append_nil]
  · rintro ⟨us, rfl, h⟩
    generalize hend : [] = rest at h
    induction h with
    | stop hg =>
        subst hend
        exact .finish hg
    | @token before g x rest t ts hg ht hlongest hpos hrest ih =>
        subst hend
        rw [List.append_nil] at hg hlongest
        have hrest := ih rfl
        simp only [List.append_assoc] at hrest
        refine .token hg ht hlongest hpos ?_
        simpa using hrest

/-- The lexer cuts an input up to the first lexeme that it refuses. -/
theorem exists_cut (before bs : Bytes) :
    ∃ x rest ts, bs = x ++ rest ∧ Cut IsText before x rest ts ∧
      (rest = [] ∨ ∃ b more cause, rest = b :: more ∧ scan b more = .error cause) := by
  match bs with
  | [] => exact ⟨[], [], [], rfl, .stop (.nil []), .inl rfl⟩
  | b :: bs =>
      cases hs : scan b bs with
      | error cause => exact ⟨[], b :: bs, [], rfl, .stop (.nil _), .inr ⟨b, bs, cause, rfl, hs⟩⟩
      | ok s =>
          have hlt := scan_rest_lt hs
          have hinput := (scan_append hs).1
          obtain ⟨x, rest, ts, heq, hcut, hend⟩ := exists_cut (before ++ s.text) s.rest
          rw [heq] at hinput
          cases hpiece : s.piece with
          | blank | newline =>
              have hgap := (isPiece_of_scan hs).gap (by simp [hpiece])
              rw [heq] at hgap
              exact ⟨s.text ++ x, rest, ts, by simp [← hinput], hcut.gap hgap, hend⟩
          | token kind lexeme =>
              have ht := isLexeme_of_scan hs hpiece (posAfter before)
              have htext := (isPiece_of_scan hs).text_eq_spelling hpiece (posAfter before)
              have hlongest := longest_of_scan hs hpiece
              rw [htext] at hcut hinput hlongest
              rw [heq] at hlongest
              have htoken : Cut IsText before ([] ++ (_ ++ x)) rest (_ :: ts) :=
                .token (.nil _) ht hlongest (by rw [List.append_nil]) (by rwa [List.append_nil])
              exact ⟨_, rest, _, by simp [← hinput], htoken, hend⟩
termination_by bs.length
decreasing_by
  rw [List.length_cons] at hlt
  simp_wf
  omega

/-- Lexing goes over what is cut and on to the rest. -/
theorem Cut.lexFrom_eq (h : Cut IsText before x rest ts) :
    lexFrom (posAfter before) (x ++ rest) =
      (lexFrom (posAfter (before ++ x)) rest).map (ts ++ ·) := by
  induction h with
  | @stop before g rest hg =>
      rw [lexFrom_gap hg, ← posAfter_append]
      cases lexFrom (posAfter (before ++ g)) rest <;> rfl
  | @token before g x rest t ts hg ht hlongest hpos hrest ih =>
      obtain ⟨b, bs, heq, hscan⟩ := reads_of_longest ht (hlongest.mono fun _ => .inl)
        (hlongest.not_slash ht)
      have hstep := lexFrom_cons hscan t.pos
      rw [← heq, hpos, ← foldl_advance (newline_not_mem_spelling ht), ← posAfter_append, ih] at hstep
      rw [List.append_assoc, List.append_assoc, lexFrom_gap hg, ← posAfter_append, hstep]
      simp only [List.append_assoc]
      cases lexFrom (posAfter (before ++ (g ++ (t.spelling ++ x)))) rest with
      | error e => rfl
      | ok us => simp [Except.map, ← hpos]

theorem lexFrom_of_scan_error {b : UInt8} {cause : Cause} (h : scan b bs = .error cause) (pos : Pos) :
    lexFrom pos (b :: bs) = .error ⟨pos, cause⟩ := by
  rw [lexFrom]
  split
  · rename_i hs
    cases h.symm.trans hs
    rfl
  · rename_i hs
    cases h.symm.trans hs

theorem partition_of_lexFrom (before bs : Bytes) {ts : List Token}
    (h : lexFrom (posAfter before) bs = .ok ts) : Partition IsText before bs ts := by
  obtain ⟨x, rest, us, rfl, hcut, hend⟩ := exists_cut before bs
  rw [hcut.lexFrom_eq] at h
  rcases hend with rfl | ⟨b, more, cause, rfl, hscan⟩
  · rw [lexFrom] at h
    cases h
    rw [List.append_nil]
    exact partition_iff_cut.2 ⟨us, rfl, hcut⟩
  · rw [lexFrom_of_scan_error hscan] at h
    cases h

/-- What the lexer finds is the partition in which comments count. -/
theorem lexFrom_of_partition (h : Partition IsText before bs ts) :
    lexFrom (posAfter before) bs = .ok ts := by
  obtain ⟨us, rfl, hcut⟩ := partition_iff_cut.1 h
  have heq := hcut.lexFrom_eq
  rw [List.append_nil, lexFrom] at heq
  exact heq

end

theorem Partition.mono {L M : Bytes → Prop} {before bs : Bytes} {ts : List Token}
    (h : Partition M before bs ts) (hLM : ∀ y, L y → M y) : Partition L before bs ts := by
  induction h with
  | finish hg => exact .finish hg
  | token hg ht hlongest hpos _ ih => exact .token hg ht (hlongest.mono hLM) hpos ih

/-- The tokens of a partition have spellings, up to the one at the end of the text. -/
theorem Partition.ends {L : Bytes → Prop} {before bs : Bytes} {ts : List Token}
    (h : Partition L before bs ts) :
    ∃ us, ts = us ++ [Token.endAt (posAfter (before ++ bs))] ∧ ∀ t ∈ us, t.IsLexeme := by
  induction h with
  | finish => exact ⟨[], rfl, by simp⟩
  | token _ ht _ _ _ ih =>
      obtain ⟨us, rfl, hus⟩ := ih
      refine ⟨_ :: us, ?_, List.forall_mem_cons.2 ⟨ht, hus⟩⟩
      simp

/-! ## Texts that lex -/

/-- Lexing succeeds, wherever the text stands. -/
def Lexes (bs : Bytes) : Prop := ∀ pos, ∃ ts, lexFrom pos bs = .ok ts

/-- What is left from the end of the first line on. -/
def lineEnd (bs : Bytes) : Bytes := bs.dropWhile (· != Bytes.newline)

theorem lineEnd_append {x : Bytes} (hx : Bytes.newline ∉ x) (bs : Bytes) :
    lineEnd (x ++ bs) = lineEnd bs :=
  List.dropWhile_append_of_pos fun _ hb => bne_iff_ne.2 fun h => hx (h ▸ hb)

theorem Gap.lexes {g rest : Bytes} (h : Gap g rest) (hrest : Lexes rest) : Lexes (g ++ rest) := by
  intro pos
  rw [lexFrom_gap h]
  exact hrest _

theorem Gap.lexes_lineEnd {g rest : Bytes} (h : Gap g rest) (hrest : Lexes rest)
    (hline : Lexes (lineEnd rest)) : Lexes (lineEnd (g ++ rest)) := by
  induction h with
  | nil => exact hline
  | @blank b g rest hb hg ih =>
      by_cases hnewline : b = Bytes.newline
      · subst hnewline
        exact (Gap.blank hb hg).lexes hrest
      · rw [List.cons_append, ← List.singleton_append, lineEnd_append (by simpa using Ne.symm hnewline)]
        exact ih hrest hline
  | comment hc _ _ ih =>
      obtain ⟨c, rfl, hnewline⟩ := hc
      rw [List.append_assoc, lineEnd_append (by simpa [Bytes.newline] using hnewline)]
      exact ih hrest hline

/-- **A text that is made up of spellings and gaps lexes**, and it does so from the end of its first
line on, which is what is left of it if two of its slashes start a comment. -/
theorem Partition.lexes {before bs : Bytes} {ts : List Token}
    (h : Partition IsTokenText before bs ts) : Lexes bs ∧ Lexes (lineEnd bs) := by
  induction h with
  | @finish before g hg =>
      have hnil : Lexes [] := fun pos => ⟨_, by rw [lexFrom]⟩
      have hlexes := hg.lexes hnil
      have hline := hg.lexes_lineEnd hnil hnil
      rw [List.append_nil] at hlexes hline
      exact ⟨hlexes, hline⟩
  | @token before g rest t ts hg ht hlongest hpos hrest ih =>
      suffices htoken : Lexes (t.spelling ++ rest) by
        refine ⟨hg.lexes htoken, hg.lexes_lineEnd htoken ?_⟩
        rw [lineEnd_append (newline_not_mem_spelling ht)]
        exact ih.2
      by_cases hslash : t.kind = .operator .slash ∧ 47 ∈ rest.head?
      · obtain ⟨hkind, hhead⟩ := hslash
        obtain ⟨rest, rfl⟩ : ∃ more, rest = 47 :: more := by
          cases rest with
          | nil => cases hhead
          | cons b more =>
              cases hhead
              exact ⟨more, rfl⟩
        have hscan : scan 47 (47 :: rest) = .ok (scanSlash (47 :: rest)) := rfl
        intro pos
        rw [spelling_slash ht hkind, List.singleton_append, lexFrom_cons hscan]
        exact ih.2 _
      · intro pos
        have hreads := reads_of_longest ht hlongest fun hkind b hb heq =>
          hslash ⟨hkind, heq ▸ hb⟩
        obtain ⟨us, hus⟩ := ih.1 (pos.right t.spelling.length)
        exact ⟨_, lexFrom_of_reads hreads pos hus⟩

/-- **Lexing cuts a source text into the longest spellings of its tokens and gaps between them**, at
their positions and with one token for the end of the text, and it succeeds on every text that can be
cut like that. The list of tokens is the one in which two slashes always start a comment. -/
theorem lex_partition (source : Bytes) :
    (∀ ts, lex source = .ok ts → Partition IsTokenText [] source ts ∧
      ∃ us, ts = us ++ [Token.endAt (posAfter source)] ∧ ∀ t ∈ us, t.kind ≠ .endOfFile) ∧
    (∀ ts, Partition IsTokenText [] source ts → ∃ ts', lex source = .ok ts') ∧
    ∀ ts, lex source = .ok ts ↔ Partition IsText [] source ts := by
  have hiff (ts : List Token) : lex source = .ok ts ↔ Partition IsText [] source ts :=
    ⟨partition_of_lexFrom [] source, lexFrom_of_partition⟩
  refine ⟨fun ts h => ?_, fun ts h => h.lexes.1 .start, hiff⟩
  have hpartition := (hiff ts).1 h
  obtain ⟨us, rfl, hus⟩ := hpartition.ends
  refine ⟨hpartition.mono fun _ => .inl, us, rfl, fun t ht hkind => ?_⟩
  have := hus t ht
  simp [Token.IsLexeme, hkind] at this

end Lexing

end Swiftlet
