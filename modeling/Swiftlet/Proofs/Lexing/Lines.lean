import Swiftlet.Proofs.Lexing.Partition

/-!
# Lexing line by line

A newline ends whatever the lexer is reading: no spelling and no comment has one. So a text and more
lines behind it are lexed apart from each other, and only the line numbers of the second part depend
on the first.

* `Pos.down`, `Token.down`, `Error.down` — the same place some lines further down.
* `Cut.line` — what has been cut stays as it is if another line follows.

Principal results: `lexFrom_down`, that lexing does not depend on the number of the line, and
`lex_line`, that the lines behind a text that lexes are lexed on their own.
-/

namespace Swiftlet

/-! ## Places further down -/

/-- The same column `n` lines further down. -/
def Pos.down (n : Nat) (p : Pos) : Pos := ⟨p.line + n, p.column⟩

/-- The token `n` lines further down. -/
def Token.down (n : Nat) (t : Token) : Token := { t with pos := t.pos.down n }

namespace Lexing

/-- The refused lexeme `n` lines further down. -/
def Error.down (n : Nat) (e : Error) : Error := { e with pos := e.pos.down n }

theorem nextLine_down (n : Nat) (pos : Pos) : (pos.down n).nextLine = pos.nextLine.down n := by
  simp only [Pos.nextLine, Pos.down]
  congr 1
  omega

theorem right_down (n : Nat) (pos : Pos) (k : Nat) : (pos.down n).right k = (pos.right k).down n :=
  rfl

/-- **Lexing does not depend on the number of the line.** -/
theorem lexFrom_down (n : Nat) (pos : Pos) (bs : Bytes) :
    lexFrom (pos.down n) bs =
      ((lexFrom pos bs).mapError (Error.down n)).map (List.map (Token.down n)) := by
  cases bs with
  | nil =>
      rw [lexFrom, lexFrom]
      rfl
  | cons b bs =>
      cases hs : scan b bs with
      | error cause =>
          rw [lexFrom_of_scan_error hs, lexFrom_of_scan_error hs]
          rfl
      | ok s =>
          have hlt := scan_rest_lt hs
          rw [lexFrom_cons hs, lexFrom_cons hs]
          cases s.piece with
          | newline =>
              simp only [nextLine_down]
              exact lexFrom_down n pos.nextLine s.rest
          | blank => exact lexFrom_down n (pos.right s.text.length) s.rest
          | token kind lexeme =>
              have ih := lexFrom_down n (pos.right s.text.length) s.rest
              simp only [right_down, ih]
              cases lexFrom (pos.right s.text.length) s.rest <;> rfl
termination_by bs.length
decreasing_by
  all_goals
    rw [List.length_cons] at hlt
    simp_wf
    omega

/-! ## What a newline leaves as it is -/

/-- What has no newline does not reach over one. -/
theorem prefix_of_newline_not_mem {y x more : Bytes} (hy : Bytes.newline ∉ y)
    (h : y <+: x ++ Bytes.newline :: more) : y <+: x := by
  rcases List.prefix_or_prefix_of_prefix h (List.prefix_append x _) with h | ⟨z, rfl⟩
  · exact h
  · rw [List.prefix_append_right_inj] at h
    cases z with
    | nil => simp
    | cons c z =>
        obtain ⟨rfl, -⟩ := List.cons_prefix_cons.1 h
        simp at hy

theorem newline_not_mem_text {y : Bytes} (hy : IsText y) : Bytes.newline ∉ y := by
  rcases hy with ⟨t, ht, rfl⟩ | ⟨c, rfl, hc⟩
  · exact newline_not_mem_spelling ht
  · simpa [Bytes.newline] using hc

section

variable {before g x rest : Bytes} {ts : List Token}

/-- A longest text is still the longest if another line follows. -/
theorem Longest.line (h : Longest IsText x rest) (more : Bytes) :
    Longest IsText x (rest ++ Bytes.newline :: more) := by
  intro y hy hstarts
  rw [← List.append_assoc] at hstarts
  exact h y hy (prefix_of_newline_not_mem (newline_not_mem_text hy) hstarts)

theorem Gap.line (h : Gap g rest) (more : Bytes) : Gap g (rest ++ Bytes.newline :: more) := by
  induction h with
  | nil => exact .nil _
  | blank hb _ ih => exact .blank hb ih
  | @comment c g rest hc hend _ ih =>
      -- A comment ends at a newline or with the text, and behind the text there is a newline now.
      refine .comment hc (fun b hb => ?_) ih
      rw [← List.append_assoc, List.head?_append, Option.mem_def, Option.or_eq_some_iff] at hb
      rcases hb with hb | ⟨-, hb⟩
      · exact hend b hb
      · cases hb
        rfl

/-- **What has been cut stays as it is if another line follows.** -/
theorem Cut.line (h : Cut IsText before x rest ts) (more : Bytes) :
    Cut IsText before x (rest ++ Bytes.newline :: more) ts := by
  induction h with
  | stop hg => exact .stop (hg.line more)
  | token hg ht hlongest hpos _ ih =>
      refine .token ?_ ht ?_ hpos ih
      · simpa using hg.line more
      · simpa using hlongest.line more

end

theorem posAfter_line (a : Bytes) :
    posAfter (a ++ [Bytes.newline]) = Pos.start.down (1 + a.count Bytes.newline) := by
  rw [posAfter_concat]
  simp [advance, posAfter, Pos.nextLine, Pos.down, Pos.start]
  omega

/-- Behind a text that lexes and a newline, lexing goes on as at the start of a text. -/
theorem lex_append_line {a : Bytes} {ts : List Token} (h : Cut IsText [] a [] ts) (b : Bytes) :
    lex (a ++ Bytes.newline :: b) =
      ((lex b).mapError (Error.down (1 + a.count Bytes.newline))).map
        fun us => ts ++ us.map (Token.down (1 + a.count Bytes.newline)) := by
  have hcut := (h.line b).lexFrom_eq
  rw [List.nil_append, List.nil_append] at hcut
  have hline : lexFrom (posAfter a) (Bytes.newline :: b) =
      lexFrom (posAfter (a ++ [Bytes.newline])) b := by
    rw [posAfter_append]
    exact lexFrom_gap (.blank (by decide) (.nil b)) (posAfter a)
  rw [hline, posAfter_line, lexFrom_down] at hcut
  refine hcut.trans ?_
  change _ = Except.map _ (Except.mapError _ (lexFrom Pos.start b))
  cases lexFrom Pos.start b <;> rfl

/-- **Lexing is compositional over lines.** If a text lexes, then it does so with more lines behind
it exactly if these lex on their own. The tokens are then those of the text without the one for its
end, and those of the other lines, moved down; a lexeme of these that is refused is moved down as
well. -/
theorem lex_line {a : Bytes} {ts : List Token} (h : lex a = .ok ts) (b : Bytes) :
    ∃ us, ts = us ++ [Token.endAt (posAfter a)] ∧ (∀ t ∈ us, t.kind ≠ .endOfFile) ∧
      ((∃ vs, lex (a ++ Bytes.newline :: b) = .ok vs) ↔ ∃ vs, lex b = .ok vs) ∧
      (∀ vs, lex b = .ok vs → lex (a ++ Bytes.newline :: b) =
        .ok (us ++ vs.map (Token.down (1 + a.count Bytes.newline)))) ∧
      ∀ e, lex b = .error e → lex (a ++ Bytes.newline :: b) =
        .error (e.down (1 + a.count Bytes.newline)) := by
  have hpartition : Partition IsText [] a ts := partition_of_lexFrom [] a h
  obtain ⟨us, rfl, hcut⟩ := partition_iff_cut.1 hpartition
  obtain ⟨us', heq, hus⟩ := hpartition.ends
  cases List.append_cancel_right heq
  have hline := lex_append_line hcut b
  refine ⟨us, rfl, fun t ht => (hus t ht).kind_ne_endOfFile, ?_, fun vs hvs => ?_, fun e he => ?_⟩
  · rw [hline]
    cases lex b with
    | error e => simp [Except.mapError, Except.map]
    | ok vs => simp [Except.mapError, Except.map]
  · rw [hline, hvs]
    rfl
  · rw [hline, he]
    rfl

/-- An arrow does not go over the end of a line: the second half of it is refused there. -/
theorem lex_line_arrow :
    lex (utf8 "f -") = .ok [⟨.identifier, utf8 "f", ⟨1, 1⟩⟩, ⟨.operator .minus, utf8 "-", ⟨1, 3⟩⟩,
      Token.endAt ⟨1, 4⟩] ∧
    lex (utf8 ">") = .error ⟨⟨1, 1⟩, .unexpected 62⟩ ∧
    lex (utf8 "f -" ++ Bytes.newline :: utf8 ">") = .error ⟨⟨2, 1⟩, .unexpected 62⟩ := by
  have hfirst : lex (utf8 "f -") = .ok [⟨.identifier, utf8 "f", ⟨1, 1⟩⟩,
      ⟨.operator .minus, utf8 "-", ⟨1, 3⟩⟩, Token.endAt ⟨1, 4⟩] := by decide +kernel
  have hsecond : lex (utf8 ">") = .error ⟨⟨1, 1⟩, .unexpected 62⟩ := by decide +kernel
  obtain ⟨us, -, -, -, -, herror⟩ := lex_line hfirst (utf8 ">")
  exact ⟨hfirst, hsecond, herror _ hsecond⟩

end Lexing

end Swiftlet
