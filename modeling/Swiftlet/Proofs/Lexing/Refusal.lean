import Swiftlet.Proofs.Lexing.Partition

/-!
# Source texts that are refused

Lexing goes over spellings and gaps up to the first lexeme that is refused, and points at its first
byte. A token that has been lexed points at the first byte of its spelling.

* `Offends cause rest` — the bytes `rest` start with no token and nothing that is skipped: their first
  byte starts none, or they start with a string that is broken by a newline or by the end.

Principal results: `lexFrom_error_iff`, where lexing fails and why, and `Partition.place`, that the
tokens stand at their positions.
-/

namespace Swiftlet

namespace Lexing

/-! ## Lexemes that are refused -/

/-- Why the lexeme at the head of an input is refused. -/
inductive Offends : Cause → Bytes → Prop where
  | unexpected {b : UInt8} (rest : Bytes) (hblank : b ∉ [32, 9, 13, Bytes.newline])
      (htext : ∀ x, ¬IsText (b :: x)) : Offends (.unexpected b) (b :: rest)
  | brokenString {body : Bytes} (rest : Bytes) (hquote : Bytes.quote ∉ body)
      (hline : Bytes.newline ∉ body) :
      Offends .brokenString (Bytes.quote :: (body ++ Bytes.newline :: rest))
  | openString {body : Bytes} (hquote : Bytes.quote ∉ body) (hline : Bytes.newline ∉ body) :
      Offends .openString (Bytes.quote :: body)

section

variable {b : UInt8} {bs : Bytes} {cause : Cause}

/-- A spelling on its own is read. -/
theorem reads_alone {t : Token} (ht : t.IsLexeme) : Reads t t.spelling [] := by
  have hlongest : Longest IsTokenText t.spelling [] := by
    intro y _ hy
    rw [List.append_nil] at hy
    exact hy.length_le
  have hreads := reads_of_longest ht hlongest (by simp)
  rwa [List.append_nil] at hreads

/-- What a text starts with is scanned. -/
theorem scan_of_isText (h : IsText (b :: bs)) : ∃ s, scan b bs = .ok s := by
  rcases h with ⟨t, ht, hspelling⟩ | ⟨c, hc, -⟩
  · obtain ⟨b', bs', heq, hscan⟩ := reads_alone ht
    rw [hspelling] at heq
    cases heq
    exact ⟨_, hscan⟩
  · cases hc
    exact ⟨_, rfl⟩

theorem Offends.starts (h : Offends cause (b :: bs)) : b ≠ 13 ∧ b ≠ Bytes.newline := by
  cases h with
  | unexpected _ hblank =>
      simp only [List.mem_cons, List.not_mem_nil, or_false, not_or] at hblank
      exact ⟨hblank.2.2.1, hblank.2.2.2⟩
  | brokenString | openString => decide

theorem offends_of_scanString (h : scanString bs = .error cause) :
    Offends cause (Bytes.quote :: bs) := by
  have hsplit := List.takeWhile_append_dropWhile
    (p := fun b => b != Bytes.quote && b != Bytes.newline) (l := bs)
  have hbody : ∀ c ∈ bs.takeWhile fun b => b != Bytes.quote && b != Bytes.newline,
      (c != Bytes.quote && c != Bytes.newline) = true :=
    List.all_eq_true.1 List.all_takeWhile
  have hquote : Bytes.quote ∉ bs.takeWhile fun b => b != Bytes.quote && b != Bytes.newline :=
    fun hmem => by simpa using hbody _ hmem
  have hline : Bytes.newline ∉ bs.takeWhile fun b => b != Bytes.quote && b != Bytes.newline :=
    fun hmem => by simpa using hbody _ hmem
  unfold scanString at h
  simp only at h
  split at h
  · rename_i hrest
    cases h
    rw [hrest, List.append_nil] at hsplit
    rw [← hsplit]
    exact .openString hquote hline
  · rename_i c rest hrest
    split at h
    · cases h
    · rename_i hc
      cases h
      have hstop := List.head?_dropWhile_not (p := fun b => b != Bytes.quote && b != Bytes.newline) bs
      rw [hrest] at hstop
      obtain rfl : c = Bytes.newline := by simpa [hc] using hstop
      rw [← hsplit, hrest]
      exact .brokenString rest hquote hline

/-- A string does not go on at a newline or at the end. -/
theorem scanString_of_offends {body : Bytes} (rest : Bytes) (hquote : Bytes.quote ∉ body)
    (hline : Bytes.newline ∉ body) (hrest : ∀ b ∈ rest.head?, b = Bytes.newline) :
    scanString (body ++ rest) =
      .error (if rest = [] then .openString else .brokenString) := by
  obtain ⟨-, hdrop⟩ := takeWhile_append_stop (p := fun b => b != Bytes.quote && b != Bytes.newline)
    rest (fun b hb => by
      have hb₁ : b ≠ Bytes.quote := fun h => hquote (h ▸ hb)
      have hb₂ : b ≠ Bytes.newline := fun h => hline (h ▸ hb)
      simp [hb₁, hb₂]) fun b hb => by simp [hrest b hb]
  unfold scanString
  simp only [hdrop]
  cases rest with
  | nil => rfl
  | cons b rest =>
      obtain rfl := hrest b rfl
      rfl

theorem offends_of_scan (h : scan b bs = .error cause) : Offends cause (b :: bs) := by
  revert h
  fun_cases scan b bs with
  | case1 | case2 | case3 | case4 | case5 | case7 | case8 => rintro ⟨⟩
  | case6 _ _ _ _ _ hquote =>
      subst hquote
      exact offends_of_scanString
  | case9 hsingle hminus hslash hblank hnewline hquote hdigit hname =>
      rintro ⟨⟩
      refine .unexpected bs ?_ fun x hx => ?_
      · simp only [isBlank, Bool.or_eq_true, beq_iff_eq, not_or] at hblank
        simp [hblank, hnewline]
      · obtain ⟨s, hs⟩ := scan_of_isText hx
        simp [scan, hsingle, hminus, hslash, hblank, hnewline, hquote, hdigit, hname] at hs

/-- What is scanned starts with a blank, a newline or a text. -/
theorem starts_of_scan {s : Scanned} (h : scan b bs = .ok s) :
    b ∈ [32, 9, 13, Bytes.newline] ∨ ∃ x, IsText (b :: x) := by
  obtain ⟨hinput, hne⟩ := scan_append h
  obtain ⟨c, x, htext⟩ := List.exists_cons_of_ne_nil hne
  rw [htext] at hinput
  cases hinput
  cases hpiece : s.piece with
  | token kind lexeme =>
      refine .inr ⟨x, .inl ⟨⟨kind, lexeme, .start⟩, isLexeme_of_scan h hpiece .start, ?_⟩⟩
      rw [← htext, (isPiece_of_scan h).text_eq_spelling hpiece]
  | blank | newline =>
      have hgap := (isPiece_of_scan h).gap (by simp [hpiece])
      rw [htext] at hgap
      generalize hg : b :: x = g at hgap
      cases hgap with
      | nil => cases hg
      | blank hb =>
          cases hg
          exact .inl hb
      | @comment c g rest hc =>
          obtain ⟨c, rfl, hline⟩ := hc
          cases hg
          exact .inr ⟨47 :: c, .inr ⟨c, rfl, hline⟩⟩

theorem scan_of_offends (h : Offends cause (b :: bs)) : scan b bs = .error cause := by
  cases h with
  | unexpected _ hblank htext =>
      cases hscan : scan b bs with
      | ok s =>
          rcases starts_of_scan hscan with hb | ⟨x, hx⟩
          · exact absurd hb hblank
          · exact absurd hx (htext x)
      | error cause =>
          cases offends_of_scan hscan with
          | unexpected => rfl
          | brokenString | openString =>
              refine absurd ?_ (htext [Bytes.quote])
              exact .inl ⟨⟨.string, [Bytes.quote, Bytes.quote], .start⟩, .inl rfl, rfl⟩
  | brokenString rest hquote hline =>
      refine scanString_of_offends (Bytes.newline :: rest) hquote hline fun c hc => ?_
      cases hc
      rfl
  | openString hquote hline =>
      have hscan := scanString_of_offends [] hquote hline (by simp)
      rwa [List.append_nil] at hscan

end

/-! ## Where lexing fails -/

/-- **Lexing fails exactly where a lexeme offends behind spellings and gaps**, and points at it. -/
theorem lexFrom_error_iff (before bs : Bytes) {e : Error} :
    lexFrom (posAfter before) bs = .error e ↔
      ∃ x rest ts, bs = x ++ rest ∧ Cut IsText before x rest ts ∧ e.pos = posAfter (before ++ x) ∧
        Offends e.cause rest := by
  constructor
  · intro h
    obtain ⟨x, rest, ts, rfl, hcut, hend⟩ := exists_cut before bs
    rw [hcut.lexFrom_eq] at h
    rcases hend with rfl | ⟨b, more, cause, rfl, hscan⟩
    · rw [lexFrom] at h
      cases h
    · rw [lexFrom_of_scan_error hscan] at h
      cases h
      exact ⟨x, b :: more, ts, rfl, hcut, rfl, offends_of_scan hscan⟩
  · obtain ⟨pos, cause⟩ := e
    rintro ⟨x, rest, ts, rfl, hcut, rfl, hoffends⟩
    cases rest with
    | nil => cases hoffends
    | cons b more =>
        rw [hcut.lexFrom_eq, lexFrom_of_scan_error (scan_of_offends hoffends)]
        rfl

/-! ## Where the tokens are -/

/-- **A token stands at its position**: its spelling is there, or the end of the text. -/
theorem Partition.place {L : Bytes → Prop} {before bs : Bytes} {t : Token} {ts : List Token}
    (h : Partition L before bs ts) (ht : t ∈ ts) :
    ∃ x y rest, bs = x ++ (y ++ rest) ∧ t.pos = posAfter (before ++ x) ∧
      (t.IsLexeme ∧ y = t.spelling ∨ t.kind = .endOfFile ∧ y = [] ∧ rest = []) := by
  induction h with
  | @finish before g hg =>
      obtain rfl := List.mem_singleton.1 ht
      exact ⟨g, [], [], by simp, rfl, .inr ⟨rfl, rfl, rfl⟩⟩
  | @token before g rest u us hg hu hlongest hpos hrest ih =>
      rcases List.mem_cons.1 ht with rfl | ht
      · exact ⟨g, t.spelling, rest, rfl, hpos, .inl ⟨hu, rfl⟩⟩
      · obtain ⟨x, y, rest, rfl, hpos, hy⟩ := ih ht
        exact ⟨g ++ (u.spelling ++ x), y, rest, by simp, by simpa using hpos, hy⟩

theorem spelling_ne_nil {t : Token} (ht : t.IsLexeme) : t.spelling ≠ [] := by
  obtain ⟨b, bs, heq, -⟩ := reads_alone ht
  rw [heq]
  exact List.cons_ne_nil b bs

/-- A spelling does not end with a CR. -/
theorem getLast?_spelling {t : Token} (ht : t.IsLexeme) : t.spelling.getLast? ≠ some 13 := by
  by_cases hkind : t.kind = .string
  · unfold Token.spelling
    split
    · rw [List.getLast?_cons, List.getLast?_concat]
      decide
    · rename_i hquoted
      have hempty : t.lexeme = [Bytes.quote, Bytes.quote] := by simpa [hkind] using hquoted
      rw [hempty]
      decide
  · rw [Token.spelling, if_neg fun h => hkind h.1]
    exact fun h => not_mem_lexeme ht hkind (.inl rfl) (List.mem_of_getLast? h)

end Lexing

end Swiftlet
