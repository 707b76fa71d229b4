import Mathlib.Data.List.TakeWhile
import Swiftlet.Proofs.Lexing.Partition
import Swiftlet.Source

/-!
# Excerpts of a source

An excerpt shows the line of a position and puts a caret under its column. The lines of the excerpt and
the position come from different places: positions are counted while the text is lexed, lines are split
off the whole text later, after the CR has been taken out of each CR LF.

* `IsLine text n line` — the bytes `line` are line `n` of the text, without what ends it.
* `lastLine` and `firstLine` — what of a line is in front of a place of the text, and what is behind.
* `Shown s p x` — the excerpt at `p` has the line of the source that `p` is on, and at the column of `p`
  both the bytes `x` and, on the next line, the caret.

Principal results: `lines_append`, which line it is that is split off around a place, and `shown_at`,
that the position of a place is shown with what stands there.
-/

namespace Swiftlet

namespace Source

open Lexing (posAfter)

/-! ## Lines -/

/-- `line` is line `n` of the text. It ends with a newline, with a CR and a newline, which are not
part of it, or with the text. -/
def IsLine (text : Bytes) (n : Nat) (line : Bytes) : Prop :=
  ∃ above ending below, text = above ++ (line ++ (ending ++ below)) ∧
    n = 1 + above.count Bytes.newline ∧ (above = [] ∨ above.getLast? = some Bytes.newline) ∧
    Bytes.newline ∉ line ∧
    (ending = [13, Bytes.newline] ∨ ending = [Bytes.newline] ∧ line.getLast? ≠ some 13 ∨
      ending = [] ∧ below = [])

/-- The bytes behind the last newline. -/
def lastLine (before : Bytes) : Bytes := (before.reverse.takeWhile (· ≠ Bytes.newline)).reverse

/-- The bytes in front of the first newline, without a CR there. -/
def firstLine : Bytes → Bytes
  | [] => []
  | 13 :: 10 :: _ => []
  | b :: bs => if b = Bytes.newline then [] else b :: firstLine bs

/-- A text has no newline, or it has a last one. -/
theorem lastLine_cases (before : Bytes) :
    Bytes.newline ∉ before ∧ lastLine before = before ∨
      ∃ above line, before = above ++ Bytes.newline :: line ∧ Bytes.newline ∉ line ∧
        lastLine before = line := by
  by_cases hmem : Bytes.newline ∈ before
  · obtain ⟨line, above, heq, hline⟩ := List.eq_append_cons_of_mem (List.mem_reverse.2 hmem)
    have hbefore : before = above.reverse ++ Bytes.newline :: line.reverse := by
      rw [← List.reverse_reverse before, heq]
      simp
    have htake := (Lexing.takeWhile_append_stop (p := (· ≠ Bytes.newline)) (Bytes.newline :: above)
      (fun b hb => decide_eq_true fun h => hline (h ▸ hb)) (by simp)).1
    refine .inr ⟨above.reverse, line.reverse, hbefore, by simpa using hline, ?_⟩
    rw [lastLine, heq, htake]
  · have htake : before.reverse.takeWhile (· ≠ Bytes.newline) = before.reverse :=
      List.takeWhile_eq_self_iff.2 fun b hb =>
        decide_eq_true fun h => hmem (h ▸ List.mem_reverse.1 hb)
    exact .inl ⟨hmem, by rw [lastLine, htake, List.reverse_reverse]⟩

/-- A line goes on as long as neither a newline nor a CR in front of one comes. -/
theorem firstLine_append {x rest : Bytes} (hx : Bytes.newline ∉ x)
    (hcr : x.getLast? = some 13 → rest.head? ≠ some Bytes.newline) :
    firstLine (x ++ rest) = x ++ firstLine rest := by
  induction x with
  | nil => rfl
  | cons b x ih =>
      rw [List.mem_cons, not_or] at hx
      have hrest : firstLine (x ++ rest) = x ++ firstLine rest := by
        refine ih hx.2 fun hlast => hcr ?_
        rw [List.getLast?_cons, hlast]
        rfl
      have hb : b ≠ Bytes.newline := fun h => hx.1 h.symm
      rw [List.cons_append, firstLine, if_neg hb, hrest, List.cons_append]
      rintro bs rfl heq
      cases x with
      | nil => exact hcr rfl (by rw [List.nil_append] at heq; rw [heq]; rfl)
      | cons c x =>
          cases heq
          exact hx.2 List.mem_cons_self

/-- What is behind the first line ends it. -/
theorem firstLine_split (bs : Bytes) :
    Bytes.newline ∉ firstLine bs ∧ ∃ ending below, bs = firstLine bs ++ (ending ++ below) ∧
      (ending = [13, Bytes.newline] ∨
        ending = [Bytes.newline] ∧ (firstLine bs).getLast? ≠ some 13 ∨ ending = [] ∧ below = []) := by
  fun_induction firstLine bs with
  | case1 => exact ⟨by simp, [], [], rfl, .inr (.inr ⟨rfl, rfl⟩)⟩
  | case2 bs => exact ⟨by simp, [13, Bytes.newline], bs, rfl, .inl rfl⟩
  | case3 bs hne => exact ⟨by simp, [Bytes.newline], bs, rfl, .inr (.inl ⟨rfl, by simp⟩)⟩
  | case4 b bs hne hb ih =>
      obtain ⟨hline, ending, below, heq, hending⟩ := ih
      refine ⟨by simp [hline, Ne.symm hb], ending, below, congrArg (b :: ·) heq, ?_⟩
      rcases hending with rfl | ⟨rfl, hlast⟩ | hend
      · exact .inl rfl
      · refine .inr (.inl ⟨rfl, ?_⟩)
        -- a CR that is all of the line would have been taken with the newline
        cases hfirst : firstLine bs with
        | nil =>
            rw [hfirst] at heq
            rintro ⟨⟩
            exact hne below rfl heq
        | cons c cs => rwa [List.getLast?_cons_cons, ← hfirst]
      · exact .inr (.inr hend)

/-- The line of a place is what of it is in front of the place and what is behind. -/
theorem isLine_at (before : Bytes) {rest : Bytes} (hrest : rest.head? ≠ some Bytes.newline) :
    IsLine (before ++ rest) (1 + before.count Bytes.newline) (lastLine before ++ firstLine rest) := by
  rcases lastLine_cases before with ⟨hnone, heq⟩ | ⟨above, line, rfl, hline, heq⟩
  · rw [heq, ← firstLine_append hnone fun _ => hrest, List.count_eq_zero_of_not_mem hnone]
    obtain ⟨hline, ending, below, htext, hending⟩ := firstLine_split (before ++ rest)
    exact ⟨[], ending, below, htext, rfl, .inl rfl, hline, hending⟩
  · rw [heq, ← firstLine_append hline fun _ => hrest]
    obtain ⟨hnewline, ending, below, htext, hending⟩ := firstLine_split (line ++ rest)
    refine ⟨above ++ [Bytes.newline], ending, below, ?_, ?_, .inr (by simp), hnewline, hending⟩
    · rw [← htext]
      simp
    · rw [List.count_append, List.count_append, List.count_cons_self,
        List.count_eq_zero_of_not_mem hline]
      rfl

/-! ## Splitting into lines -/

theorem lines_newline (bs : Bytes) : Bytes.lines (Bytes.newline :: bs) = [] :: Bytes.lines bs := by
  rw [Bytes.lines]
  split
  · rename_i h
    cases bs with
    | nil => cases h
    | cons b bs =>
        rw [Bytes.lines] at h
        split at h
        · cases h
        · split at h <;> cases h
  · rename_i h
    rw [if_pos rfl, h]

theorem lines_cons {b : UInt8} (hb : b ≠ Bytes.newline) {bs l : Bytes} {ls : List Bytes}
    (h : Bytes.lines bs = l :: ls) : Bytes.lines (b :: bs) = (b :: l) :: ls := by
  rw [Bytes.lines, h]
  exact if_neg hb

theorem unixNewlines_cons {b : UInt8} {bs : Bytes} (h : b = 13 → bs.head? ≠ some Bytes.newline) :
    Bytes.unixNewlines (b :: bs) = b :: Bytes.unixNewlines bs := by
  rw [Bytes.unixNewlines]
  rintro bs' rfl rfl
  exact h rfl rfl

/-- What is split off first is the first line. -/
theorem lines_eq_cons (bs : Bytes) :
    ∃ ls, Bytes.lines (Bytes.unixNewlines bs) = firstLine bs :: ls := by
  fun_induction firstLine bs with
  | case1 => exact ⟨[], rfl⟩
  | case2 bs => exact ⟨_, lines_newline _⟩
  | case3 bs hne =>
      rw [unixNewlines_cons fun h => absurd h (by decide)]
      exact ⟨_, lines_newline _⟩
  | case4 b bs hne hb ih =>
      obtain ⟨ls, hls⟩ := ih
      have hcr : b = 13 → bs.head? ≠ some Bytes.newline := by
        rintro rfl hhead
        cases bs with
        | nil => cases hhead
        | cons c bs =>
            cases hhead
            exact hne bs rfl rfl
      rw [unixNewlines_cons hcr]
      exact ⟨ls, lines_cons hb hls⟩

/-- Behind a newline the lines are those of the rest. -/
theorem lines_below (bs : Bytes) : ∀ above : Bytes, ∃ ls,
    ls.length = above.count Bytes.newline + 1 ∧
      Bytes.lines (Bytes.unixNewlines (above ++ Bytes.newline :: bs)) =
        ls ++ Bytes.lines (Bytes.unixNewlines bs)
  | [] => ⟨[[]], rfl, lines_newline _⟩
  | b :: above => by
      obtain ⟨ls, hlength, hls⟩ := lines_below bs above
      by_cases hb : b = Bytes.newline
      · subst hb
        refine ⟨[] :: ls, by simp [hlength], ?_⟩
        rw [List.cons_append, unixNewlines_cons fun h => absurd h (by decide), lines_newline, hls,
          List.cons_append]
      rw [List.count_cons_of_ne hb]
      by_cases hcr : b = 13 ∧ (above ++ Bytes.newline :: bs).head? = some Bytes.newline
      · obtain ⟨rfl, hhead⟩ := hcr
        refine ⟨ls, hlength, ?_⟩
        rw [← hls]
        cases above with
        | nil => rfl
        | cons c above =>
            cases hhead
            rfl
      · obtain ⟨l, ls, rfl⟩ := List.exists_cons_of_length_eq_add_one hlength
        refine ⟨(b :: l) :: ls, hlength, ?_⟩
        rw [List.cons_append, unixNewlines_cons fun h hhead => hcr ⟨h, hhead⟩]
        exact lines_cons hb hls

/-- A line is split off at its number. -/
theorem IsLine.getElem?_lines {text line : Bytes} {n : Nat} (h : IsLine text (1 + n) line) :
    (Bytes.lines (Bytes.unixNewlines text))[n]? = some line := by
  obtain ⟨above, ending, below, rfl, hn, habove, hline, hending⟩ := h
  obtain rfl : n = above.count Bytes.newline := Nat.add_left_cancel hn
  have hfirst : firstLine (line ++ (ending ++ below)) = line := by
    have hcr : line.getLast? = some 13 → (ending ++ below).head? ≠ some Bytes.newline := by
      rcases hending with rfl | ⟨rfl, hlast⟩ | ⟨rfl, rfl⟩
      · simp [Bytes.newline]
      · exact fun h => absurd h hlast
      · simp
    have hend : firstLine (ending ++ below) = [] := by
      rcases hending with rfl | ⟨rfl, -⟩ | ⟨rfl, rfl⟩ <;> rfl
    rw [firstLine_append hline hcr, hend, List.append_nil]
  obtain ⟨ls, hls⟩ := lines_eq_cons (line ++ (ending ++ below))
  rw [hfirst] at hls
  rcases habove with rfl | hlast
  · rw [List.nil_append, hls]
    rfl
  · obtain ⟨above, rfl⟩ := List.getLast?_eq_some_iff.1 hlast
    obtain ⟨above', hlength, habove⟩ := lines_below (line ++ (ending ++ below)) above
    have hcount : (above ++ [Bytes.newline]).count Bytes.newline = above'.length := by
      rw [hlength, List.count_append, List.count_singleton_self]
    rw [hcount, List.append_assoc, List.singleton_append, habove, hls,
      List.getElem?_append_right (Nat.le_refl _), Nat.sub_self]
    rfl

/-- **The line of a place is split off at its number.** -/
theorem lines_append (before : Bytes) {rest : Bytes} (hrest : rest.head? ≠ some Bytes.newline) :
    (Bytes.lines (Bytes.unixNewlines (before ++ rest)))[before.count Bytes.newline]? =
      some (lastLine before ++ firstLine rest) :=
  (isLine_at before hrest).getElem?_lines

/-! ## Excerpts -/

/-- Blanks as wide as a text: tabs stay tabs. -/
def blanks (indent : Bytes) : Bytes := indent.map fun b => if b = 9 then 9 else 32

@[simp] theorem length_blanks (indent : Bytes) : (blanks indent).length = indent.length :=
  List.length_map _

/-- The excerpt at a position shows the line of the source it is on, with `x` at its column, and
right below it the caret at the same column. Columns are counted behind the bars. -/
def Shown (s : Source) (p : Pos) (x : Bytes) : Prop :=
  ∃ (n : Nat) (indent more above below : Bytes), p = ⟨n, indent.length + 1⟩ ∧
    IsLine s.text n (indent ++ (x ++ more)) ∧
    s.excerpt p = above ++ (numberedLine n (indent ++ (x ++ more)) ++
      (utf8 "\n     | " ++ blanks indent ++ utf8 "^")) ++ below

theorem posAfter_eq (before : Bytes) :
    posAfter before = ⟨1 + before.count Bytes.newline, (lastLine before).length + 1⟩ := by
  rw [posAfter, lastLine, List.length_reverse]
  congr 1
  omega

/-- A position on line `n + 1` is shown, whatever its column. -/
theorem not_outside {s : Source} {n : Nat} {line : Bytes} (h : s.lines[n]? = some line) (c : Nat) :
    ¬((1 + n : Int) < 1 ∨ (s.lines.length : Int) < 1 + n ∨ (c + 1 : Int) < 1) := by
  have hlt : n < s.lines.length := (List.getElem?_eq_some_iff.1 h).1
  omega

/-- The excerpt at a column of line `n + 1`, or behind its end. -/
theorem excerpt_of_line {s : Source} {n : Nat} {line : Bytes} (h : s.lines[n]? = some line)
    (c : Nat) :
    s.excerpt ⟨1 + n, c + 1⟩ =
      neighbour s.lines n ++ (numberedLine (1 + n) line ++
        (utf8 "\n     | " ++ blanks (line.take c) ++ utf8 "^")) ++
      if n = 0 then [] else neighbour s.lines (n + 2) := by
  have hn : (1 + n : Int).toNat = n + 1 := by omega
  have hcolumn : (c + 1 : Int).toNat - 1 = c := by omega
  unfold excerpt
  simp only
  rw [if_neg (not_outside h c), hn, hcolumn, Nat.add_sub_cancel, List.getD_eq_getElem?_getD, h,
    Option.getD_some, caretLine, Nat.add_comm 1 n]
  simp [blanks]

/-- The excerpt at a position of line `n + 1` with `indent` in front of it. -/
theorem excerpt_eq {s : Source} {n : Nat} {indent rest : Bytes}
    (h : s.lines[n]? = some (indent ++ rest)) :
    s.excerpt ⟨1 + n, indent.length + 1⟩ =
      neighbour s.lines n ++ (numberedLine (1 + n) (indent ++ rest) ++
        (utf8 "\n     | " ++ blanks indent ++ utf8 "^")) ++
      if n = 0 then [] else neighbour s.lines (n + 2) := by
  rw [excerpt_of_line h indent.length, List.take_left]

/-- **The position of a place is shown with what stands there**, unless that is the end of a line
with another one below it. -/
theorem shown_at {path before x rest : Bytes} (hrest : (x ++ rest).head? ≠ some Bytes.newline)
    (hx : Bytes.newline ∉ x) (hlast : x.getLast? ≠ some 13) :
    Shown ⟨path, before ++ (x ++ rest)⟩ (posAfter before) x := by
  have hlines := lines_append before hrest
  have hline := isLine_at before hrest
  rw [firstLine_append hx fun h => absurd h hlast] at hlines hline
  have hexcerpt := excerpt_eq (s := ⟨path, before ++ (x ++ rest)⟩) hlines
  rw [← posAfter_eq] at hexcerpt
  exact ⟨_, _, _, _, _, posAfter_eq before, hline, hexcerpt⟩

example : Source.excerpt ⟨utf8 "a.swift", utf8 "a\r\n\tb c\nd"⟩ ⟨2, 4⟩ =
    utf8 "\n   1 | a\n   2 | \tb c\n     | \t  ^\n   3 | d" := by decide

theorem Shown.excerpt_ne_nil {s : Source} {p : Pos} {x : Bytes} (h : Shown s p x) :
    s.excerpt p ≠ [] := by
  obtain ⟨n, indent, more, above, below, -, -, heq⟩ := h
  rw [heq]
  simp [numberedLine]

end Source

end Swiftlet
