import Mathlib.Data.List.Induction
import Swiftlet.Proofs.Source.Excerpt

/-!
# Excerpts at any position

A position need not come from the text it is looked up in: its line and its column are any integers.
An excerpt is cut out of the lines by their indices, and its caret row is written byte by byte below
the line. `excerpt` itself cannot fail, since what is not there counts as empty; here every index is
checked, so that one out of range would be seen.

* `readAt`, `writeAt`, `zeros` — access to a list by an integer; `none` if that is out of range.
* `caretRow?` and `excerpt?` — the caret row and the excerpt, made with such accesses only.
* `View` — what an excerpt shows: a line, the lines around it if they are shown, and what is in front
  of the caret. `View.IsAt text p` says which these are at a position of a text.

Principal results: `line?_eq_some_iff`, that what is split off a text are its lines;
`excerpt?_eq_some`, that no access is out of range; and `excerpt_anywhere`.
-/

namespace Swiftlet

namespace Source

/-! ## The lines of a text -/

theorem count_unixNewlines (bs : Bytes) :
    (Bytes.unixNewlines bs).count Bytes.newline = bs.count Bytes.newline := by
  fun_induction Bytes.unixNewlines bs with
  | case1 => rfl
  | case2 bs ih => simpa [Bytes.newline] using ih
  | case3 b bs _ ih => rw [List.count_cons, List.count_cons, ih]

theorem length_lines_eq_count (bs : Bytes) :
    (Bytes.lines bs).length = bs.count Bytes.newline + 1 := by
  induction bs with
  | nil => rfl
  | cons b bs ih =>
      by_cases hb : b = Bytes.newline
      · rw [hb, lines_newline, List.length_cons, ih, List.count_cons_self]
      · obtain ⟨l, ls, hls⟩ := List.exists_cons_of_length_eq_add_one ih
        rw [lines_cons hb hls, List.count_cons_of_ne hb, ← ih, hls]
        rfl

/-- A text has one line more than it has newlines. -/
theorem length_lines (s : Source) : s.lines.length = s.text.count Bytes.newline + 1 := by
  rw [lines, length_lines_eq_count, count_unixNewlines]

/-- A text can be cut behind each of its newlines. -/
theorem exists_above {text : Bytes} {n : Nat} (h : n ≤ text.count Bytes.newline) :
    ∃ above rest, text = above ++ rest ∧ above.count Bytes.newline = n ∧
      (above = [] ∨ above.getLast? = some Bytes.newline) := by
  induction n generalizing text with
  | zero => exact ⟨[], text, rfl, rfl, .inl rfl⟩
  | succ n ih =>
      have hmem : Bytes.newline ∈ text := List.count_pos_iff.1 (Nat.lt_of_lt_of_le n.succ_pos h)
      obtain ⟨line, below, rfl, hline⟩ := List.eq_append_cons_of_mem hmem
      rw [List.count_append, List.count_eq_zero_of_not_mem hline, List.count_cons_self] at h
      have hbelow : n ≤ below.count Bytes.newline := by omega
      obtain ⟨above, rest, rfl, hcount, habove⟩ := ih hbelow
      refine ⟨line ++ Bytes.newline :: above, rest, by simp, ?_, .inr ?_⟩
      · rw [List.count_append, List.count_eq_zero_of_not_mem hline, List.count_cons_self, hcount,
          Nat.zero_add]
      · rcases habove with rfl | hlast
        · simp
        · simp [List.getLast?_cons, hlast]

/-- There is a line of every number up to that of the newlines and one more. -/
theorem exists_isLine {text : Bytes} {n : Nat} (h : n ≤ text.count Bytes.newline) :
    ∃ line, IsLine text (1 + n) line := by
  obtain ⟨above, rest, rfl, rfl, habove⟩ := exists_above h
  obtain ⟨hline, ending, below, hrest, hending⟩ := firstLine_split rest
  exact ⟨firstLine rest, above, ending, below, by rw [← hrest], rfl, habove, hline, hending⟩

/-- The line with number `n` among the lines of a source. -/
def line? (s : Source) (n : Nat) : Option Bytes := if n = 0 then none else s.lines[n - 1]?

/-- **What is split off a text are its lines.** -/
theorem line?_eq_some_iff {s : Source} {n : Nat} {line : Bytes} :
    s.line? n = some line ↔ IsLine s.text n line := by
  cases n with
  | zero =>
      refine ⟨fun h => ?_, ?_⟩
      · cases h
      rintro ⟨above, ending, below, -, hn, -⟩
      omega
  | succ n =>
      rw [line?, if_neg n.succ_ne_zero, Nat.add_sub_cancel, Nat.add_comm n 1]
      refine ⟨fun h => ?_, IsLine.getElem?_lines⟩
      have hlt : n < s.lines.length := (List.getElem?_eq_some_iff.1 h).1
      rw [length_lines] at hlt
      obtain ⟨line', hline'⟩ := exists_isLine (Nat.le_of_lt_succ hlt)
      obtain rfl : line' = line := Option.some.inj (hline'.getElem?_lines.symm.trans h)
      exact hline'

/-! ## What an excerpt shows -/

/-- What an excerpt shows. -/
structure View where
  above : Option Bytes
  line : Bytes
  indent : Bytes
  below : Option Bytes
  deriving DecidableEq, Repr

/-- A line with its number, if there is one. -/
def optionalLine (n : Nat) : Option Bytes → Bytes
  | some line => numberedLine n line
  | none => []

/-- The text of a view of line `n`. -/
def View.text (v : View) (n : Nat) : Bytes :=
  optionalLine (n - 1) v.above ++
    (numberedLine n v.line ++ (utf8 "\n     | " ++ v.indent ++ utf8 "^")) ++
    optionalLine (n + 1) v.below

/-- What is to be seen at a position on a line of the text: the line; the line above it, if the text
has one; the line below it, if the text has one and the line is not the first; and the caret, at the
column or right behind the line if the column is further right. Only tabs of the line are tabs in
front of the caret. -/
structure View.IsAt (text : Bytes) (p : Pos) (v : View) : Prop where
  line : IsLine text p.line.toNat v.line
  above : ∀ l, v.above = some l ↔ IsLine text (p.line.toNat - 1) l
  below : ∀ l, v.below = some l ↔ p.line ≠ 1 ∧ IsLine text (p.line.toNat + 1) l
  offset : (v.indent.length : Int) = min p.column (v.line.length + 1) - 1
  indent : v.indent = blanks (v.line.take v.indent.length)

theorem neighbour_lines (s : Source) (n : Nat) :
    neighbour s.lines n = optionalLine n (s.line? n) := by
  cases n with
  | zero => rfl
  | succ n =>
      rw [neighbour, line?, if_neg n.succ_ne_zero, Nat.add_sub_cancel]
      cases s.lines[n]? <;> rfl

/-- A position is outside the text, or its line is one of the text and its column is any. -/
theorem outside_or_line (s : Source) (p : Pos) :
    (p.line < 1 ∨ (s.lines.length : Int) < p.line ∨ p.column < 1) ∨
      ∃ (n c : Nat) (line : Bytes), p = ⟨1 + n, c + 1⟩ ∧ s.lines[n]? = some line := by
  by_cases h : p.line < 1 ∨ (s.lines.length : Int) < p.line ∨ p.column < 1
  · exact .inl h
  · have hlt : p.line.toNat - 1 < s.lines.length := by omega
    refine .inr ⟨p.line.toNat - 1, p.column.toNat - 1, _, ?_, List.getElem?_eq_getElem hlt⟩
    obtain ⟨line, column⟩ := p
    simp only [Pos.mk.injEq] at h hlt ⊢
    omega

/-- The view that the excerpt at a column of line `n + 1` has. -/
theorem excerpt_view {s : Source} {n : Nat} {line : Bytes} (h : s.lines[n]? = some line) (c : Nat) :
    ∃ v : View, v.IsAt s.text ⟨1 + n, c + 1⟩ ∧ s.excerpt ⟨1 + n, c + 1⟩ = v.text (1 + n) := by
  have hn : (1 + n : Int).toNat = n + 1 := by omega
  refine ⟨⟨s.line? n, line, blanks (line.take c), if n = 0 then none else s.line? (n + 2)⟩,
    { line := ?_, above := fun l => ?_, below := fun l => ?_, offset := ?_, indent := ?_ }, ?_⟩
  · rw [hn, ← line?_eq_some_iff]
    exact h
  · rw [hn, Nat.add_sub_cancel]
    exact line?_eq_some_iff
  · rw [hn, ← line?_eq_some_iff]
    -- nothing is shown below the first line, even if there is something
    by_cases hzero : n = 0
    · simp [hzero]
    · have hfirst : (1 + n : Int) ≠ 1 := by omega
      simp [hzero, hfirst]
  · simp only [length_blanks, List.length_take]
    omega
  · rw [length_blanks, List.length_take, ← List.take_eq_take_min]
  · rw [excerpt_of_line h c, neighbour_lines, neighbour_lines]
    by_cases hzero : n = 0
    · simp [View.text, optionalLine, hzero]
    · simp [View.text, hzero, Nat.add_comm 1 n]

/-! ## Checked indices -/

/-- The element at an index, if that is in range. -/
def readAt {α : Type} (xs : List α) (i : Int) : Option α := if 0 ≤ i then xs[i.toNat]? else none

/-- The list with another element at an index, if that is in range. -/
def writeAt {α : Type} (xs : List α) (i : Int) (x : α) : Option (List α) :=
  if 0 ≤ i ∧ i < xs.length then some (xs.set i.toNat x) else none

/-- A row of `n` bytes that are still to be written, if there can be one. -/
def zeros (n : Int) : Option Bytes := if 0 ≤ n then some (List.replicate n.toNat 0) else none

/-- The blank below byte `i` of the line is written. -/
def writeBlank (line row : Bytes) (i : Nat) : Option Bytes := do
  let b ← readAt line i
  writeAt row i (if b = 9 then 9 else 32)

/-- The row below a line, as long as `column`: blanks, and the caret as the last byte. -/
def caretRow? (line : Bytes) (column : Int) : Option Bytes := do
  let row ← zeros column
  let row ← (List.range (column - 1).toNat).foldlM (writeBlank line) row
  writeAt row (column - 1) 94

/-- What is shown of line `n`, with the lines around it: none around the first one, and none below
the last one. -/
def surround? (lines : List Bytes) (n : Int) (shown : Bytes) : Option Bytes :=
  if n = 1 ∨ lines.length = 1 then some shown
  else do
    let above ← readAt lines (n - 2)
    let shown := numberedLine (n - 1).toNat above ++ shown
    if n = lines.length then some shown
    else do
      let below ← readAt lines n
      some (shown ++ numberedLine (n + 1).toNat below)

/-- The excerpt at a position, made by checked indices; `none` if one of them is out of range. -/
def excerpt? (s : Source) (p : Pos) : Option Bytes :=
  if p.line < 1 ∨ s.lines.length < p.line ∨ p.column < 1 then some []
  else do
    let line ← readAt s.lines (p.line - 1)
    let row ← caretRow? line (if line.length + 1 < p.column then line.length + 1 else p.column)
    surround? s.lines p.line (numberedLine p.line.toNat line ++ (utf8 "\n     | " ++ row))

theorem readAt_of_eq {α : Type} {xs : List α} {x : α} {i : Int} {k : Nat} (hi : i = k)
    (h : xs[k]? = some x) : readAt xs i = some x := by
  rw [hi, readAt, if_pos (Int.natCast_nonneg k), Int.toNat_natCast, h]

/-- Writing behind what has been written. -/
theorem writeAt_of_eq {α : Type} {xs : List α} {i : Int} (hi : i = xs.length) (x y : α)
    (zs : List α) : writeAt (xs ++ x :: zs) i y = some (xs ++ y :: zs) := by
  have hrange : 0 ≤ i ∧ i < (xs ++ x :: zs).length := by
    simp only [List.length_append, List.length_cons]
    omega
  rw [writeAt, if_pos hrange, hi]
  simp

/-- One step: below the next byte of the line comes its blank. -/
theorem writeBlank_append (x rest : Bytes) (b z : UInt8) (zs : Bytes) :
    writeBlank (x ++ b :: rest) (blanks x ++ z :: zs) x.length =
      some (blanks (x ++ [b]) ++ zs) := by
  have hread : readAt (x ++ b :: rest) x.length = some b := readAt_of_eq rfl (by simp)
  have hlength : (x.length : Int) = (blanks x).length := by rw [length_blanks]
  rw [writeBlank, hread, Option.bind_eq_bind, Option.bind_some, writeAt_of_eq hlength]
  simp [blanks]

/-- After `x.length` steps there are blanks below `x`. -/
theorem foldlM_writeBlank (x rest zs : Bytes) :
    (List.range x.length).foldlM (writeBlank (x ++ rest)) (List.replicate x.length 0 ++ zs) =
      some (blanks x ++ zs) := by
  induction x using List.reverseRecOn generalizing rest zs with
  | nil => rfl
  | append_singleton x b ih =>
      rw [List.length_append, List.length_singleton, List.range_succ, List.foldlM_append,
        List.replicate_succ', List.append_assoc, List.append_assoc, List.singleton_append,
        List.singleton_append, ih]
      simp [writeBlank_append]

/-- The caret row is in range, up to the column right behind the line. -/
theorem caretRow?_eq_some (x rest : Bytes) :
    caretRow? (x ++ rest) (x.length + 1) = some (blanks x ++ utf8 "^") := by
  have hzeros : zeros (x.length + 1) = some (List.replicate x.length 0 ++ [0]) := by
    rw [zeros, if_pos (by omega), ← List.replicate_succ']
    rfl
  have hcolumn : (x.length + 1 : Int) - 1 = x.length := by omega
  have hlength : (x.length : Int) = (blanks x).length := by rw [length_blanks]
  rw [caretRow?, hzeros, hcolumn]
  simp only [Option.bind_eq_bind, Option.bind_some, Int.toNat_natCast, foldlM_writeBlank,
    writeAt_of_eq hlength]
  rfl

theorem neighbour_succ {ls : List Bytes} {i : Nat} {line : Bytes} (h : ls[i]? = some line) :
    neighbour ls (i + 1) = numberedLine (i + 1) line := by
  simp [neighbour, h]

/-- The lines around a line that is there are in range where they are read. -/
theorem surround?_eq_some {ls : List Bytes} {n : Nat} (h : n < ls.length) (shown : Bytes) :
    surround? ls (1 + n) shown =
      some (neighbour ls n ++ shown ++ if n = 0 then [] else neighbour ls (n + 2)) := by
  cases n with
  | zero => simp [surround?, neighbour]
  | succ m =>
      have habove : ls[m]? = some ls[m] := List.getElem?_eq_getElem (by omega)
      have hfirst : ¬((1 + (m + 1 : Nat) : Int) = 1 ∨ ls.length = 1) := by omega
      have hread : readAt ls (1 + (m + 1 : Nat) - 2) = some ls[m] :=
        readAt_of_eq (by omega) habove
      have hnumber : (1 + (m + 1 : Nat) - 1 : Int).toNat = m + 1 := by omega
      rw [surround?, if_neg hfirst, hread, neighbour_succ habove, if_neg m.succ_ne_zero]
      simp only [Option.bind_eq_bind, Option.bind_some, hnumber]
      by_cases hlast : (1 + (m + 1 : Nat) : Int) = ls.length
      · have hnone : ls[m + 2]? = none := List.getElem?_eq_none (by omega)
        rw [if_pos hlast]
        simp [neighbour, hnone]
      · have hbelow : ls[m + 2]? = some ls[m + 2] := List.getElem?_eq_getElem (by omega)
        have hread : readAt ls (1 + (m + 1 : Nat)) = some ls[m + 2] :=
          readAt_of_eq (by omega) hbelow
        have hnumber : (1 + (m + 1 : Nat) + 1 : Int).toNat = m + 3 := by omega
        rw [if_neg hlast, hread, neighbour_succ hbelow, hnumber]
        rfl

/-- **No access is out of range**, whatever the position. -/
theorem excerpt?_eq_some (s : Source) (p : Pos) : s.excerpt? p = some (s.excerpt p) := by
  rcases outside_or_line s p with houtside | ⟨n, c, line, rfl, hline⟩
  · rw [excerpt?, if_pos houtside, excerpt, if_pos houtside]
  · have hlt : n < s.lines.length := (List.getElem?_eq_some_iff.1 hline).1
    have hread : readAt s.lines (1 + n - 1) = some line := readAt_of_eq (by omega) hline
    -- a column behind the line is moved to its end, where the bytes in front of the caret end too
    have hcolumn : (if (line.length + 1 : Int) < c + 1 then (line.length + 1 : Int) else c + 1) =
        (line.take c).length + 1 := by
      rw [List.length_take]
      split <;> omega
    have hrow := caretRow?_eq_some (line.take c) (line.drop c)
    rw [List.take_append_drop] at hrow
    have hnumber : (1 + n : Int).toNat = 1 + n := by omega
    rw [excerpt?, if_neg (not_outside hline c), excerpt_of_line hline c]
    simp only [hread, hcolumn, hrow, hnumber, Option.bind_eq_bind, Option.bind_some,
      surround?_eq_some hlt, List.append_assoc]

/-! ## Excerpts -/

theorem excerpt_eq_nil_iff (s : Source) (p : Pos) :
    s.excerpt p = [] ↔
      p.line < 1 ∨ (s.text.count Bytes.newline + 1 : Int) < p.line ∨ p.column < 1 := by
  have hlength : (s.lines.length : Int) = s.text.count Bytes.newline + 1 := by
    rw [length_lines]
    rfl
  rw [← hlength]
  rcases outside_or_line s p with houtside | ⟨n, c, line, rfl, hline⟩
  · rw [excerpt, if_pos houtside]
    exact iff_of_true rfl houtside
  · refine iff_of_false ?_ (not_outside hline c)
    rw [excerpt_of_line hline c]
    simp [numberedLine]

/-- **An excerpt can be asked for at any position.** No index is out of range when it is made. It is
empty if and only if the line of the position is not one of the text, which has one line more than
newlines, or the column is below 1. Otherwise it is what is to be seen at the position. -/
theorem excerpt_anywhere (s : Source) (p : Pos) :
    s.excerpt? p = some (s.excerpt p) ∧
      (s.excerpt p = [] ↔
        p.line < 1 ∨ (s.text.count Bytes.newline + 1 : Int) < p.line ∨ p.column < 1) ∧
      (s.excerpt p ≠ [] →
        ∃ v : View, v.IsAt s.text p ∧ s.excerpt p = v.text p.line.toNat) := by
  refine ⟨excerpt?_eq_some s p, excerpt_eq_nil_iff s p, fun hne => ?_⟩
  rcases outside_or_line s p with houtside | ⟨n, c, line, rfl, hline⟩
  · rw [excerpt, if_pos houtside] at hne
    exact absurd rfl hne
  · have hnumber : (1 + n : Int).toNat = 1 + n := by omega
    rw [hnumber]
    exact excerpt_view hline c

example : Source.excerpt ⟨utf8 "a.swift", utf8 "a\n\tb\r\nc"⟩ ⟨2, 100⟩ =
    utf8 "\n   1 | a\n   2 | \tb\n     | \t ^\n   3 | c" := by decide

/-- A column far behind the end of a line that a tab begins and CR LF ends. -/
theorem excerpt_anywhere_behind_line :
    let s : Source := ⟨utf8 "a.swift", utf8 "a\n\tb\r\nc"⟩
    s.excerpt ⟨2, 100⟩ ≠ [] ∧
      ∃ v : View, v.IsAt s.text ⟨2, 100⟩ ∧ s.excerpt ⟨2, 100⟩ = v.text 2 := by
  intro s
  have hne : s.excerpt ⟨2, 100⟩ ≠ [] := by decide
  exact ⟨hne, (excerpt_anywhere s ⟨2, 100⟩).2.2 hne⟩

end Source

end Swiftlet
