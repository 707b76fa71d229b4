import Mathlib.Data.List.Basic
import Swiftlet.Highlight
import Swiftlet.Proofs.Lexing.Refusal

/-!
# Highlighting only adds color

A highlighted line is the line itself with an escape sequence before and behind the literals and the
keywords of its first line.

* `HasColor k c` — tokens of kind `k` are shown in the color `c`.
* `onFirstLine` — the tokens on the first line, without the one for the end.
* `Painted before bs ts out` — behind the bytes `before`, the tokens `ts` stand at their positions
  in `bs`, and `out` is `bs` with the spelling of each in its color.
* `shadeFlagged` — the shading of a line together with whether it was left at a token that does not
  lie in what is left of the line.

Principal results: `shadeFlagged_token`, what happens at one token, `painted_of_partition`, what
happens at all of them, and `highlight_painted`.
-/

namespace Swiftlet

namespace Highlight

open Lexing

/-! ## Colors of tokens -/

/-- What is shown in which color. -/
inductive HasColor : Token.Kind → Color → Prop where
  | string : HasColor .string .green
  | int : HasColor .int .magenta
  | float : HasColor .float .magenta
  | typeName (t : Ty) : HasColor (.keyword (.type t)) .cyan
  | keyword {k : Keyword} (hk : ∀ t, k ≠ .type t) : HasColor (.keyword k) .blue
  | truth (v : Bool) : HasColor (.bool v) .blue

theorem color?_eq_some_iff {k : Token.Kind} {c : Color} : color? k = some c ↔ HasColor k c := by
  constructor
  · intro h
    cases k with
    | string =>
        cases h
        exact .string
    | int =>
        cases h
        exact .int
    | float =>
        cases h
        exact .float
    | bool v =>
        cases h
        exact .truth v
    | keyword k =>
        cases k with
        | type t =>
            cases h
            exact .typeName t
        | _ =>
            cases h
            exact .keyword (by simp)
    | identifier | endOfFile | punct | operator | unknown => cases h
  · intro h
    cases h with
    | @keyword k hk =>
        cases k with
        | type t => exact absurd rfl (hk t)
        | _ => rfl
    | _ => rfl

theorem shade_off (t : Token) (text : Bytes) : shade false t text = text := by
  unfold shade
  split <;> rfl

/-! ## Painted lines -/

/-- The tokens on the first line, without the one for the end. -/
def onFirstLine (ts : List Token) : List Token :=
  ts.filter fun t => t.kind ≠ .endOfFile ∧ t.pos.line = 1

/-- Behind `before`, the tokens stand at their positions in the bytes, and the output is the bytes
with the spelling of each token in its color. -/
inductive Painted : Bytes → Bytes → List Token → Bytes → Prop where
  | rest (before bs : Bytes) : Painted before bs [] bs
  | plain {before g bs out : Bytes} {t : Token} {ts : List Token} (hcolor : ∀ c, ¬HasColor t.kind c)
      (hpos : t.pos = posAfter (before ++ g)) (h : Painted (before ++ g ++ t.spelling) bs ts out) :
      Painted before (g ++ (t.spelling ++ bs)) (t :: ts) (g ++ (t.spelling ++ out))
  | colored {before g bs out : Bytes} {t : Token} {ts : List Token} {c : Color}
      (hcolor : HasColor t.kind c) (hpos : t.pos = posAfter (before ++ g))
      (h : Painted (before ++ g ++ t.spelling) bs ts out) :
      Painted before (g ++ (t.spelling ++ bs)) (t :: ts)
        (g ++ (c.start ++ t.spelling ++ Color.reset ++ out))

theorem Painted.token {before g bs out : Bytes} {t : Token} {ts : List Token}
    (hpos : t.pos = posAfter (before ++ g)) (h : Painted (before ++ g ++ t.spelling) bs ts out) :
    Painted before (g ++ (t.spelling ++ bs)) (t :: ts) (g ++ (shade true t t.spelling ++ out)) := by
  unfold shade
  split
  · rename_i c hc
    exact .colored (color?_eq_some_iff.1 hc) hpos h
  · rename_i hc
    refine .plain (fun c hcolor => ?_) hpos h
    rw [color?_eq_some_iff.2 hcolor] at hc
    cases hc

/-! ## The loop over the tokens -/

/-- The rest of the first line with its tokens shaded, and whether it was left at a token that does
not lie in it. -/
def shadeFlagged (on : Bool) (done : Nat) (rest : Bytes) : List Token → Bytes × Bool
  | [] => (rest, false)
  | t :: tokens =>
    if t.kind = .endOfFile ∨ t.pos.line ≠ 1 then (rest, false)
    else
      let gap := t.pos.column.toNat - 1 - done
      let n := width t
      if t.pos.column.toNat - 1 < done ∨ rest.length < gap + n then (rest, true)
      else
        let behind := shadeFlagged on (done + gap + n) ((rest.drop gap).drop n) tokens
        (rest.take gap ++ shade on t ((rest.drop gap).take n) ++ behind.1, behind.2)

theorem shadeFlagged_fst (on : Bool) (done : Nat) (rest : Bytes) (ts : List Token) :
    (shadeFlagged on done rest ts).1 = shadeFrom on done rest ts := by
  induction ts generalizing done rest with
  | nil => rfl
  | cons t ts ih =>
      rw [shadeFlagged, shadeFrom]
      split
      · rfl
      dsimp only
      split
      · rfl
      · rw [ih]

/-- Without colors nothing changes, whatever the tokens are. -/
theorem shadeFrom_off (done : Nat) (rest : Bytes) (ts : List Token) :
    shadeFrom false done rest ts = rest := by
  induction ts generalizing done rest with
  | nil => rfl
  | cons t ts ih =>
      rw [shadeFrom]
      split
      · rfl
      dsimp only
      split
      · rfl
      · rw [ih, shade_off, List.append_assoc, List.take_append_drop, List.take_append_drop]

theorem shadeFlagged_stop {t : Token} (h : t.kind = .endOfFile ∨ t.pos.line ≠ 1) (on : Bool)
    (done : Nat) (rest : Bytes) (ts : List Token) :
    shadeFlagged on done rest (t :: ts) = (rest, false) := by
  rw [shadeFlagged, if_pos h]

/-- A token is as wide as its spelling. -/
theorem width_eq (t : Token) : width t = t.spelling.length := by
  unfold width Token.spelling
  split
  · rename_i hkind
    split
    · rename_i hempty
      simp [hempty]
    · rename_i hne
      simp [hkind, hne]
  · rename_i hkind
    have hkind : t.kind ≠ .string := hkind
    simp [hkind]

/-- On the first line the column counts the bytes. -/
theorem posAfter_eq {x : Bytes} (h : Bytes.newline ∉ x) : posAfter x = ⟨1, x.length + 1⟩ := by
  have := posAfter_append [] x
  rw [foldl_advance h, List.nil_append] at this
  rw [this]
  simp [posAfter, Pos.right]
  omega

theorem posAfter_line_ne {x : Bytes} (h : Bytes.newline ∈ x) : (posAfter x).line ≠ 1 := by
  have := List.count_pos_iff.2 h
  simp only [posAfter]
  omega

/-- **At a token of the first line** the bytes before it are kept, its spelling is shaded, and what
is behind it comes next. -/
theorem shadeFlagged_token (on : Bool) {before g rest : Bytes} {t : Token} (ts : List Token)
    (ht : t.IsLexeme) (hpos : t.pos = posAfter (before ++ g))
    (hline : Bytes.newline ∉ before ++ g) :
    shadeFlagged on before.length (g ++ (t.spelling ++ rest)) (t :: ts) =
      (g ++ (shade on t t.spelling ++
          (shadeFlagged on (before ++ g ++ t.spelling).length rest ts).1),
        (shadeFlagged on (before ++ g ++ t.spelling).length rest ts).2) := by
  rw [posAfter_eq hline, List.length_append] at hpos
  have hgoes : ¬(t.kind = .endOfFile ∨ t.pos.line ≠ 1) := by
    simp [ht.kind_ne_endOfFile, hpos]
  have hcolumn : t.pos.column.toNat - 1 = before.length + g.length := by
    rw [hpos]
    dsimp only
    omega
  have hfits : ¬(before.length + g.length < before.length ∨
      (g ++ (t.spelling ++ rest)).length < g.length + t.spelling.length) := by
    simp only [List.length_append]
    omega
  rw [shadeFlagged, if_neg hgoes]
  simp only [hcolumn, width_eq, Nat.add_sub_cancel_left, if_neg hfits]
  simp [Nat.add_assoc]

/-- Behind a newline no token is on the first line. -/
theorem onFirstLine_eq_nil {L : Bytes → Prop} {before bs : Bytes} {ts : List Token}
    (h : Partition L before bs ts) (hline : Bytes.newline ∈ before) : onFirstLine ts = [] := by
  refine List.filter_eq_nil_iff.2 fun t ht => ?_
  obtain ⟨x, -, -, -, hpos, -⟩ := h.place ht
  have := posAfter_line_ne (List.mem_append_left x hline)
  simp [hpos, this]

/-- **A line with its tokens shaded is painted**, and the shading goes on to the last token. -/
theorem painted_of_partition {L : Bytes → Prop} {before bs : Bytes} {ts : List Token}
    (h : Partition L before bs ts) :
    Painted before bs (onFirstLine ts) (shadeFlagged true before.length bs ts).1 ∧
      ∀ on, (shadeFlagged on before.length bs ts).2 = false := by
  induction h with
  | @finish before g hg =>
      have hend : (Token.endAt (posAfter (before ++ g))).kind = .endOfFile := rfl
      have hnil : onFirstLine [Token.endAt (posAfter (before ++ g))] = [] := by
        simp [onFirstLine, hend]
      simp only [shadeFlagged_stop (.inl hend), hnil]
      exact ⟨.rest before g, fun _ => trivial⟩
  | @token before g rest t ts hg ht hlongest hpos hrest ih =>
      -- The first token below the first line ends the loop, and no later one is on that line.
      by_cases hline : Bytes.newline ∈ before ++ g
      · have hbelow : t.pos.line ≠ 1 := hpos ▸ posAfter_line_ne hline
        have hnil : onFirstLine (t :: ts) = [] := by
          rw [onFirstLine, List.filter_cons_of_neg (by simp [hbelow])]
          exact onFirstLine_eq_nil hrest (List.mem_append_left _ hline)
        simp only [shadeFlagged_stop (.inr hbelow), hnil]
        exact ⟨.rest before _, fun _ => trivial⟩
      · have hfirst : onFirstLine (t :: ts) = t :: onFirstLine ts := by
          refine List.filter_cons_of_pos ?_
          simp [ht.kind_ne_endOfFile, hpos, posAfter_eq hline]
        simp only [shadeFlagged_token _ ts ht hpos hline, hfirst]
        exact ⟨ih.1.token hpos, ih.2⟩

/-! ## Highlighted lines -/

/-- A line of valid UTF-8 has nothing to replace. -/
theorem scrub_of_isValid {line : Bytes} (h : Utf8.isValid line = true) : scrub line = line := by
  have hpoints := List.all_eq_true.1 h
  have hsame : scrub line = (Utf8.runes line).flatMap Utf8.Rune.text := by
    refine List.flatMap_congr fun r hr => ?_
    cases r with
    | point => rfl
    | stray => cases hpoints _ hr
  rw [hsame, Utf8.runes_flatten]

/-- **Highlighting only adds color.** Without colors a line stays as it is, and so does a line that
does not lex. Otherwise the tokens of the first line are painted where they stand, everything else
is kept, and the shading is never left at a token that does not lie in what is left of the line. -/
theorem highlight_painted {line : Bytes} (h : Utf8.isValid line = true) :
    highlight false line = line ∧
    (∀ e, lex line = .error e → highlight true line = line) ∧
    ∀ ts, lex line = .ok ts → Painted [] line (onFirstLine ts) (highlight true line) ∧
      ∀ on, shadeFlagged on 0 line ts = (highlight on line, false) := by
  unfold highlight
  simp only [scrub_of_isValid h]
  refine ⟨?_, fun e he => by rw [he], fun ts hts => ?_⟩
  · split
    · rfl
    · exact shadeFrom_off 0 line _
  · obtain ⟨hpainted, hflag⟩ := painted_of_partition (partition_of_lexFrom [] line hts)
    rw [shadeFlagged_fst] at hpainted
    simp only [hts]
    exact ⟨hpainted, fun on => Prod.ext (shadeFlagged_fst on 0 line ts) (hflag on)⟩

/-- A string that is not plain ASCII, with its quotes, between a keyword and a comment. -/
def greeting : Bytes := utf8 "print(\"é\") // 1"

def greetingTokens : List Token :=
  [⟨.keyword .printing, utf8 "print", ⟨1, 1⟩⟩, ⟨.punct .leftParen, utf8 "(", ⟨1, 6⟩⟩,
    ⟨.string, utf8 "é", ⟨1, 7⟩⟩, ⟨.punct .rightParen, utf8 ")", ⟨1, 11⟩⟩]

theorem highlight_greeting :
    Utf8.isValid greeting = true ∧ lex greeting = .ok (greetingTokens ++ [Token.endAt ⟨1, 17⟩]) ∧
    Painted [] greeting greetingTokens (highlight true greeting) := by
  have hvalid : Utf8.isValid greeting = true := by decide +kernel
  have hlex : lex greeting = .ok (greetingTokens ++ [Token.endAt ⟨1, 17⟩]) := by decide +kernel
  exact ⟨hvalid, hlex, ((highlight_painted hvalid).2.2 _ hlex).1⟩

example : highlight true greeting =
    utf8 "\x1b[34mprint\x1b[0m(\x1b[32m\"é\"\x1b[0m) // 1" := by decide +kernel

end Highlight

end Swiftlet
