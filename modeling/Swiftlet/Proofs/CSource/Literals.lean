import Mathlib.Algebra.Group.Nat.Defs
import Mathlib.Data.List.Chain
import Swiftlet.CSource
import Swiftlet.Proofs.Bytes.Runes
import Swiftlet.Token.Lexing
import Swiftlet.Tree.Parsing
import Swiftlet.Typing

/-!
# String literals in C

A string goes into C source in the quotation that `Quoted.quote` gives it. Its escapes look like those
of C, but they are not read by the same rules. Two differences matter: behind `\x` C goes on to read
digits for as long as there are any, and C has no universal character name for a control character.

* `CLiteral.read` — the bytes that a string literal of C99 denotes, if it is one: characters that stand
  for themselves, simple escapes, octal and hexadecimal escapes, and universal character names, which
  denote the UTF-8 encoding of their character. Trigraphs, which are replaced before there are
  literals, are not part of it.
* `Rune.isOpen` — written with hexadecimal digits that further digits would be added to.
* `Readable` — what a string has to be like to be read back.
* `Written` — all the ways in which a rune is written.

Principal results: `chars_of_readable` and `readable_of_chars`, and from both of them
`expression_string_read_iff`. That a literal can be read as other bytes than it was written for is
`literal_misread`.
-/

namespace Swiftlet

/-! ## What a literal denotes -/

namespace CLiteral

def isHex (b : UInt8) : Bool := (Bytes.hexValue? b).isSome

def isOctal (b : UInt8) : Bool := 48 ≤ b && b ≤ 55

/-- The value of a string of digits of a base up to sixteen. -/
def value (base : Nat) (digits : Bytes) : Nat :=
  digits.foldl (fun n d => base * n + (Bytes.hexValue? d).getD 0) 0

/-- The characters that stand for another one, or for themselves, behind a backslash. -/
def simpleEscapes : List (UInt8 × UInt8) :=
  [(39, 39), (34, 34), (63, 63), (92, 92), (97, 7), (98, 8), (102, 12), (110, 10), (114, 13),
    (116, 9), (118, 11)]

/-- A code point that a universal character name may stand for: neither a character that has to be
written as it is or by another escape, nor a surrogate. -/
def isUniversal (c : Nat) : Bool :=
  (0xA0 ≤ c || c == 0x24 || c == 0x40 || c == 0x60) && (c < 0xD800 || 0xE000 ≤ c) && c < 0x110000

/-- The byte whose number the digits give, if it is one, in front of `rest`. -/
def numbered (base : Nat) (digits rest : Bytes) : Option (Bytes × Bytes) :=
  if digits ≠ [] ∧ value base digits < 256 then some ([(value base digits).toUInt8], rest) else none

/-- The code point whose number the next `width` digits give, in UTF-8. -/
def universal (width : Nat) (ts : Bytes) : Option (Bytes × Bytes) :=
  let digits := ts.take width
  if digits.length = width ∧ digits.all isHex ∧ isUniversal (value 16 digits) then
    some (Utf8.encode (value 16 digits), ts.drop width)
  else none

/-- What a backslash in front of `c :: ts` denotes, and what is left. A hexadecimal escape goes on for
as long as there are digits, an octal one for three at most. -/
def escape (c : UInt8) (ts : Bytes) : Option (Bytes × Bytes) :=
  if c = 120 then numbered 16 (ts.takeWhile isHex) (ts.dropWhile isHex)
  else if c = 117 then universal 4 ts
  else if c = 85 then universal 8 ts
  else if isOctal c then
    let digits := c :: (ts.take 2).takeWhile isOctal
    numbered 8 digits ((c :: ts).drop digits.length)
  else (simpleEscapes.lookup c).map fun b => ([b], ts)

/-- What the first character of `b :: ts`, or the escape there, denotes, and what is left. -/
def element (b : UInt8) (ts : Bytes) : Option (Bytes × Bytes) :=
  if b = Bytes.quote ∨ b = Bytes.newline then none
  else if b = 92 then
    match ts with
    | [] => none
    | c :: ts => escape c ts
  else some ([b], ts)

theorem numbered_rest {base : Nat} {digits rest : Bytes} {x : Bytes × Bytes}
    (h : numbered base digits rest = some x) : x.2 = rest := by
  unfold numbered at h
  split at h
  · cases h
    rfl
  · cases h

theorem universal_rest {width : Nat} {ts : Bytes} {x : Bytes × Bytes}
    (h : universal width ts = some x) : x.2 = ts.drop width := by
  unfold universal at h
  dsimp only at h
  split at h
  · cases h
    rfl
  · cases h

theorem escape_rest_le {c : UInt8} {ts : Bytes} {x : Bytes × Bytes} (h : escape c ts = some x) :
    x.2.length ≤ ts.length := by
  unfold escape at h
  split at h
  · rw [numbered_rest h]
    exact (List.dropWhile_sublist isHex).length_le
  split at h
  · rw [universal_rest h]
    exact (List.drop_sublist _ _).length_le
  split at h
  · rw [universal_rest h]
    exact (List.drop_sublist _ _).length_le
  split at h
  · rw [numbered_rest h, List.length_cons, List.drop_succ_cons]
    exact (List.drop_sublist _ _).length_le
  · obtain ⟨b, -, rfl⟩ := Option.map_eq_some_iff.1 h
    exact Nat.le_refl _

theorem element_rest_le {b : UInt8} {ts : Bytes} {x : Bytes × Bytes} (h : element b ts = some x) :
    x.2.length ≤ ts.length := by
  unfold element at h
  split at h
  · cases h
  split at h
  · split at h
    · cases h
    · exact Nat.le_succ_of_le (escape_rest_le h)
  · cases h
    exact Nat.le_refl _

/-- The bytes that the text between the quotation marks denotes. -/
def chars : Bytes → Option Bytes
  | [] => some []
  | b :: ts =>
    match h : element b ts with
    | none => none
    | some x =>
      have := element_rest_le h
      (chars x.2).map (x.1 ++ ·)
termination_by ts => ts.length
decreasing_by simp; omega

/-- The bytes that a string literal denotes, if it is one. -/
def read : Bytes → Option Bytes
  | [] => none
  | b :: ts => if b = Bytes.quote ∧ ts.getLast? = some Bytes.quote then chars ts.dropLast else none

theorem read_enclosed (body : Bytes) :
    read (Bytes.quote :: body ++ [Bytes.quote]) = chars body := by
  simp [read]

theorem chars_cons (b : UInt8) (ts : Bytes) :
    chars (b :: ts) = (element b ts).bind fun x => (chars x.2).map (x.1 ++ ·) := by
  rw [chars]
  split
  · rename_i h
    rw [h]
    rfl
  · rename_i x h
    simp only [h, Option.bind_some]

/-! ## Digits -/

theorem value_concat (base : Nat) (digits : Bytes) (d : UInt8) :
    value base (digits ++ [d]) = base * value base digits + (Bytes.hexValue? d).getD 0 := by
  simp [value]

theorem hexValue?_hexDigitLower : ∀ n < 16, Bytes.hexValue? (Bytes.hexDigitLower n) = some n := by
  decide

/-- The digits of a number that fits have its value. -/
theorem hexLowerFixed_spec (width n : Nat) (h : n < 16 ^ width) :
    (Bytes.hexLowerFixed width n).length = width ∧
      (∀ d ∈ Bytes.hexLowerFixed width n, isHex d = true) ∧
      value 16 (Bytes.hexLowerFixed width n) = n := by
  induction width generalizing n with
  | zero =>
      obtain rfl : n = 0 := by simpa using h
      exact ⟨rfl, List.forall_mem_nil _, rfl⟩
  | succ width ih =>
      obtain ⟨hlength, hdigits, hvalue⟩ := ih (n / 16) (by omega)
      have hlast := hexValue?_hexDigitLower (n % 16) (by omega)
      rw [Bytes.hexLowerFixed]
      refine ⟨by simp [hlength], List.forall_mem_append.2 ⟨hdigits, ?_⟩, ?_⟩
      · simp [isHex, hlast]
      · rw [value_concat, hvalue, hlast, Option.getD_some]
        omega

end CLiteral

/-! ## How runes are written -/

namespace Utf8.Rune

/-- Written with two hexadecimal digits, behind which C goes on to read digits: a stray byte, or a
control character that no letter stands for. -/
def isOpen : Rune → Bool
  | .stray _ => true
  | .point c _ => (c < 0x20 || c == 0x7F) && (Quoted.letter? c).isNone

/-- A hexadecimal digit. -/
def isHexDigit : Rune → Bool
  | .stray _ => false
  | .point c _ => c < 0x80 && CLiteral.isHex c.toUInt8

/-- A control character beyond ASCII. It is written as a universal character name, and C allows none
for it. -/
def isHighControl : Rune → Bool
  | .stray _ => false
  | .point c _ => 0x80 ≤ c && c < 0xA0

end Utf8.Rune

namespace CLiteral

open Utf8

/-- No digit follows what is written with hexadecimal digits, and there is no control character beyond
ASCII. -/
structure Readable (rs : List Rune) : Prop where
  apart : rs.IsChain fun r r' => r.isOpen = true → r'.isHexDigit = false
  controls : ∀ r ∈ rs, r.isHighControl = false

/-- A character that stands for itself between quotation marks. -/
def IsPlain (b : UInt8) : Prop := b ≠ Bytes.quote ∧ b ≠ Bytes.newline ∧ b ≠ 92

theorem chars_plain {text : Bytes} (h : ∀ b ∈ text, IsPlain b) (rest : Bytes) :
    chars (text ++ rest) = (chars rest).map (text ++ ·) := by
  induction text with
  | nil => simp
  | cons b text ih =>
      rw [List.forall_mem_cons] at h
      obtain ⟨hquote, hnewline, hbackslash⟩ := h.1
      have helement : element b (text ++ rest) = some ([b], text ++ rest) := by
        simp [element, hquote, hnewline, hbackslash]
      rw [List.cons_append, chars_cons, helement, Option.bind_some, ih h.2, Option.map_map]
      rfl

theorem chars_backslash (c : UInt8) (ts : Bytes) :
    chars (92 :: c :: ts) = (escape c ts).bind fun x => (chars x.2).map (x.1 ++ ·) :=
  chars_cons 92 (c :: ts)

theorem chars_simple {c b : UInt8} (h : (c, b) ∈ simpleEscapes) (rest : Bytes) :
    chars (92 :: c :: rest) = (chars rest).map ([b] ++ ·) := by
  have hall : ∀ p ∈ simpleEscapes, p.1 ≠ 120 ∧ p.1 ≠ 117 ∧ p.1 ≠ 85 ∧ isOctal p.1 = false ∧
      simpleEscapes.lookup p.1 = some p.2 := List.forall_iff_forall_mem.1 (by decide)
  obtain ⟨hx, hu, hU, hoctal, hlookup⟩ := hall (c, b) h
  simp only at hx hu hU hoctal hlookup
  have hescape : escape c rest = some ([b], rest) := by
    simp [escape, hx, hu, hU, hoctal, hlookup]
  rw [chars_backslash, hescape, Option.bind_some]

theorem chars_universal {width c : Nat} {u : UInt8} (hu : (u, width) ∈ [(117, 4), (85, 8)])
    (hc : c < 16 ^ width) (rest : Bytes) :
    chars (92 :: u :: (Bytes.hexLowerFixed width c ++ rest)) =
      if isUniversal c then (chars rest).map (encode c ++ ·) else none := by
  obtain ⟨hlength, hdigits, hvalue⟩ := hexLowerFixed_spec width c hc
  have htake : (Bytes.hexLowerFixed width c ++ rest).take width = Bytes.hexLowerFixed width c :=
    List.take_left' hlength
  have hdrop : (Bytes.hexLowerFixed width c ++ rest).drop width = rest := List.drop_left' hlength
  have hall : (Bytes.hexLowerFixed width c).all isHex = true := List.all_eq_true.2 hdigits
  have hescape : escape u (Bytes.hexLowerFixed width c ++ rest) =
      universal width (Bytes.hexLowerFixed width c ++ rest) := by
    simp only [List.mem_cons, List.not_mem_nil, or_false, Prod.mk.injEq] at hu
    rcases hu with ⟨rfl, rfl⟩ | ⟨rfl, rfl⟩ <;> simp [escape]
  rw [chars_backslash, hescape]
  simp only [universal, htake, hdrop, hvalue, hlength, hall, true_and]
  split <;> rfl

/-- How a rune is written between quotation marks. -/
inductive Written : Rune → Bytes → Prop where
  | plain {c : Nat} (hprint : Printable.isPrintable c = true) (hc : c < 0x110000) (hquote : c ≠ 34)
      (hbackslash : c ≠ 92) : Written (.point c (encode c)) (encode c)
  | simple {c : Nat} {l : UInt8} (hc : c < 0x80) (hl : (l, c.toUInt8) ∈ simpleEscapes)
      (hletter : c = 34 ∨ c = 92 ∨ (Quoted.letter? c).isSome) :
      Written (.point c [c.toUInt8]) [92, l]
  | control {c : Nat} (hc : c < 0x20 ∨ c = 0x7F) (hletter : Quoted.letter? c = none) :
      Written (.point c [c.toUInt8]) (92 :: 120 :: Bytes.hexLowerFixed 2 c)
  | stray (b : UInt8) : Written (.stray b) (92 :: 120 :: Bytes.hexLowerFixed 2 b.toNat)
  | universal {c width : Nat} {u : UInt8} (hu : (u, width) ∈ [(117, 4), (85, 8)])
      (hwidth : c < 16 ^ width) (hlow : 0x80 ≤ c) (hc : c < 0x110000)
      (hsurrogate : c < 0xD800 ∨ 0xE000 ≤ c) :
      Written (.point c (encode c)) (92 :: u :: Bytes.hexLowerFixed width c)

theorem letter?_spec {c : Nat} {l : UInt8} (h : Quoted.letter? c = some l) :
    c < 0x20 ∧ (l, c.toUInt8) ∈ simpleEscapes := by
  revert h
  fun_cases Quoted.letter? c
  all_goals rintro ⟨⟩
  all_goals
    subst c
    decide

theorem written_of_decoded {r : Rune} (hr : r.IsDecoded) : Written r (Quoted.escape r) := by
  cases hr with
  | stray b => exact .stray b
  | @point c text hc hsurrogate htext =>
      subst htext
      simp only [Quoted.escape]
      split
      · rename_i hmark
        have hlow : c < 0x80 := by omega
        rw [encode_of_lt hlow]
        refine .simple hlow ?_ (by omega)
        rcases hmark with rfl | rfl <;> decide
      rename_i hmark
      split
      · rename_i hprint
        exact .plain hprint hc (by omega) (by omega)
      rename_i hprint
      split
      · rename_i l hl
        obtain ⟨hlow, hmem⟩ := letter?_spec hl
        rw [encode_of_lt (by omega)]
        exact .simple (by omega) hmem (by simp [hl])
      rename_i hletter
      split
      · rename_i hcontrol
        rw [encode_of_lt (by omega)]
        exact .control hcontrol hletter
      rename_i hcontrol
      have hhigh : 0x80 ≤ c := by
        by_contra hlow
        rw [Printable.isPrintable, if_pos (by omega)] at hprint
        simp only [Bool.and_eq_true, decide_eq_true_eq] at hprint
        omega
      split
      · rename_i hshort
        exact .universal (by decide) (by omega) hhigh hc hsurrogate
      · exact .universal (by decide) (by omega) hhigh hc hsurrogate

theorem isHex_eq_false_of_le {b : UInt8} (h : 0x80 ≤ b.toNat) : isHex b = false := by
  simp only [isHex, Bytes.hexValue?]
  rw [if_neg (by omega), if_neg (by omega), if_neg (by omega)]
  rfl

/-- What is printable is no control character. -/
theorem not_control_of_printable {c : Nat} (h : Printable.isPrintable c = true) :
    0x20 ≤ c ∧ c ≠ 0x7F ∧ (c < 0x80 ∨ 0xA0 ≤ c) := by
  unfold Printable.isPrintable at h
  split at h
  · simp only [Bool.and_eq_true, decide_eq_true_eq] at h
    omega
  · have hfirst : Printable.ranges.all (fun p => 0xA0 ≤ p.1) = true := by decide +kernel
    obtain ⟨p, hp, hc⟩ := List.any_eq_true.1 h
    have := List.all_eq_true.1 hfirst p hp
    simp only [Bool.and_eq_true, decide_eq_true_eq] at hc this
    omega

theorem isPlain_of_printable {c : Nat} (hprint : Printable.isPrintable c = true) (hc : c < 0x110000)
    (hquote : c ≠ 34) (hbackslash : c ≠ 92) : ∀ b ∈ encode c, IsPlain b := by
  have hcontrol := not_control_of_printable hprint
  intro b hb
  suffices h : b.toNat ≠ 34 ∧ b.toNat ≠ 10 ∧ b.toNat ≠ 92 by
    simpa [IsPlain, ← UInt8.toNat_inj, Bytes.quote, Bytes.newline] using h
  by_cases hlow : c < 0x80
  · rw [encode_of_lt hlow, List.mem_singleton] at hb
    have hb : b.toNat = c := by
      rw [hb, Nat.toUInt8, UInt8.toNat_ofNat']
      omega
    omega
  · have := encode_of_le (by omega) hc b hb
    omega

section

variable {r : Rune} {t : Bytes}

/-- A universal character name stands for anything but a control character. -/
theorem isUniversal_eq {c : Nat} (hlow : 0x80 ≤ c) (hc : c < 0x110000)
    (hsurrogate : c < 0xD800 ∨ 0xE000 ≤ c) (text : Bytes) :
    isUniversal c = !(Rune.point c text).isHighControl := by
  simp only [isUniversal, Rune.isHighControl]
  grind

/-- What is not open is read as the bytes it stands for, whatever follows. -/
theorem Written.chars_append (h : Written r t) (hopen : r.isOpen = false) (rest : Bytes) :
    chars (t ++ rest) = if r.isHighControl then none else (chars rest).map (r.text ++ ·) := by
  cases h with
  | plain hprint hc hquote hbackslash =>
      have hcontrol := not_control_of_printable hprint
      rw [chars_plain (isPlain_of_printable hprint hc hquote hbackslash) rest, if_neg]
      · rfl
      · simp only [Rune.isHighControl, Bool.and_eq_true, decide_eq_true_eq]
        omega
  | simple hc hl =>
      rw [List.cons_append, List.cons_append, List.nil_append, chars_simple hl rest, if_neg]
      · rfl
      · simp only [Rune.isHighControl, Bool.and_eq_true, decide_eq_true_eq]
        omega
  | control hc hletter =>
      simp only [Rune.isOpen, hletter, Option.isNone_none, Bool.and_true, Bool.or_eq_false_iff,
        decide_eq_false_iff_not, beq_eq_false_iff_ne] at hopen
      omega
  | stray b => cases hopen
  | universal hu hwidth hlow hc hsurrogate =>
      rw [List.cons_append, List.cons_append, chars_universal hu hwidth rest,
        isUniversal_eq hlow hc hsurrogate (encode _)]
      cases Rune.isHighControl _ <;> simp [Rune.text]

/-- What is open is a byte in two digits. -/
theorem Written.eq_of_isOpen (h : Written r t) (hopen : r.isOpen = true) :
    ∃ b : UInt8, r.text = [b] ∧ t = 92 :: 120 :: Bytes.hexLowerFixed 2 b.toNat := by
  have hspec : ∀ c text, (Rune.point c text).isOpen = true →
      (c < 0x20 ∨ c = 0x7F) ∧ Quoted.letter? c = none := by
    simp [Rune.isOpen]
  cases h with
  | plain hprint =>
      have hcontrol := not_control_of_printable hprint
      have := (hspec _ _ hopen).1
      omega
  | simple _ _ hletter =>
      obtain ⟨hcontrol, hnone⟩ := hspec _ _ hopen
      rw [hnone] at hletter
      simp only [Option.isSome_none, Bool.false_eq_true, or_false] at hletter
      omega
  | @control c hc hletter =>
      refine ⟨c.toUInt8, rfl, ?_⟩
      rw [Nat.toUInt8, UInt8.toNat_ofNat', Nat.mod_eq_of_lt (by omega)]
  | stray b => exact ⟨b, rfl, rfl⟩
  | universal _ _ hlow =>
      have := (hspec _ _ hopen).1
      omega

theorem isHighControl_of_isOpen (hopen : r.isOpen = true) : r.isHighControl = false := by
  cases r with
  | stray b => rfl
  | point c text =>
      simp only [Rune.isOpen, Rune.isHighControl] at hopen ⊢
      grind

theorem isHexDigit_iff {c : Nat} {text : Bytes} :
    (Rune.point c text).isHexDigit = true ↔ c < 0x80 ∧ isHex c.toUInt8 = true := by
  simp [Rune.isHexDigit]

/-- A digit is written as it is. -/
theorem Written.eq_of_isHexDigit (h : Written r t) (hdigit : r.isHexDigit = true) :
    ∃ b, r.text = [b] ∧ t = [b] ∧ isHex b = true := by
  cases h with
  | @plain c =>
      obtain ⟨hlow, hhex⟩ := isHexDigit_iff.1 hdigit
      exact ⟨c.toUInt8, encode_of_lt hlow, encode_of_lt hlow, hhex⟩
  | simple _ hl =>
      have hall : ∀ p ∈ simpleEscapes, isHex p.2 = false :=
        List.forall_iff_forall_mem.1 (by decide)
      exact absurd (isHexDigit_iff.1 hdigit).2 (by simp [hall _ hl])
  | @control c hc =>
      have hall : ∀ c < 0x80, c < 0x20 ∨ c = 0x7F → isHex c.toUInt8 = false := by decide
      exact absurd (isHexDigit_iff.1 hdigit).2 (by simp [hall c (by omega) hc])
  | stray => cases hdigit
  | universal _ _ hlow => exact absurd (isHexDigit_iff.1 hdigit).1 (by omega)

/-- What is no digit does not start with one. -/
theorem Written.head_of_not_isHexDigit (h : Written r t) (hdigit : r.isHexDigit = false) :
    ∃ b ts, t = b :: ts ∧ isHex b = false := by
  cases h with
  | @plain c _ hc =>
      obtain ⟨b, ts, heq⟩ := List.exists_cons_of_ne_nil (encode_ne_nil c)
      refine ⟨b, ts, heq, ?_⟩
      by_cases hlow : c < 0x80
      · rw [encode_of_lt hlow] at heq
        cases heq
        simpa [Rune.isHexDigit, hlow] using hdigit
      · refine isHex_eq_false_of_le (encode_of_le (by omega) hc b ?_)
        rw [heq]
        exact List.mem_cons_self
  | simple | control | stray | universal => exact ⟨92, _, rfl, by decide⟩

end

/-! ## Reading what is written -/

section

variable {rs : List Rune}

/-- The digits that a text starts with are runes of their own. -/
theorem digits_of_written (hrs : ∀ r ∈ rs, r.IsDecoded) :
    (rs.flatMap Quoted.escape).takeWhile isHex =
        (rs.takeWhile Rune.isHexDigit).flatMap Rune.text ∧
      (rs.flatMap Quoted.escape).dropWhile isHex =
        (rs.dropWhile Rune.isHexDigit).flatMap Quoted.escape ∧
      ((rs.takeWhile Rune.isHexDigit).flatMap Rune.text).length =
        (rs.takeWhile Rune.isHexDigit).length := by
  induction rs with
  | nil => exact ⟨rfl, rfl, rfl⟩
  | cons r rs ih =>
      rw [List.forall_mem_cons] at hrs
      have hwritten := written_of_decoded hrs.1
      cases hdigit : r.isHexDigit with
      | true =>
          obtain ⟨b, htext, heq, hb⟩ := hwritten.eq_of_isHexDigit hdigit
          obtain ⟨htake, hdrop, hlength⟩ := ih hrs.2
          refine ⟨?_, ?_, ?_⟩
          · simp [htext, heq, hb, hdigit, htake]
          · simp [heq, hb, hdigit, hdrop]
          · simp only [hdigit, List.takeWhile_cons_of_pos, List.flatMap_cons, htext,
              List.length_append, hlength, List.length_cons, List.length_nil]
            omega
      | false =>
          obtain ⟨b, ts, heq, hb⟩ := hwritten.head_of_not_isHexDigit hdigit
          simp [heq, hb, hdigit]

/-- A byte in two digits, and more digits behind it if there are any. -/
theorem chars_hex (b : UInt8) (hrs : ∀ r ∈ rs, r.IsDecoded) :
    chars (92 :: 120 :: (Bytes.hexLowerFixed 2 b.toNat ++ rs.flatMap Quoted.escape)) =
      (numbered 16 (Bytes.hexLowerFixed 2 b.toNat ++ (rs.flatMap Quoted.escape).takeWhile isHex)
        ((rs.dropWhile Rune.isHexDigit).flatMap Quoted.escape)).bind
          fun x => (chars x.2).map (x.1 ++ ·) := by
  obtain ⟨-, hdigits, -⟩ := hexLowerFixed_spec 2 b.toNat (UInt8.toNat_lt b)
  rw [chars_backslash, escape, if_pos rfl, List.takeWhile_append_of_pos hdigits,
    List.dropWhile_append_of_pos hdigits, (digits_of_written hrs).2.1]

theorem readable_cons {r : Rune} :
    Readable (r :: rs) ↔ (r.isOpen = true → rs.takeWhile Rune.isHexDigit = []) ∧
      r.isHighControl = false ∧ Readable rs := by
  have hhead : (∀ r' ∈ rs.head?, r.isOpen = true → r'.isHexDigit = false) ↔
      (r.isOpen = true → rs.takeWhile Rune.isHexDigit = []) := by
    cases rs with
    | nil => simp
    | cons r' rs =>
        cases hdigit : r'.isHexDigit with
        | true => simp [hdigit]
        | false => simp [hdigit]
  constructor
  · rintro ⟨hapart, hcontrols⟩
    rw [List.isChain_cons, hhead] at hapart
    rw [List.forall_mem_cons] at hcontrols
    exact ⟨hapart.1, hcontrols.1, hapart.2, hcontrols.2⟩
  · rintro ⟨hopen, hcontrol, hrs⟩
    exact ⟨List.isChain_cons.2 ⟨hhead.2 hopen, hrs.apart⟩,
      List.forall_mem_cons.2 ⟨hcontrol, hrs.controls⟩⟩

theorem dropWhile_of_takeWhile_eq_nil {α : Type} {p : α → Bool} {l : List α}
    (h : l.takeWhile p = []) : l.dropWhile p = l := by
  have := List.takeWhile_append_dropWhile (p := p) (l := l)
  rwa [h] at this

/-- **What is readable is read as the bytes it stands for.** -/
theorem chars_of_readable (hrs : ∀ r ∈ rs, r.IsDecoded) (h : Readable rs) :
    chars (rs.flatMap Quoted.escape) = some (rs.flatMap Rune.text) := by
  induction rs with
  | nil =>
      rw [List.flatMap_nil, chars]
      rfl
  | cons r rs ih =>
      rw [List.forall_mem_cons] at hrs
      obtain ⟨hstop, hcontrol, htail⟩ := readable_cons.1 h
      have hwritten := written_of_decoded hrs.1
      have hrest := ih hrs.2 htail
      rw [List.flatMap_cons, List.flatMap_cons]
      cases hopen : r.isOpen with
      | false =>
          rw [hwritten.chars_append hopen, hcontrol, hrest]
          rfl
      | true =>
          obtain ⟨b, htext, heq⟩ := hwritten.eq_of_isOpen hopen
          obtain ⟨hlength, -, hvalue⟩ := hexLowerFixed_spec 2 b.toNat (UInt8.toNat_lt b)
          have hnone : (rs.flatMap Quoted.escape).takeWhile isHex = [] := by
            rw [(digits_of_written hrs.2).1, hstop hopen, List.flatMap_nil]
          have hne : Bytes.hexLowerFixed 2 b.toNat ≠ [] := by
            simp [Bytes.hexLowerFixed]
          rw [heq, List.cons_append, List.cons_append, chars_hex b hrs.2, hnone,
            dropWhile_of_takeWhile_eq_nil (hstop hopen), List.append_nil, numbered, hvalue,
            if_pos ⟨hne, UInt8.toNat_lt b⟩, Option.bind_some, hrest, htext,
            toUInt8_eq_of_toNat rfl]
          rfl

/-- **What is read as so many bytes is readable**: a digit that is taken for a part of an escape is
missing among them. -/
theorem readable_of_chars {rs : List Rune} (hrs : ∀ r ∈ rs, r.IsDecoded) {bs : Bytes}
    (h : chars (rs.flatMap Quoted.escape) = some bs) :
    bs.length ≤ (rs.flatMap Rune.text).length ∧
      (bs.length = (rs.flatMap Rune.text).length → Readable rs) := by
  match rs with
  | [] =>
      rw [List.flatMap_nil, chars] at h
      cases h
      exact ⟨Nat.le_refl _, fun _ => ⟨.nil, List.forall_mem_nil _⟩⟩
  | r :: rs =>
      rw [List.forall_mem_cons] at hrs
      have hwritten := written_of_decoded hrs.1
      rw [List.flatMap_cons] at h
      rw [List.flatMap_cons, List.length_append, readable_cons]
      cases hopen : r.isOpen with
      | false =>
          rw [hwritten.chars_append hopen] at h
          cases hcontrol : r.isHighControl with
          | true =>
              rw [hcontrol] at h
              cases h
          | false =>
              rw [hcontrol] at h
              obtain ⟨bs', hbs', rfl⟩ := Option.map_eq_some_iff.1 h
              obtain ⟨hle, hreadable⟩ := readable_of_chars hrs.2 hbs'
              rw [List.length_append]
              exact ⟨by omega, fun heq => ⟨by simp, rfl, hreadable (by omega)⟩⟩
      | true =>
          obtain ⟨b, htext, heq⟩ := hwritten.eq_of_isOpen hopen
          rw [heq, List.cons_append, List.cons_append, chars_hex b hrs.2, numbered] at h
          split at h
          · obtain ⟨bs', hbs', rfl⟩ := Option.map_eq_some_iff.1 h
            have hdecoded : ∀ r' ∈ rs.dropWhile Rune.isHexDigit, r'.IsDecoded :=
              fun r' hr' => hrs.2 r' ((List.dropWhile_sublist _).mem hr')
            obtain ⟨hle, hreadable⟩ := readable_of_chars hdecoded hbs'
            have hdigits := (digits_of_written hrs.2).2.2
            have hsplit : (rs.flatMap Rune.text).length =
                ((rs.takeWhile Rune.isHexDigit).flatMap Rune.text).length +
                  ((rs.dropWhile Rune.isHexDigit).flatMap Rune.text).length := by
              rw [← List.length_append, ← List.flatMap_append, List.takeWhile_append_dropWhile]
            simp only [htext, List.length_append, List.length_cons, List.length_nil]
            refine ⟨by omega, fun heq => ?_⟩
            have hnone : rs.takeWhile Rune.isHexDigit = [] := List.length_eq_zero_iff.1 (by omega)
            refine ⟨fun _ => hnone, isHighControl_of_isOpen hopen, ?_⟩
            rw [← dropWhile_of_takeWhile_eq_nil hnone]
            exact hreadable (by omega)
          · cases h
termination_by rs.length
decreasing_by
  · simp
  · have := (List.dropWhile_sublist Rune.isHexDigit (l := rs)).length_le
    simp
    omega

end

end CLiteral

namespace CSource

open CLiteral Utf8

/-- **Which string literals C reads as the bytes they are written for**: those without a control
character beyond ASCII in which no hexadecimal digit follows a stray byte or a control character that
has no letter. -/
theorem expression_string_read_iff (t : Token) (v : Bytes) :
    ∃ text, expression (.string t v) = .ok text ∧ (read text = some v ↔ Readable (runes v)) := by
  refine ⟨Quoted.quote v, by rw [expression], ?_⟩
  rw [Quoted.quote, read_enclosed]
  have hdecoded := runes_decoded v
  constructor
  · intro h
    refine (readable_of_chars hdecoded h).2 ?_
    rw [runes_flatten]
  · intro h
    rw [chars_of_readable hdecoded h, runes_flatten]

/-- A program that prints a control character and a letter. -/
def controlSource : Bytes := utf8 "func main() \x7b print(\"\x01a\") \x7d"

def controlName : Token := ⟨.identifier, utf8 "main", ⟨1, 6⟩⟩

def controlPrint : Token := ⟨.keyword .printing, utf8 "print", ⟨1, 15⟩⟩

def controlString : Token := ⟨.string, [1, 97], ⟨1, 21⟩⟩

def controlTokens : List Token :=
  [⟨.keyword .func, utf8 "func", ⟨1, 1⟩⟩, controlName, ⟨.punct .leftParen, utf8 "(", ⟨1, 10⟩⟩,
    ⟨.punct .rightParen, utf8 ")", ⟨1, 11⟩⟩, ⟨.punct .leftBrace, utf8 "\x7b", ⟨1, 13⟩⟩, controlPrint,
    ⟨.punct .leftParen, utf8 "(", ⟨1, 20⟩⟩, controlString, ⟨.punct .rightParen, utf8 ")", ⟨1, 25⟩⟩,
    ⟨.punct .rightBrace, utf8 "\x7d", ⟨1, 27⟩⟩, Token.endAt ⟨1, 28⟩]

def controlProgram : List Node :=
  [.func ⟨controlName, [], some .void⟩ [.print controlPrint [.string controlString [1, 97]]]]

/-- The program is accepted, and the two characters of its string are one to C. -/
theorem literal_misread :
    Lexing.lex controlSource = .ok controlTokens ∧
      Parsing.parse controlTokens = .ok controlProgram ∧
      Typing.analyze defaultEntry controlProgram = .ok controlProgram ∧
      expression (.string controlString [1, 97]) = .ok (utf8 "\"\\x01a\"") ∧
      read (utf8 "\"\\x01a\"") = some [26] :=
  ⟨by decide +kernel, by rfl, by rfl, by decide +kernel, by decide +kernel⟩

/-- A control character beyond ASCII makes no literal at all. -/
example : read (Quoted.quote [0xC2, 0x85]) = none := by decide +kernel

end CSource

end Swiftlet
