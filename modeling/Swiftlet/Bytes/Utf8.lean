import Swiftlet.Bytes

/-!
# Code points in byte strings

`Utf8.runes` cuts a byte string into code points and stray bytes: a byte that starts no
well-formed sequence stands alone. `runes_flatten` says that nothing is lost.
-/

namespace Swiftlet

namespace Utf8

/-- A code point with the bytes that encode it, or a byte that encodes none. -/
inductive Rune where
  | point (code : Nat) (text : Bytes)
  | stray (b : UInt8)
  deriving DecidableEq, Repr

def Rune.text : Rune → Bytes
  | point _ text => text
  | stray b => [b]

/-- Whether `b` lies between `low` and `high`. -/
def within (low high : UInt8) (b : UInt8) : Bool := low ≤ b && b ≤ high

/-- A continuation byte. -/
def isTail (b : UInt8) : Bool := within 0x80 0xBF b

/-- A continuation byte that may follow the leading byte `b`: overlong forms, surrogates and what
lies beyond the last code point are cut off here. -/
def mayFollow (b c : UInt8) : Bool :=
  within (if b = 0xE0 then 0xA0 else if b = 0xF0 then 0x90 else 0x80)
    (if b = 0xED then 0x9F else if b = 0xF4 then 0x8F else 0xBF) c

/-- The low six bits of a continuation byte. -/
def tail (b : UInt8) : Nat := b.toNat % 64

/-- The rune at the head of `b :: bs` and what follows it. -/
def first (b : UInt8) (bs : Bytes) : Rune × Bytes :=
  if b < 0x80 then (.point b.toNat [b], bs)
  else if within 0xC2 0xDF b then
    match bs with
    | c :: rest =>
      if isTail c then (.point (b.toNat % 32 * 64 + tail c) [b, c], rest) else (.stray b, c :: rest)
    | [] => (.stray b, [])
  else if within 0xE0 0xEF b then
    match bs with
    | c :: d :: rest =>
      if mayFollow b c && isTail d then
        (.point (b.toNat % 16 * 4096 + tail c * 64 + tail d) [b, c, d], rest)
      else (.stray b, c :: d :: rest)
    | rest => (.stray b, rest)
  else if within 0xF0 0xF4 b then
    match bs with
    | c :: d :: e :: rest =>
      if mayFollow b c && isTail d && isTail e then
        (.point (b.toNat % 8 * 262144 + tail c * 4096 + tail d * 64 + tail e) [b, c, d, e], rest)
      else (.stray b, c :: d :: e :: rest)
    | rest => (.stray b, rest)
  else (.stray b, bs)

/-- The first rune and what follows it make up the input. -/
theorem first_append (b : UInt8) (bs : Bytes) :
    (first b bs).1.text ++ (first b bs).2 = b :: bs := by
  unfold first
  repeat' split
  all_goals simp [Rune.text]

theorem first_rest_le (b : UInt8) (bs : Bytes) : (first b bs).2.length ≤ bs.length := by
  have h := congrArg List.length (first_append b bs)
  have : 0 < (first b bs).1.text.length := by
    unfold first
    repeat' split
    all_goals simp [Rune.text]
  simp only [List.length_append, List.length_cons] at h
  omega

/-- The code points and stray bytes of a byte string. -/
def runes : Bytes → List Rune
  | [] => []
  | b :: bs =>
    have := first_rest_le b bs
    (first b bs).1 :: runes (first b bs).2
termination_by bs => bs.length
decreasing_by simp; omega

/-- Nothing is lost. -/
theorem runes_flatten (bs : Bytes) : (runes bs).flatMap Rune.text = bs := by
  fun_induction runes bs with
  | case1 => rfl
  | case2 b bs _ ih => rw [List.flatMap_cons, ih, first_append]

/-- The encoding of a code point; what is no code point becomes the replacement character. -/
def encode (c : Nat) : Bytes :=
  if c < 0x80 then [c.toUInt8]
  else if c < 0x800 then [(0xC0 + c / 64).toUInt8, (0x80 + c % 64).toUInt8]
  else if (0xD800 ≤ c ∧ c < 0xE000) ∨ 0x110000 ≤ c then [0xEF, 0xBF, 0xBD]
  else if c < 0x10000 then
    [(0xE0 + c / 4096).toUInt8, (0x80 + c / 64 % 64).toUInt8, (0x80 + c % 64).toUInt8]
  else
    [(0xF0 + c / 262144).toUInt8, (0x80 + c / 4096 % 64).toUInt8, (0x80 + c / 64 % 64).toUInt8,
      (0x80 + c % 64).toUInt8]

/-- Whether every byte belongs to a code point. -/
def isValid (bs : Bytes) : Bool :=
  (runes bs).all fun
    | .point .. => true
    | .stray _ => false

end Utf8

end Swiftlet
