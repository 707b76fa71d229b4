import Mathlib.Tactic.SplitIfs
import Swiftlet.Bytes.Utf8

/-!
# The runes of a byte string

`Utf8.runes` reads code points off a byte string. The bytes of each are the encoding of that code point,
and the only one: overlong forms, surrogates and numbers beyond the last code point are left as stray
bytes.

Principal result: `runes_decoded`.
-/

namespace Swiftlet

namespace Utf8

/-- A code point with its encoding, or a stray byte. -/
inductive Rune.IsDecoded : Rune → Prop where
  | point {c : Nat} {text : Bytes} (hc : c < 0x110000) (hsurrogate : c < 0xD800 ∨ 0xE000 ≤ c)
      (htext : encode c = text) : IsDecoded (.point c text)
  | stray (b : UInt8) : IsDecoded (.stray b)

theorem within_iff {low high b : UInt8} :
    within low high b = true ↔ low.toNat ≤ b.toNat ∧ b.toNat ≤ high.toNat := by
  simp [within, UInt8.le_iff_toNat_le]

theorem isTail_iff {b : UInt8} : isTail b = true ↔ 0x80 ≤ b.toNat ∧ b.toNat ≤ 0xBF := within_iff

theorem mayFollow_bounds {b c : UInt8} (h : mayFollow b c = true) :
    (0x80 ≤ c.toNat ∧ c.toNat ≤ 0xBF) ∧ (b.toNat = 0xE0 → 0xA0 ≤ c.toNat) ∧
      (b.toNat = 0xF0 → 0x90 ≤ c.toNat) ∧ (b.toNat = 0xED → c.toNat ≤ 0x9F) ∧
      (b.toNat = 0xF4 → c.toNat ≤ 0x8F) := by
  rw [mayFollow, within_iff] at h
  simp only [← UInt8.toNat_inj, UInt8.reduceToNat] at h
  split_ifs at h
  all_goals
    simp only [UInt8.reduceToNat] at h
    omega

theorem toUInt8_eq_of_toNat {n : Nat} {b : UInt8} (h : n = b.toNat) : n.toUInt8 = b := by
  subst h
  simp

section

variable {b c d e : UInt8}

theorem isDecoded_one (hb : b < 0x80) : Rune.IsDecoded (.point b.toNat [b]) := by
  have hb : b.toNat < 128 := UInt8.lt_iff_toNat_lt.1 hb
  refine .point (by omega) (by omega) ?_
  rw [encode, if_pos hb, toUInt8_eq_of_toNat rfl]

theorem isDecoded_two (hb : within 0xC2 0xDF b = true) (hc : isTail c = true) :
    Rune.IsDecoded (.point (b.toNat % 32 * 64 + tail c) [b, c]) := by
  have hb := within_iff.1 hb
  have hc := isTail_iff.1 hc
  simp only [UInt8.reduceToNat] at hb
  unfold tail
  refine .point (by omega) (by omega) ?_
  rw [encode, if_neg (by omega), if_pos (by omega), toUInt8_eq_of_toNat (b := b) (by omega),
    toUInt8_eq_of_toNat (b := c) (by omega)]

theorem isDecoded_three (hb : within 0xE0 0xEF b = true) (hc : mayFollow b c = true)
    (hd : isTail d = true) :
    Rune.IsDecoded (.point (b.toNat % 16 * 4096 + tail c * 64 + tail d) [b, c, d]) := by
  have hb := within_iff.1 hb
  have hc := mayFollow_bounds hc
  have hd := isTail_iff.1 hd
  simp only [UInt8.reduceToNat] at hb
  unfold tail
  refine .point (by omega) (by omega) ?_
  rw [encode, if_neg (by omega), if_neg (by omega), if_neg (by omega), if_pos (by omega),
    toUInt8_eq_of_toNat (b := b) (by omega), toUInt8_eq_of_toNat (b := c) (by omega),
    toUInt8_eq_of_toNat (b := d) (by omega)]

theorem isDecoded_four (hb : within 0xF0 0xF4 b = true) (hc : mayFollow b c = true)
    (hd : isTail d = true) (he : isTail e = true) :
    Rune.IsDecoded
      (.point (b.toNat % 8 * 262144 + tail c * 4096 + tail d * 64 + tail e) [b, c, d, e]) := by
  have hb := within_iff.1 hb
  have hc := mayFollow_bounds hc
  have hd := isTail_iff.1 hd
  have he := isTail_iff.1 he
  simp only [UInt8.reduceToNat] at hb
  unfold tail
  refine .point (by omega) (by omega) ?_
  rw [encode, if_neg (by omega), if_neg (by omega), if_neg (by omega), if_neg (by omega),
    toUInt8_eq_of_toNat (b := b) (by omega), toUInt8_eq_of_toNat (b := c) (by omega),
    toUInt8_eq_of_toNat (b := d) (by omega), toUInt8_eq_of_toNat (b := e) (by omega)]

end

theorem first_decoded (b : UInt8) (bs : Bytes) : (first b bs).1.IsDecoded := by
  unfold first
  split
  · rename_i hb
    exact isDecoded_one hb
  split
  · rename_i hb
    split
    · split
      · rename_i hc
        exact isDecoded_two hb hc
      · exact .stray b
    · exact .stray b
  split
  · rename_i hb
    split
    · split
      · rename_i h
        rw [Bool.and_eq_true] at h
        exact isDecoded_three hb h.1 h.2
      · exact .stray b
    · exact .stray b
  split
  · rename_i hb
    split
    · split
      · rename_i h
        rw [Bool.and_eq_true, Bool.and_eq_true] at h
        exact isDecoded_four hb h.1.1 h.1.2 h.2
      · exact .stray b
    · exact .stray b
  · exact .stray b

/-- **The bytes of every code point are its encoding.** -/
theorem runes_decoded (bs : Bytes) : ∀ r ∈ runes bs, r.IsDecoded := by
  fun_induction runes bs with
  | case1 => exact List.forall_mem_nil _
  | case2 b bs _ ih => exact List.forall_mem_cons.2 ⟨first_decoded b bs, ih⟩

/-! ## Encodings -/

theorem encode_of_lt {c : Nat} (h : c < 0x80) : encode c = [c.toUInt8] := by
  rw [encode, if_pos h]

theorem encode_of_le {c : Nat} (h : 0x80 ≤ c) (hc : c < 0x110000) :
    ∀ b ∈ encode c, 0x80 ≤ b.toNat := by
  unfold encode
  rw [if_neg (by omega)]
  split_ifs
  all_goals
    simp only [List.mem_cons, List.not_mem_nil, or_false, forall_eq_or_imp, forall_eq, Nat.toUInt8,
      UInt8.toNat_ofNat', UInt8.reduceToNat]
    omega

theorem encode_ne_nil (c : Nat) : encode c ≠ [] := by
  unfold encode
  split_ifs <;> simp

end Utf8

end Swiftlet
