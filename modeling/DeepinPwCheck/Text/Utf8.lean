import DeepinPwCheck.Text.Bytes
import Mathlib.Data.Nat.Bitwise

/-!
# UTF-8 and the high bit

The bytes of a text in UTF-8. A character of ASCII is one byte without the high bit, and
every other character is two to four bytes that all have it.
-/

namespace CText

/-- The bytes of a text in UTF-8. -/
def utf8 (text : List Char) : Bytes := text.flatMap String.utf8EncodeChar

@[simp] theorem utf8_nil : utf8 [] = [] := rfl

@[simp] theorem utf8_cons (c : Char) (text : List Char) :
    utf8 (c :: text) = String.utf8EncodeChar c ++ utf8 text := rfl

/-- A byte has the high bit if it is 128 or more. C code tests the bit, and the encoding is
described by numbers. -/
theorem and_high_ne_zero_iff (b : Byte) : b &&& 0x80 ≠ 0 ↔ 128 ≤ b.toNat := by
  have hlt := b.toNat_lt
  have hbit : (b &&& 0x80).toNat = (b.toNat.testBit 7).toNat * 2 ^ 7 := Nat.and_two_pow _ 7
  rw [Nat.testBit_eq_decide_div_mod_eq] at hbit
  rw [ne_eq, ← UInt8.toNat_inj, hbit]
  by_cases hle : 128 ≤ b.toNat
  · have hseven : b.toNat / 2 ^ 7 % 2 = 1 := by omega
    rw [hseven]
    simp [hle]
  · have hseven : b.toNat / 2 ^ 7 % 2 = 0 := by omega
    rw [hseven]
    simp [hle]

/-- A sum of 128 and less than 128 is a byte with the high bit. The bytes of a long encoding are
such sums. -/
theorem and_high_ofNat {n : ℕ} (hlow : 128 ≤ n) (hhigh : n < 256) :
    UInt8.ofNat n &&& 0x80 ≠ 0 := by
  rw [and_high_ne_zero_iff, UInt8.toNat_ofNat', Nat.mod_eq_of_lt hhigh]
  exact hlow

/-- A character of ASCII is one byte, without the high bit. Text of such characters passes every
test for high bits. -/
theorem utf8EncodeChar_of_lt {c : Char} (hc : c.toNat < 128) :
    ∃ b, String.utf8EncodeChar c = [b] ∧ b &&& 0x80 = 0 := by
  refine ⟨UInt8.ofNat c.toNat, ?_, ?_⟩
  · unfold String.utf8EncodeChar
    exact if_pos (Nat.le_of_lt_succ hc)
  · by_contra hhigh
    rw [← ne_eq, and_high_ne_zero_iff, UInt8.toNat_ofNat', Nat.mod_eq_of_lt (by omega)] at hhigh
    omega

/-- Every other character begins with two bytes that have the high bit. One such character is
enough for a test of two neighbours. -/
theorem utf8EncodeChar_of_le {c : Char} (hc : 128 ≤ c.toNat) :
    ∃ b d rest, String.utf8EncodeChar c = b :: d :: rest ∧ b &&& 0x80 ≠ 0 ∧ d &&& 0x80 ≠ 0 := by
  have hascii : ¬c.val.toNat ≤ 0x7f := by
    rw [not_le]
    exact hc
  unfold String.utf8EncodeChar
  dsimp only
  rw [if_neg hascii]
  split_ifs with htwo hthree
  · exact ⟨_, _, _, rfl, and_high_ofNat (by omega) (by omega), and_high_ofNat (by omega) (by omega)⟩
  · exact ⟨_, _, _, rfl, and_high_ofNat (by omega) (by omega), and_high_ofNat (by omega) (by omega)⟩
  · exact ⟨_, _, _, rfl, and_high_ofNat (by omega) (by omega), and_high_ofNat (by omega) (by omega)⟩

end CText
