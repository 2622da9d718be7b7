import DeepinPwCheck.Text.Bytes
import Mathlib.Tactic.NormNum

/-!
# Lengths of type `int`

`int length = strlen(s)` keeps the low 32 bits of the length, with a sign. A loop that compares
its index with such a length sees a string of less than `2 ^ 31` bytes whole. Of a longer one it
sees a front part, or nothing when the number is negative.
-/

namespace CText

/-- `int length = strlen(s)`. -/
def intLength (s : Bytes) : ℤ := (s.length : ℤ).bmod (2 ^ 32)

/-- The bytes that `for (int i = 0; i < length; i++)` reads. -/
def seen (s : Bytes) : Bytes := s.take (intLength s).toNat

/-- The bytes that `for (int i = 0; i < length - 1; i++)` reads as `s[i]` and `s[i + 1]`. The
difference is an `int` too. -/
def seenPairs (s : Bytes) : Bytes := s.take ((intLength s - 1).bmod (2 ^ 32) + 1).toNat

/-- The length of a string that is not too long for an `int`. -/
theorem intLength_of_lt {s : Bytes} (h : s.length < 2 ^ 31) : intLength s = s.length := by
  unfold intLength
  exact Int.bmod_eq_of_le (by omega) (by omega)

/-- The length of a string with one bit too many is negative. A loop that counts up to it does not
run. -/
theorem intLength_of_le {s : Bytes} (hlow : 2 ^ 31 ≤ s.length) (hhigh : s.length < 2 ^ 32) :
    intLength s = s.length - 2 ^ 32 := by
  unfold intLength
  rw [Int.bmod_def, Int.emod_eq_of_lt (by omega) (by omega), if_neg (by omega)]
  norm_num

/-- An `int` is at least `-2 ^ 31` and less than `2 ^ 31`. -/
theorem intLength_bounds (s : Bytes) : -2 ^ 31 ≤ intLength s ∧ intLength s < 2 ^ 31 := by
  have hlow := Int.le_bmod (x := (s.length : ℤ)) (by decide : 0 < 2 ^ 32)
  have hhigh := Int.bmod_lt (x := (s.length : ℤ)) (by decide : 0 < 2 ^ 32)
  unfold intLength
  omega

/-- The `int` is the length up to a multiple of `2 ^ 32`. From `2 ^ 32` bytes on the `int` is
positive again, and only a part of the string is seen. -/
theorem exists_intLength_eq (s : Bytes) : ∃ k : ℕ, (s.length : ℤ) = intLength s + 2 ^ 32 * k := by
  have hsame : intLength s % 2 ^ 32 = s.length % 2 ^ 32 := Int.bmod_emod
  have hbounds := intLength_bounds s
  refine ⟨((s.length - intLength s) / 2 ^ 32).toNat, ?_⟩
  omega

/-- The `int` is at most the length. No loop reads behind the end of the string. -/
theorem intLength_le (s : Bytes) : intLength s ≤ s.length := by
  obtain ⟨k, hk⟩ := exists_intLength_eq s
  omega

/-- Strings of one length have one `int`. -/
theorem intLength_congr {s t : Bytes} (h : s.length = t.length) : intLength s = intLength t := by
  unfold intLength
  rw [h]

@[simp] theorem length_seen (s : Bytes) : (seen s).length = (intLength s).toNat := by
  have hle := intLength_le s
  unfold seen
  rw [List.length_take]
  omega

theorem seen_initial (s : Bytes) : seen s <+: s := List.take_prefix _ _

theorem seenPairs_initial (s : Bytes) : seenPairs s <+: s := List.take_prefix _ _

/-- A string that is not too long is seen whole. The rules for strings of ordinary length are
stated about the whole string because of it. -/
theorem seen_of_lt {s : Bytes} (h : s.length < 2 ^ 31) : seen s = s := by
  unfold seen
  rw [intLength_of_lt h]
  exact List.take_length

/-- A string that is not too long is seen whole by a loop over its neighbours. -/
theorem seenPairs_of_lt {s : Bytes} (h : s.length < 2 ^ 31) : seenPairs s = s := by
  have hdifference : ((s.length : ℤ) - 1).bmod (2 ^ 32) = s.length - 1 :=
    Int.bmod_eq_of_le (by omega) (by omega)
  unfold seenPairs
  rw [intLength_of_lt h, hdifference, sub_add_cancel]
  exact List.take_length

/-- Nothing is seen of a string whose length has one bit too many. -/
theorem seen_of_le {s : Bytes} (hlow : 2 ^ 31 ≤ s.length) (hhigh : s.length < 2 ^ 32) :
    seen s = [] := by
  unfold seen
  rw [intLength_of_le hlow hhigh, Int.toNat_of_nonpos (by omega), List.take_zero]

/-- Nothing is compared in a string whose length has one bit too many, and more than that bit. -/
theorem seenPairs_of_lt_of_lt {s : Bytes} (hlow : 2 ^ 31 < s.length) (hhigh : s.length < 2 ^ 32) :
    seenPairs s = [] := by
  have hdifference : ((s.length : ℤ) - 2 ^ 32 - 1).bmod (2 ^ 32) = (s.length : ℤ) - 2 ^ 32 - 1 :=
    Int.bmod_eq_of_le (by omega) (by omega)
  unfold seenPairs
  rw [intLength_of_le hlow.le hhigh, hdifference, Int.toNat_of_nonpos (by omega), List.take_zero]

end CText
