import DeepinPwCheck.Text.IntLength
import Mathlib.Data.List.Palindrome

/-!
# The palindrome rule

`is_include_palindrome` walks two counters over the password and tests one
substring for each pair it reaches. This file follows the walk and determines
which substrings it examines: those that start no later than the minimum length
and, at the last such start, are longer than it or end the password. The walk goes by
the length of the password as an `int`, which is also the number of bytes of its buffer.
-/

namespace DeepinPwCheck

open CText

/-- `palindrome_min_num * 2`, computed in 32-bit arithmetic. -/
def doubled (palindromeMinNum : ℤ) : ℤ := (palindromeMinNum * 2).bmod (2 ^ 32)

/-- `is_palindrome`: long enough, and each byte but the last equals its mirror image. -/
def isPalindrome (pw : Bytes) (palindromeMinNum : ℤ) : Bool :=
  if intLength pw < doubled palindromeMinNum then false
  else (List.range ((intLength pw - 1).bmod (2 ^ 32)).toNat).all fun i =>
    pw[i]? == pw[((intLength pw - i - 1).bmod (2 ^ 32)).toNat]?

/-- The loop of `is_include_palindrome` from the counters `a_p` and `b_p` on. The
copy from `pw + a_p` ends at the terminator of the password, if that comes first. -/
def searchPalindrome (pw : Bytes) (pwLength : ℕ) (palindromeMinNum : ℤ) (aP bP : ℕ) : Bool :=
  let pwTmp := (pw.drop aP).take (pwLength - bP)
  if isPalindrome pwTmp palindromeMinNum then true
  else if (pwLength : ℤ) - (bP + 1 : ℕ) < doubled palindromeMinNum then
    -- too short from here on: next start, full length
    if aP + 1 + 0 ≥ pwLength then false
    else searchPalindrome pw pwLength palindromeMinNum (aP + 1) 0
  else
    if aP + (bP + 1) ≥ pwLength then false
    else searchPalindrome pw pwLength palindromeMinNum aP (bP + 1)
termination_by (pwLength - aP) * (pwLength + 1) + (pwLength - bP)
decreasing_by
  · have hstart : pwLength - aP = pwLength - (aP + 1) + 1 := by omega
    rw [hstart, Nat.add_mul]
    omega
  · omega

/-- `malloc(pw_length + 1)` gives the buffer for the copies: neither the `int` nor its successor
is negative. A negative number would be a `size_t` that no allocation meets. -/
def Allocated (pw : Bytes) : Prop := 0 ≤ intLength pw ∧ intLength pw < 2 ^ 31 - 1

instance (pw : Bytes) : Decidable (Allocated pw) := inferInstanceAs (Decidable (_ ∧ _))

/-- `is_include_palindrome`. It has no result if there is no buffer: then the first copy, of as
many bytes, goes to a null pointer or out of all bounds. -/
def isIncludePalindrome (pw : Bytes) (palindromeMinNum : ℤ) : Option Bool :=
  if Allocated pw then
    some (searchPalindrome pw (intLength pw).toNat palindromeMinNum 0 0)
  else none

/-- The `length` bytes from `start` on lie in the password and read the same backwards. -/
def PalindromeAt (pw : Bytes) (start length : ℕ) : Prop :=
  start + length ≤ pw.length ∧ ((pw.drop start).take length).Palindrome

/-- The substrings that the search for palindromes of at least `width` bytes examines. -/
def Searched (pw : Bytes) (width start length : ℕ) : Prop :=
  width ≤ length ∧ (length : ℤ) ≤ intLength pw ∧ start ≤ width ∧
    (start < length ∨ start + length = pw.length)

instance (pw : Bytes) (start length : ℕ) : Decidable (PalindromeAt pw start length) :=
  inferInstanceAs (Decidable (_ ∧ _))

instance (pw : Bytes) (width start length : ℕ) : Decidable (Searched pw width start length) :=
  inferInstanceAs (Decidable (_ ∧ _))

/-- Below `2 ^ 30` the doubling does not overflow. The bound on the configured number is needed
for nothing else. -/
theorem doubled_eq {n : ℤ} (hpos : 0 < n) (hlt : n < 2 ^ 30) : doubled n = 2 * n := by
  unfold doubled
  rw [Int.bmod_eq_of_le (by omega) (by omega)]
  ring

/-- A password that is not too long for an `int` has as many comparisons as bytes before its last,
and compares each of them with the byte as far from the end. -/
theorem isPalindrome_eq {pw : Bytes} {n : ℤ} (hint : pw.length < 2 ^ 31) :
    isPalindrome pw n = if (pw.length : ℤ) < doubled n then false
      else (List.range (pw.length - 1)).all fun i => pw[i]? == pw[pw.length - i - 1]? := by
  have hlast : ((pw.length : ℤ) - 1).bmod (2 ^ 32) = pw.length - 1 :=
    Int.bmod_eq_of_le (by omega) (by omega)
  have hmirror (i : ℕ) (hi : i < pw.length) :
      ((pw.length : ℤ) - i - 1).bmod (2 ^ 32) = pw.length - i - 1 :=
    Int.bmod_eq_of_le (by omega) (by omega)
  have hcount : ((pw.length : ℤ) - 1).toNat = pw.length - 1 := by omega
  unfold isPalindrome
  rw [intLength_of_lt hint, hlast, hcount]
  split_ifs
  · rfl
  · rw [Bool.eq_iff_iff, List.all_eq_true, List.all_eq_true]
    refine forall₂_congr fun i hi => ?_
    have hlt := List.mem_range.mp hi
    have hindex : ((pw.length : ℤ) - i - 1).toNat = pw.length - i - 1 := by omega
    rw [hmirror i (by omega), hindex]

/-- Comparing each byte but the last with its mirror image is enough for a palindrome. The loop of
the source stops before the last byte. -/
theorem isPalindrome_iff {pw : Bytes} {n : ℤ} (hint : pw.length < 2 ^ 31) :
    isPalindrome pw n = true ↔ doubled n ≤ pw.length ∧ pw.Palindrome := by
  rw [isPalindrome_eq hint]
  split_ifs with hshort
  · simp only [false_iff, not_and]
    intro h
    omega
  · rw [List.all_eq_true, List.Palindrome.iff_reverse_eq]
    constructor
    · intro hall
      refine ⟨by omega, List.ext_getElem? fun i => ?_⟩
      by_cases hi : i < pw.length
      · rw [List.getElem?_reverse hi]
        by_cases hlast : i < pw.length - 1
        · have h := hall i (List.mem_range.mpr hlast)
          rw [beq_iff_eq] at h
          rw [h]
          congr 1
          omega
        · -- the last byte is the mirror image of the first
          by_cases hone : pw.length = 1
          · congr 1
            omega
          · have h := hall 0 (List.mem_range.mpr (by omega))
            rw [beq_iff_eq] at h
            have hzero : pw.length - 1 - i = 0 := by omega
            have hi' : i = pw.length - 0 - 1 := by omega
            rw [hzero, hi']
            exact h
      · rw [List.getElem?_eq_none (by simpa using hi), List.getElem?_eq_none (by omega)]
    · rintro ⟨_, hrev⟩ i hi
      have hi' := List.mem_range.mp hi
      rw [beq_iff_eq]
      conv_lhs => rw [← hrev, List.getElem?_reverse (by omega)]
      congr 1
      omega

/-- From counters in range the search succeeds exactly if one of the pairs from
there on, in the order of the walk, is the copy of a palindrome. -/
theorem searchPalindrome_iff {pw : Bytes} {size : ℕ} {n : ℤ} {width : ℕ}
    (hwidth : doubled n = width) (a b : ℕ) (ha : a ≤ width) (hb : b + width ≤ size)
    (hab : a + b < size) :
    searchPalindrome pw size n a b = true ↔ ∃ a' b', (a < a' ∨ a' = a ∧ b ≤ b') ∧ a' ≤ width ∧
      b' + width ≤ size ∧ a' + b' < size ∧
      isPalindrome ((pw.drop a').take (size - b')) n = true := by
  fun_induction searchPalindrome pw size n a b with
  | case1 a b pwTmp hfound =>
    simp only [true_iff]
    exact ⟨a, b, Or.inr ⟨rfl, le_rfl⟩, ha, hb, hab, hfound⟩
  | case2 a b pwTmp hnot hshort hend =>
    -- the next start is the end of the password
    simp only [Bool.false_eq_true, false_iff]
    rintro ⟨a', b', hlater, ha', hb', hab', hpal⟩
    rcases hlater with hlt | ⟨rfl, hle⟩
    · omega
    · have heq : b' = b := by omega
      subst heq
      exact hnot hpal
  | case3 a b pwTmp hnot hshort hend ih =>
    rw [ih (by omega) (by omega) (by omega)]
    constructor
    · rintro ⟨a', b', hlater, hrest⟩
      exact ⟨a', b', Or.inl (by omega), hrest⟩
    · rintro ⟨a', b', hlater, ha', hb', hab', hpal⟩
      rcases hlater with hlt | ⟨rfl, hle⟩
      · exact ⟨a', b', by omega, ha', hb', hab', hpal⟩
      · have heq : b' = b := by omega
        subst heq
        exact absurd hpal hnot
  | case4 a b pwTmp hnot hlong hend =>
    -- both counters together reach the end, which happens at the last start only
    simp only [Bool.false_eq_true, false_iff]
    rintro ⟨a', b', hlater, ha', hb', hab', hpal⟩
    rcases hlater with hlt | ⟨rfl, hle⟩
    · omega
    · have heq : b' = b := by omega
      subst heq
      exact hnot hpal
  | case5 a b pwTmp hnot hlong hend ih =>
    rw [ih ha (by omega) (by omega)]
    constructor
    · rintro ⟨a', b', hlater, hrest⟩
      exact ⟨a', b', by omega, hrest⟩
    · rintro ⟨a', b', hlater, ha', hb', hab', hpal⟩
      rcases hlater with hlt | ⟨rfl, hle⟩
      · exact ⟨a', b', Or.inl hlt, ha', hb', hab', hpal⟩
      · by_cases heq : b' = b
        · subst heq
          exact absurd hpal hnot
        · exact ⟨a', b', by omega, ha', hb', hab', hpal⟩

/-- A password shorter than the minimum has no copy that is long enough. The search ends without a
result there, whatever the buffer holds. -/
theorem searchPalindrome_of_short {pw : Bytes} {size : ℕ} {n : ℤ} (hint : size < 2 ^ 31)
    (hshort : (size : ℤ) < doubled n) (a b : ℕ) : searchPalindrome pw size n a b = false := by
  have hfalse (s : Bytes) (hs : s.length ≤ size) : isPalindrome s n = false := by
    rw [isPalindrome_eq (by omega), if_pos (by omega)]
  fun_induction searchPalindrome pw size n a b with
  | case1 a b pwTmp hfound =>
    rw [hfalse _ (by simp [pwTmp])] at hfound
    exact absurd hfound (by decide)
  | case2 => rfl
  | case3 a b pwTmp hnot hnext hend ih => exact ih
  | case4 => rfl
  | case5 a b pwTmp hnot hnext hend ih => exact ih

/-- The search has a result exactly if it has a buffer. For a password of ordinary length it
always has one. -/
theorem isIncludePalindrome_eq_none_iff {pw : Bytes} {n : ℤ} :
    isIncludePalindrome pw n = none ↔ ¬Allocated pw := by
  unfold isIncludePalindrome
  split_ifs with h <;> simp [h]

/-- **The palindrome search.** For every threshold whose double fits in an `int`, a search with a
buffer succeeds exactly if one of the substrings it examines is a palindrome. -/
theorem isIncludePalindrome_iff {pw : Bytes} {n : ℤ} (hpos : 0 < n) (hlt : n < 2 ^ 30) :
    isIncludePalindrome pw n = some true ↔ Allocated pw ∧
      ∃ start length, Searched pw (2 * n).toNat start length ∧ PalindromeAt pw start length := by
  have hwidth : doubled n = ((2 * n).toNat : ℤ) := by rw [doubled_eq hpos hlt]; omega
  set width := (2 * n).toNat with hwidthDef
  have hwpos : 0 < width := by omega
  unfold isIncludePalindrome
  split_ifs with hbuffer
  swap
  · simp [hbuffer]
  rw [Option.some.injEq, and_iff_right hbuffer]
  obtain ⟨hnonneg, hmax⟩ := hbuffer
  obtain ⟨k, hk⟩ := exists_intLength_eq pw
  obtain ⟨size, hsize⟩ : ∃ size : ℕ, intLength pw = size :=
    ⟨(intLength pw).toNat, by omega⟩
  unfold Searched
  rw [hsize, Int.toNat_natCast]
  have hcopy (a b : ℕ) : ((pw.drop a).take (size - b)).length < 2 ^ 31 := by
    rw [List.length_take]
    omega
  by_cases hlength : width ≤ size
  · rw [searchPalindrome_iff hwidth 0 0 (by omega) (by omega) (by omega)]
    constructor
    · rintro ⟨a, b, _, ha, hb, hab, hpal⟩
      obtain ⟨hlong, hrev⟩ := (isPalindrome_iff (hcopy a b)).mp hpal
      rw [hwidth] at hlong
      simp only [List.length_take, List.length_drop] at hlong
      -- the copy has `pw_length - b_p` bytes unless the password ends before
      by_cases hcut : a + (size - b) ≤ pw.length
      · exact ⟨a, size - b, ⟨by omega, by omega, ha, by omega⟩, hcut, hrev⟩
      · refine ⟨a, pw.length - a, ⟨by omega, by omega, ha, by omega⟩, by omega, ?_⟩
        rw [List.take_of_length_le (by simp)]
        rwa [List.take_of_length_le (by simp; omega)] at hrev
    · rintro ⟨s, m, ⟨hm, hfew, hs, hreach⟩, hfits, hrev⟩
      have hpal (b : ℕ) (heq : (pw.drop s).take (size - b) = (pw.drop s).take m) :
          isPalindrome ((pw.drop s).take (size - b)) n = true := by
        rw [isPalindrome_iff (hcopy s b), heq, hwidth]
        refine ⟨?_, hrev⟩
        simp only [List.length_take, List.length_drop]
        omega
      have hlater (b : ℕ) : 0 < s ∨ s = 0 ∧ 0 ≤ b := by omega
      by_cases hend : s + m = pw.length
      · refine ⟨s, 0, hlater 0, hs, by omega, by omega, hpal 0 ?_⟩
        rw [List.take_of_length_le (by simp; omega), List.take_of_length_le (by simp; omega)]
      · refine ⟨s, size - m, hlater _, hs, by omega, by omega, hpal _ ?_⟩
        rw [show size - (size - m) = m by omega]
  · rw [searchPalindrome_of_short (by omega) (by omega)]
    simp only [Bool.false_eq_true, false_iff]
    rintro ⟨s, m, ⟨hm, hfew, _, _⟩, hfits, _⟩
    omega

/-- Some substring of at least `width` bytes, wherever it starts, reads the same backwards. -/
def IncludesPalindrome (pw : Bytes) (width : ℕ) : Prop :=
  ∃ start length, width ≤ length ∧ PalindromeAt pw start length

/-- **Completeness of the search.** The search answers whether the password includes a palindrome,
except in two cases. It includes some and examines none of them: all of them start behind the
offset `2 * n`, or there with `2 * n` bytes and more of the password after them, or are longer than
the `int` says that the password is. Or the search has no buffer, and gives no answer. -/
theorem isIncludePalindrome_iff_includes_iff {pw : Bytes} {n : ℤ} (hpos : 1 ≤ n)
    (hlt : n < 2 ^ 30) :
    (∃ found, isIncludePalindrome pw n = some found ∧
        (found = true ↔ IncludesPalindrome pw (2 * n).toNat)) ↔
      Allocated pw ∧ (IncludesPalindrome pw (2 * n).toNat → ∃ start length,
        Searched pw (2 * n).toNat start length ∧ PalindromeAt pw start length) := by
  have hresult := @isIncludePalindrome_iff pw n (by omega) hlt
  cases hfound : isIncludePalindrome pw n with
  | none =>
    have hnone := isIncludePalindrome_eq_none_iff.mp hfound
    simp [hnone]
  | some found =>
    have hbuffer : Allocated pw := by
      by_contra hnone
      rw [isIncludePalindrome_eq_none_iff.mpr hnone] at hfound
      cases hfound
    rw [hfound, Option.some.injEq, and_iff_right hbuffer] at hresult
    rw [and_iff_right hbuffer]
    simp only [Option.some.injEq, exists_eq_left']
    rw [hresult]
    constructor
    · intro hiff hincludes
      exact hiff.mpr hincludes
    · intro hsearched
      refine ⟨?_, hsearched⟩
      rintro ⟨start, length, ⟨hwidth, _, _, _⟩, hpalindrome⟩
      exact ⟨start, length, hwidth, hpalindrome⟩

/-- The equivalence for `abba`, which is searched from its first byte. -/
theorem isIncludePalindrome_iff_includes_iff_abba :
    (∃ found, isIncludePalindrome (bytes "abba") 2 = some found ∧
        (found = true ↔ IncludesPalindrome (bytes "abba") 4)) ↔
      Allocated (bytes "abba") ∧ (IncludesPalindrome (bytes "abba") 4 → ∃ start length,
        Searched (bytes "abba") 4 start length ∧ PalindromeAt (bytes "abba") start length) :=
  isIncludePalindrome_iff_includes_iff (by decide) (by decide)

/-- The palindrome at the end of `xyzabba` is not found when two bytes are enough. -/
theorem isIncludePalindrome_misses_late :
    ¬∀ (pw : Bytes) (n : ℤ), 0 ∉ pw → 1 ≤ n → n < 2 ^ 30 →
      ∃ found, isIncludePalindrome pw n = some found ∧
        (found = true ↔ IncludesPalindrome pw (2 * n).toNat) := by
  intro h
  have hincludes : IncludesPalindrome (bytes "xyzabba") (2 * 1 : ℤ).toNat :=
    ⟨3, 4, by decide, by decide⟩
  obtain ⟨found, hanswer, hfound⟩ := h (bytes "xyzabba") 1 (by decide) (by decide) (by decide)
  have hmissed : isIncludePalindrome (bytes "xyzabba") 1 = some false := by decide +kernel
  rw [hmissed] at hanswer
  obtain rfl := Option.some.inj hanswer
  exact absurd (hfound.mpr hincludes) (by decide)

end DeepinPwCheck
