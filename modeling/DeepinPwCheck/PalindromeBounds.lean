import DeepinPwCheck.Loops.Reached
import DeepinPwCheck.Palindrome

/-!
# The arithmetic of the palindrome rule

Two computations of the rule leave the range that they are meant for. The minimum length is
doubled in an `int`, which turns a large one into a negative number; and each iteration of
`is_include_palindrome` copies as many bytes as the whole password has, less `b_p`, although
it copies from `a_p` on. Both are exact here: for which thresholds the doubling is right, and
for which passwords every copy stays within the password and its terminator.
-/

namespace DeepinPwCheck

open CText LoopStates

/-- From `2 ^ 30` on the doubling overflows to a negative number. -/
theorem doubled_neg {n : ℤ} (hlow : 2 ^ 30 ≤ n) (hhigh : n < 2 ^ 31) : doubled n < 0 := by
  have hmod : (n * 2) % (2 ^ 32 : ℕ) = n * 2 := by omega
  unfold doubled
  rw [Int.bmod_def, hmod, if_neg (by omega)]
  omega

/-- Under a negative minimum length a password of one byte is reported, and a longer one
when the search has come to its first byte. -/
theorem searchPalindrome_of_neg {pw : Bytes} {n : ℤ} (hint : pw.length < 2 ^ 31)
    (hneg : doubled n < 0) (b : ℕ) (hb : b ≤ pw.length - 1) :
    searchPalindrome pw pw.length n 0 b = true := by
  induction hrest : pw.length - 1 - b generalizing b with
  | zero =>
    have hpalindrome : ((pw.drop 0).take (pw.length - b)).Palindrome := by
      rw [List.drop_zero]
      rcases pw with _ | ⟨c, rest⟩
      · simpa using List.Palindrome.nil
      · rw [List.length_cons, show rest.length + 1 - b = 1 by simp at hb hrest; omega]
        exact List.Palindrome.singleton c
    have hfound : isPalindrome ((pw.drop 0).take (pw.length - b)) n = true := by
      refine (isPalindrome_iff ?_).mpr ⟨?_, hpalindrome⟩
      · rw [List.length_take]
        omega
      · omega
    rw [searchPalindrome]
    exact if_pos hfound
  | succ rest ih =>
    rw [searchPalindrome]
    split_ifs with hfound hshort hend hend
    · rfl
    · omega
    · omega
    · omega
    · exact ih (b + 1) (by omega) (by omega)

/-- **The overflow of the minimum length.** For a positive 32-bit `palindrome_min_num` the two
functions of the rule keep to the minimum length in exact integers exactly if the number is
below `2 ^ 30`: `is_palindrome` accepts the palindromes of at least twice as many bytes, and
no password that is shorter than that is reported. -/
theorem isPalindrome_exact_iff {pw : Bytes} {n : ℤ} (hlength : pw.length < 2 ^ 31)
    (hpos : 0 < n) (hint : n < 2 ^ 31) :
    ((isPalindrome pw n = true ↔ pw = pw.reverse ∧ 2 * n ≤ pw.length) ∧
        ((pw.length : ℤ) < 2 * n → isIncludePalindrome pw n = some false)) ↔ n < 2 ^ 30 := by
  have hsearch (hbuffer : Allocated pw) :
      isIncludePalindrome pw n = some (searchPalindrome pw pw.length n 0 0) := by
    unfold isIncludePalindrome
    rw [if_pos hbuffer, intLength_of_lt hlength, Int.toNat_natCast]
  constructor
  · rintro ⟨-, hnever⟩
    by_contra hlarge
    have hmissed := hnever (by omega)
    by_cases hbuffer : Allocated pw
    · rw [hsearch hbuffer,
        searchPalindrome_of_neg hlength (doubled_neg (by omega) hint) 0 (by omega)] at hmissed
      cases hmissed
    · rw [isIncludePalindrome_eq_none_iff.mpr hbuffer] at hmissed
      cases hmissed
  · intro hsmall
    have hdoubled := doubled_eq hpos hsmall
    refine ⟨?_, ?_⟩
    · rw [isPalindrome_iff hlength, hdoubled, List.Palindrome.iff_reverse_eq, and_comm,
        eq_comm (a := pw.reverse)]
    · intro hshort
      have hbuffer : Allocated pw := by
        unfold Allocated
        rw [intLength_of_lt hlength]
        omega
      rw [hsearch hbuffer, searchPalindrome_of_short hlength (by omega) 0 0]

/-- A number that does not overflow, on a palindrome that is long enough. -/
theorem isPalindrome_exact_iff_abba :
    ((isPalindrome (bytes "abba") 2 = true ↔
          bytes "abba" = (bytes "abba").reverse ∧ 2 * (2 : ℤ) ≤ (bytes "abba").length) ∧
        (((bytes "abba").length : ℤ) < 2 * 2 →
          isIncludePalindrome (bytes "abba") 2 = some false)) ↔
      (2 : ℤ) < 2 ^ 30 :=
  isPalindrome_exact_iff (by decide) (by decide) (by decide)

/-- With `PALINDROME_NUM = 1073741824` a single character is a palindrome that is long enough,
and every password is reported. -/
theorem isPalindrome_overflows :
    ¬∀ (pw : Bytes) (n : ℤ), 0 ∉ pw → pw.length < 2 ^ 31 → 0 < n → n < 2 ^ 31 →
      (isPalindrome pw n = true ↔ pw = pw.reverse ∧ 2 * n ≤ pw.length) ∧
        ((pw.length : ℤ) < 2 * n → isIncludePalindrome pw n = some false) := by
  intro h
  have hlong := ((h (bytes "a") (2 ^ 30) (by decide) (by decide) (by decide) (by decide)).1.mp
    (by decide)).2
  exact absurd hlong (by decide)

/-- The counters `a_p` and `b_p` of the loop of `is_include_palindrome`. -/
structure SearchCounters where
  aP : ℕ
  bP : ℕ
  deriving DecidableEq

/-- The body of the loop: the counters of the next iteration, unless there is no buffer for the
copy, the copy is a palindrome, or the counters come to the end of the password. -/
def nextCounters (pw : Bytes) (palindromeMinNum : ℤ) (s : SearchCounters) :
    Option SearchCounters :=
  if ¬Allocated pw then none
  else if isPalindrome ((pw.drop s.aP).take ((intLength pw).toNat - s.bP)) palindromeMinNum then
    none
  else if intLength pw - (s.bP + 1) < doubled palindromeMinNum then
    if (s.aP : ℤ) + 1 + 0 ≥ intLength pw then none else some ⟨s.aP + 1, 0⟩
  else
    if (s.aP : ℤ) + (s.bP + 1) ≥ intLength pw then none else some ⟨s.aP, s.bP + 1⟩

/-- The iterations that `is_include_palindrome` reaches. -/
def Iteration (pw : Bytes) (palindromeMinNum : ℤ) (s : SearchCounters) : Prop :=
  Reached (nextCounters pw palindromeMinNum) ⟨0, 0⟩ s

/-- The bytes that an iteration copies, `pw_length - b_p` of them from `pw + a_p` on, lie within
the password and its terminator. A negative number is a `size_t` beyond any of them. -/
def CopyInRange (pw : Bytes) (s : SearchCounters) : Prop :=
  s.bP ≤ intLength pw ∧ ∀ i : ℕ, i < intLength pw - s.bP → s.aP + i ≤ pw.length

/-- The search goes through the iterations. -/
theorem searchPalindrome_eq_next {pw : Bytes} (hbuffer : Allocated pw) (n : ℤ)
    (s : SearchCounters) :
    searchPalindrome pw (intLength pw).toNat n s.aP s.bP =
      ((nextCounters pw n s).map fun s' =>
          searchPalindrome pw (intLength pw).toNat n s'.aP s'.bP).getD
        (isPalindrome ((pw.drop s.aP).take ((intLength pw).toNat - s.bP)) n) := by
  have hsize : ((intLength pw).toNat : ℤ) = intLength pw := Int.toNat_of_nonneg hbuffer.1
  rw [searchPalindrome]
  unfold nextCounters
  rw [if_neg (not_not.mpr hbuffer)]
  by_cases hfound : isPalindrome ((pw.drop s.aP).take ((intLength pw).toNat - s.bP)) n = true
  · rw [if_pos hfound, if_pos hfound]
    rw [Option.map_none, Option.getD_none, hfound]
  · rw [if_neg hfound, if_neg hfound]
    by_cases hshort : intLength pw - (s.bP + 1) < doubled n
    · rw [if_pos (by omega), if_pos hshort]
      by_cases hend : (s.aP : ℤ) + 1 + 0 ≥ intLength pw
      · rw [if_pos (by omega), if_pos hend]
        rw [Option.map_none, Option.getD_none, Bool.eq_false_iff.mpr hfound]
      · rw [if_neg (by omega), if_neg hend]
        rw [Option.map_some, Option.getD_some]
    · rw [if_neg (by omega), if_neg hshort]
      by_cases hend : (s.aP : ℤ) + (s.bP + 1) ≥ intLength pw
      · rw [if_pos (by omega), if_pos hend]
        rw [Option.map_none, Option.getD_none, Bool.eq_false_iff.mpr hfound]
      · rw [if_neg (by omega), if_neg hend]
        rw [Option.map_some, Option.getD_some]

/-- What one iteration does to the counters. -/
theorem nextCounters_eq_some {pw : Bytes} {n : ℤ} {s s' : SearchCounters}
    (h : nextCounters pw n s = some s') :
    Allocated pw ∧
      isPalindrome ((pw.drop s.aP).take ((intLength pw).toNat - s.bP)) n = false ∧
      (intLength pw - (s.bP + 1) < doubled n ∧ s.aP + 1 < intLength pw ∧ s' = ⟨s.aP + 1, 0⟩ ∨
        doubled n ≤ intLength pw - (s.bP + 1) ∧ s.aP + (s.bP + 1) < intLength pw ∧
          s' = ⟨s.aP, s.bP + 1⟩) := by
  unfold nextCounters at h
  split_ifs at h with hbuffer hfound hshort hend hend
  · exact ⟨hbuffer, by simpa using hfound, Or.inl ⟨hshort, by omega, (Option.some.inj h).symm⟩⟩
  · exact ⟨hbuffer, by simpa using hfound,
      Or.inr ⟨by omega, by omega, (Option.some.inj h).symm⟩⟩

/-- After the first iteration there is a buffer, and the counters together stay below the
length. -/
theorem Iteration.sum_lt {pw : Bytes} {n : ℤ} {s : SearchCounters} (h : Iteration pw n s) :
    s = ⟨0, 0⟩ ∨ Allocated pw ∧ s.aP + s.bP < intLength pw := by
  refine Reached.invariant
    (P := fun s => s = ⟨0, 0⟩ ∨ Allocated pw ∧ s.aP + s.bP < intLength pw) (Or.inl rfl) ?_ h
  rintro s s' - hstep
  obtain ⟨hbuffer, -, ⟨-, hlt, rfl⟩ | ⟨-, hlt, rfl⟩⟩ := nextCounters_eq_some hstep
  · exact Or.inr ⟨hbuffer, by push_cast; omega⟩
  · exact Or.inr ⟨hbuffer, by push_cast; omega⟩

/-- The search does not go past a palindrome that is long enough. -/
theorem Iteration.le_of_palindromeAt {pw : Bytes} {n : ℤ} {start length : ℕ}
    (hint : pw.length < 2 ^ 31) (hlong : doubled n ≤ length) (hpal : PalindromeAt pw start length)
    {s : SearchCounters} (h : Iteration pw n s) :
    s.aP < start ∨ s.aP = start ∧ s.bP ≤ pw.length - length := by
  obtain ⟨hfits, hrev⟩ := hpal
  have hlength := intLength_of_lt hint
  refine Reached.invariant
    (P := fun s => s.aP < start ∨ s.aP = start ∧ s.bP ≤ pw.length - length) ?_ ?_ h
  · dsimp only
    omega
  · rintro s s' hs hstep
    obtain ⟨-, hnot, hnext⟩ := nextCounters_eq_some hstep
    rw [hlength, Int.toNat_natCast] at hnot
    -- the iteration that copies this palindrome ends the search
    have hcopy : ¬(s.aP = start ∧ s.bP = pw.length - length) := by
      rintro ⟨ha, hb⟩
      have htake : pw.length - s.bP = length := by omega
      rw [ha, htake] at hnot
      have hshort : ((pw.drop start).take length).length < 2 ^ 31 := by
        rw [List.length_take]
        omega
      rw [(isPalindrome_iff hshort).mpr] at hnot
      · cases hnot
      · refine ⟨?_, hrev⟩
        simp only [List.length_take, List.length_drop]
        omega
    rcases hnext with ⟨hshort, -, rfl⟩ | ⟨-, -, rfl⟩
    · dsimp only
      omega
    · dsimp only
      omega

/-- A copy that is reported is a palindrome where it starts. -/
theorem exists_palindromeAt_of_copy {pw : Bytes} {n : ℤ} {a b : ℕ} (hint : pw.length < 2 ^ 31)
    (ha : a ≤ pw.length) (h : isPalindrome ((pw.drop a).take (pw.length - b)) n = true) :
    ∃ length : ℕ, doubled n ≤ length ∧ PalindromeAt pw a length := by
  have hcopy : ((pw.drop a).take (pw.length - b)).length < 2 ^ 31 := by
    rw [List.length_take]
    omega
  obtain ⟨hlong, hrev⟩ := (isPalindrome_iff hcopy).mp h
  refine ⟨((pw.drop a).take (pw.length - b)).length, hlong, ?_, ?_⟩
  · simp only [List.length_take, List.length_drop]
    omega
  · rw [List.length_take, ← List.take_eq_take_min]
    exact hrev

/-- A start without a palindrome that is long enough: the search reaches the next one. -/
theorem Iteration.next_start {pw : Bytes} {n : ℤ} {width a : ℕ} (hint : pw.length < 2 ^ 31 - 1)
    (hwidth : doubled n = width) (ha : a < width) (hnext : a + 1 < pw.length)
    (hnone : ∀ length, width ≤ length → ¬PalindromeAt pw a length)
    (h : Iteration pw n ⟨a, 0⟩) : Iteration pw n ⟨a + 1, 0⟩ := by
  have hlength : intLength pw = pw.length := intLength_of_lt (by omega)
  have hbuffer : ¬¬Allocated pw := by
    unfold Allocated
    omega
  have hnot (b : ℕ) : ¬isPalindrome ((pw.drop a).take ((intLength pw).toNat - b)) n = true := by
    rw [hlength, Int.toNat_natCast]
    intro hfound
    obtain ⟨length, hlong, hpal⟩ := exists_palindromeAt_of_copy (by omega) (by omega) hfound
    exact hnone length (by omega) hpal
  have hrow (b : ℕ) (hb : b ≤ pw.length - width) : Iteration pw n ⟨a, b⟩ := by
    induction b with
    | zero => exact h
    | succ b ih =>
      refine (ih (by omega)).next ?_
      unfold nextCounters
      dsimp only
      rw [if_neg hbuffer, if_neg (hnot b), if_neg (by omega), if_neg (by omega)]
  refine (hrow (pw.length - width) le_rfl).next ?_
  unfold nextCounters
  dsimp only
  rw [if_neg hbuffer, if_neg (hnot _), if_pos (by omega), if_neg (by omega)]

/-- **The copies of the search.** For every threshold whose double fits in an `int`, all the
bytes that `is_include_palindrome` copies lie within the password and its terminator exactly if
the `int` length is not negative and one of these holds: it is the greatest `int`, so that the first
copy already has no buffer to go to; the password is longer than its `int` length; it has at most
two bytes; or a palindrome of at least `2 * n` bytes begins with its first or second byte.
Otherwise the search comes to the third start, where it copies as many bytes as the whole
password has. -/
theorem copyInRange_iff {pw : Bytes} {n : ℤ} (hpos : 1 ≤ n) (hlt : n < 2 ^ 30) :
    (∀ s, Iteration pw n s → CopyInRange pw s) ↔
      0 ≤ intLength pw ∧ (intLength pw = 2 ^ 31 - 1 ∨ 2 ^ 32 ≤ pw.length ∨ pw.length ≤ 2 ∨
        ∃ start length, start ≤ 1 ∧ (2 * n).toNat ≤ length ∧ PalindromeAt pw start length) := by
  have hwidth : doubled n = ((2 * n).toNat : ℤ) := by
    rw [doubled_eq (by omega) hlt]
    omega
  have hwtwo : 2 ≤ (2 * n).toNat := by omega
  obtain ⟨k, hk⟩ := exists_intLength_eq pw
  obtain ⟨hlow, hhigh⟩ := intLength_bounds pw
  constructor
  · intro hrange
    have hnonneg : 0 ≤ intLength pw := (hrange _ Reached.first).1
    refine ⟨hnonneg, ?_⟩
    by_contra hcond
    obtain ⟨hmax, hcond⟩ := not_or.mp hcond
    obtain ⟨hwhole, hcond⟩ := not_or.mp hcond
    obtain ⟨hlong, hnone⟩ := not_or.mp hcond
    have hlength : intLength pw = pw.length := by omega
    have hmissing (start : ℕ) (hstart : start ≤ 1) (length : ℕ)
        (hlength : (2 * n).toNat ≤ length) : ¬PalindromeAt pw start length :=
      fun hpal => hnone ⟨start, length, hstart, hlength, hpal⟩
    have hfirst : Iteration pw n ⟨0, 0⟩ := Reached.first
    have hsecond :=
      hfirst.next_start (by omega) hwidth (by omega) (by omega) (hmissing 0 (by omega))
    have hthird := hsecond.next_start (by omega) hwidth (by omega) (by omega) (hmissing 1 le_rfl)
    -- the last byte that is copied there is the second one after the terminator
    have hlast := (hrange _ hthird).2 (pw.length - 1) (by dsimp only; omega)
    dsimp only at hlast
    omega
  · rintro ⟨hnonneg, hcond⟩ s hs
    have hsum := hs.sum_lt
    have hlength : s.bP ≤ intLength pw := by
      rcases hsum with rfl | ⟨-, hlt⟩ <;> omega
    refine ⟨hlength, ?_⟩
    intro i hi
    rcases hsum with rfl | ⟨⟨-, hbuffer⟩, hlt⟩
    · dsimp only at hi ⊢
      omega
    · rcases hcond with hmax | hwhole | hshort | ⟨start, length, hstart, hlong, hpal⟩
      · omega
      · omega
      · omega
      · by_cases hint : pw.length < 2 ^ 31
        · rcases hs.le_of_palindromeAt hint (by omega) hpal with hbefore | ⟨heq, -⟩ <;> omega
        · omega

/-- The search in `abba` ends with its first copy. -/
theorem copyInRange_iff_abba :
    (∀ s, Iteration (bytes "abba") 2 s → CopyInRange (bytes "abba") s) ↔
      0 ≤ intLength (bytes "abba") ∧ (intLength (bytes "abba") = 2 ^ 31 - 1 ∨
        2 ^ 32 ≤ (bytes "abba").length ∨ (bytes "abba").length ≤ 2 ∨
          ∃ start length, start ≤ 1 ∧ (2 * (2 : ℤ)).toNat ≤ length ∧
            PalindromeAt (bytes "abba") start length) :=
  copyInRange_iff (by decide) (by decide)

/-- In `abc` the third start is reached, and the copy from there reads three bytes. -/
theorem not_copyInRange :
    ¬∀ (pw : Bytes) (n : ℤ), 0 ∉ pw → 1 ≤ n → n < 2 ^ 30 →
      ∀ s, Iteration pw n s → CopyInRange pw s := by
  intro h
  have hsteps : (nextCounters (bytes "abc") 1 ⟨0, 0⟩ = some ⟨0, 1⟩ ∧
      nextCounters (bytes "abc") 1 ⟨0, 1⟩ = some ⟨1, 0⟩) ∧
      nextCounters (bytes "abc") 1 ⟨1, 0⟩ = some ⟨1, 1⟩ ∧
      nextCounters (bytes "abc") 1 ⟨1, 1⟩ = some ⟨2, 0⟩ := by decide
  obtain ⟨⟨hone, htwo⟩, hthree, hfour⟩ := hsteps
  have hreached : Iteration (bytes "abc") 1 ⟨2, 0⟩ :=
    (((Reached.first.next hone).next htwo).next hthree).next hfour
  have hlast := (h (bytes "abc") 1 (by decide) (by decide) (by decide) _ hreached).2 2 (by decide)
  exact absurd hlast (by decide)

end DeepinPwCheck
