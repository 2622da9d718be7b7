import DeepinPwCheck.DictionaryHit
import DeepinPwCheck.MonotoneRuns
import DeepinPwCheck.Strictness
import DeepinPwCheck.TypeGroups

/-!
# The passwords that are accepted

What `deepin_pw_check_by_conf` asks of a password, said without its loops: lengths, groups of
the policy, substrings that read the same backwards, runs of codes and of keys, repeated
characters and hits in the dictionary. The lengths of the C code are of type `int`, so this is
said of passwords that are not too long for one.
-/

namespace DeepinPwCheck

open CText PairScan

/-- The bytes of a password are listed in the policy, and enough of its groups are hit. -/
structure FollowsPolicy (pw policy : Bytes) (required : ℤ) : Prop where
  noHighPair : ¬ HasHighPair pw
  listed : ∀ c ∈ pw, ∃ group ∈ typeGroups policy, c ∈ group
  enough : required ≤ groupCount pw policy

/-- A palindrome of at least twice the configured number of bytes, where the check looks. -/
def HasSearchedPalindrome (pw : Bytes) (palindromeMinNum : ℤ) : Prop :=
  ∃ start length, Searched pw (2 * palindromeMinNum).toNat start length ∧
    PalindromeAt pw start length

/-- What the monotone check reports: from two characters on a streak, and for a number of one
any two characters. -/
def HasMonotone (pw : Bytes) (monotoneNum : ℤ) : Prop :=
  monotoneNum = 1 ∧ 2 ≤ pw.length ∨
    2 ≤ monotoneNum ∧ (HasCountedRun pw monotoneNum ∨ HasMixedStreak pw monotoneNum)

/-- What an enabled check asks of a password. -/
structure Acceptable (lib : CrackLib) (user pw : Bytes) (options : Options) : Prop where
  longEnough : options.minLen ≤ pw.length
  shortEnough : (pw.length : ℤ) ≤ options.maxLen
  uppercase : options.firstLetterUppercase = true → isFirstLetterUppercase pw = true
  username : 8 ≤ options.minLen → 3 ≤ options.characterNumRequired → user ≠ pw
  policy : FollowsPolicy pw options.characterType options.characterNumRequired
  palindrome : 0 < options.palindromeMinNum → ¬ HasSearchedPalindrome pw options.palindromeMinNum
  word : options.checkWord ≠ 0 → lib.pwOpen (openedPath lib (some options.dictPath)) ≠ none ∧
    ¬ DictionaryHit lib pw options.dictPath
  monotone : 0 < options.monotoneCharacterNum → ¬ HasMonotone pw options.monotoneCharacterNum
  consecutive : 0 < options.consecutiveSameCharacterNum →
    ¬ (2 ≤ pw.length ∧ HasRepeat options.consecutiveSameCharacterNum.toNat pw)

/-- The character rule accepts what follows the policy. -/
theorem isTypeValid_eq_noErr_iff_followsPolicy {pw policy : Bytes} {required : ℤ}
    (hint : pw.length < 2 ^ 31) :
    isTypeValid pw policy required = .noErr ↔ FollowsPolicy pw policy required := by
  rw [isTypeValid_eq_noErr_iff, typeLoop_eq, ← Bool.not_eq_true, includeChinese_iff,
    seen_of_lt hint]
  simp only [List.mem_flatten]
  constructor
  · rintro ⟨hhigh, hlisted, henough⟩
    exact ⟨hhigh, hlisted, henough⟩
  · rintro ⟨hhigh, hlisted, henough⟩
    exact ⟨hhigh, hlisted, henough⟩

/-- The first step reaches a number of one. Such a number rejects every password of at least two
characters. -/
theorem monotoneLoop_one (pw : Bytes) : monotoneLoop pw 1 = true ↔ 2 ≤ pw.length := by
  by_cases hlength : 2 ≤ pw.length
  · rcases pw with _ | ⟨c, _ | ⟨d, rest⟩⟩
    · simp at hlength
    · simp at hlength
    · have hcodes : 1 ≤ (MonotoneState.init.stepCodes c d).monotoneIncreaseNum := by
        unfold MonotoneState.stepCodes
        split_ifs <;> decide
      have hkept : ∀ s : MonotoneState,
          (s.stepKeyboard c d).monotoneIncreaseNum = s.monotoneIncreaseNum := by
        intro s
        unfold MonotoneState.stepKeyboard
        dsimp only
        split_ifs <;> rfl
      have hstop : (MonotoneState.init.step c d).reached 1 = true := by
        simp [MonotoneState.reached, MonotoneState.step, hkept, hcodes]
      simp [monotoneLoop, scanPairs, hstop]
  · unfold monotoneLoop
    rw [scanPairs_of_length_lt (by omega)]
    simp [hlength]

/-- The monotone check for every number that puts it in force. A number of one has a case of its
own. -/
theorem isMonotoneCharacter_iff_hasMonotone {pw : Bytes} {n : ℤ} (hnul : 0 ∉ pw)
    (hint : pw.length < 2 ^ 31) (hn : 0 < n) :
    isMonotoneCharacter pw n = true ↔ HasMonotone pw n := by
  unfold HasMonotone isMonotoneCharacter
  rw [seenPairs_of_lt hint]
  by_cases hone : n = 1
  · subst hone
    rw [monotoneLoop_one]
    simp
  · have htwo : 2 ≤ n := by omega
    rw [monotoneLoop_iff_run hnul htwo]
    simp [hone, htwo]

/-- The repetition check for every number that puts it in force. A number of one has a case of its
own. -/
theorem isConsecutiveSameCharacter_iff_hasRepeat {pw : Bytes} {n : ℤ} (hint : pw.length < 2 ^ 31)
    (hn : 0 < n) :
    isConsecutiveSameCharacter pw n = true ↔ 2 ≤ pw.length ∧ HasRepeat n.toNat pw := by
  unfold isConsecutiveSameCharacter
  rw [consecutiveLoop_iff (by omega), seenPairs_of_lt hint]

/-- The rules of an enabled check, one by one. One byte less than an `int` can count is needed for
the buffer of the palindrome search. -/
theorem passes_iff_acceptable {lib : CrackLib} {user pw : Bytes} {options : Options}
    (hnul : 0 ∉ pw) (hint : pw.length < 2 ^ 31 - 1)
    (hpalindrome : options.palindromeMinNum < 2 ^ 30) :
    PassesOtherRules lib user pw options ∧ PassesPalindromeRule pw options ↔
      Acceptable lib user pw options := by
  have hshort : pw.length < 2 ^ 31 := by omega
  have hlength := intLength_of_lt hshort
  have hbuffer : Allocated pw := by
    unfold Allocated
    omega
  have hsearch (hpos : 0 < options.palindromeMinNum) : PassesPalindromeRule pw options ↔
      ¬HasSearchedPalindrome pw options.palindromeMinNum := by
    rw [passesPalindromeRule_iff_inReach hpos hpalindrome, and_iff_right hbuffer]
    rfl
  constructor
  · rintro ⟨hrules, hpal⟩
    obtain ⟨hlow, hhigh⟩ := isLengthValid_eq_noErr_iff.mp hrules.length
    rw [hlength] at hlow hhigh
    refine ⟨hlow, hhigh, hrules.uppercase, ?_, ?_, ?_, ?_, ?_, ?_⟩
    · intro hmin hrequired huser
      exact hrules.username ⟨hmin, hrequired, huser⟩
    · exact (isTypeValid_eq_noErr_iff_followsPolicy hshort).mp hrules.type
    · intro hpos
      exact (hsearch hpos).mp hpal
    · intro hon
      rw [← not_or, ← isWord_iff, hrules.word hon]
      decide
    · intro hpos
      rw [← isMonotoneCharacter_iff_hasMonotone hnul hshort hpos, hrules.monotone hpos]
      decide
    · intro hpos
      rw [← isConsecutiveSameCharacter_iff_hasRepeat hshort hpos, hrules.consecutive hpos]
      decide
  · intro h
    refine ⟨⟨?_, h.uppercase, ?_, ?_, ?_, ?_, ?_⟩, ?_⟩
    · rw [isLengthValid_eq_noErr_iff, hlength]
      exact ⟨h.longEnough, h.shortEnough⟩
    · rintro ⟨hmin, hrequired, huser⟩
      exact h.username hmin hrequired huser
    · exact (isTypeValid_eq_noErr_iff_followsPolicy hshort).mpr h.policy
    · intro hon
      rw [← Bool.not_eq_true, isWord_iff, not_or]
      exact h.word hon
    · intro hpos
      rw [← Bool.not_eq_true, isMonotoneCharacter_iff_hasMonotone hnul hshort hpos]
      exact h.monotone hpos
    · intro hpos
      rw [← Bool.not_eq_true, isConsecutiveSameCharacter_iff_hasRepeat hshort hpos]
      exact h.consecutive hpos
    · by_cases hpos : 0 < options.palindromeMinNum
      · exact (hsearch hpos).mpr (h.palindrome hpos)
      · exact fun hlater => absurd hlater hpos

/-- **The passwords that are accepted**, for passwords as C passes them, without a NUL, of less
than `2 ^ 31 - 1` bytes, and a palindrome number whose double is an `int`. -/
theorem checkWithOptions_accepts_iff {lib : CrackLib} {user pw : Bytes} {options : Options}
    (hnul : 0 ∉ pw) (hint : pw.length < 2 ^ 31 - 1)
    (hpalindrome : options.palindromeMinNum < 2 ^ 30) :
    checkWithOptions lib user pw options = .ok .noErr ↔
      pw ≠ [] ∧ (options.enabled = true → Acceptable lib user pw options) := by
  rw [checkWithOptions_eq_noErr_iff, passes_iff_acceptable hnul hint hpalindrome]

/-- A password without palindromes is acceptable. -/
theorem checkWithOptions_accepts_iff_abc :
    Acceptable noDictionary (bytes "user") (bytes "abc") fourBytePalindromes := by
  have hnul : 0 ∉ bytes "abc" := by decide
  have hint : (bytes "abc").length < 2 ^ 31 - 1 := by decide
  have hpalindrome : fourBytePalindromes.palindromeMinNum < 2 ^ 30 := by decide
  have hverdict : checkWithOptions noDictionary (bytes "user") (bytes "abc") fourBytePalindromes =
      .ok .noErr := by
    decide +kernel
  exact ((checkWithOptions_accepts_iff hnul hint hpalindrome).mp hverdict).2 rfl

end DeepinPwCheck
