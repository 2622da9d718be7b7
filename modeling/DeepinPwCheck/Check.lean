import DeepinPwCheck.CharacterType
import DeepinPwCheck.Palindrome
import DeepinPwCheck.Repetition
import DeepinPwCheck.WordCheck

/-!
# The check of one password

The rules of `deepin_pw_check_by_conf` in the order in which it tries them, for
options that have been loaded. The verdict is the first rule that rejects.
-/

namespace DeepinPwCheck

open CText

/-- `is_empty`. -/
def isEmpty (pw : Bytes) : Bool := decide (pw.length = 0)

/-- `is_length_valid`. The length that it compares is an `int`. -/
def isLengthValid (pw : Bytes) (minLen maxLen : ℤ) : PwErrorType :=
  if intLength pw < minLen then .lengthShort
  else if intLength pw > maxLen then .lengthLong
  else .noErr

/-- `is_first_letter_uppercase`. -/
def isFirstLetterUppercase (pw : Bytes) : Bool :=
  if intLength pw > 0 then 65 ≤ pw.headD 0 && pw.headD 0 ≤ 90 else false

/-- The body of `deepin_pw_check_by_conf` after the options have been loaded. The palindrome
search has no result for a password that it has no buffer for. -/
def checkWithOptions (lib : CrackLib) (user pw : Bytes) (options : Options) :
    Except LoadError PwErrorType :=
  if isEmpty pw then .ok .passwordEmpty
  else if !options.enabled then .ok .noErr
  else if isLengthValid pw options.minLen options.maxLen ≠ .noErr then
    .ok (isLengthValid pw options.minLen options.maxLen)
  else if options.firstLetterUppercase && !isFirstLetterUppercase pw then .ok .pwFirstUpperm
  else if 8 ≤ options.minLen ∧ 3 ≤ options.characterNumRequired ∧ user = pw then
    .ok .sameAsUsername
  else if isTypeValid pw options.characterType options.characterNumRequired ≠ .noErr then
    .ok (isTypeValid pw options.characterType options.characterNumRequired)
  else if (options.palindromeMinNum ≠ 0 ∧ options.palindromeMinNum > 0) ∧
      isIncludePalindrome pw options.palindromeMinNum = none then .error .overrun
  else if (options.palindromeMinNum ≠ 0 ∧ options.palindromeMinNum > 0) ∧
      isIncludePalindrome pw options.palindromeMinNum = some true then .ok .palindrome
  else if options.checkWord ≠ 0 ∧ isWord lib pw (some options.dictPath) = true then .ok .word
  else if (options.monotoneCharacterNum ≠ 0 ∧ options.monotoneCharacterNum > 0) ∧
      isMonotoneCharacter pw options.monotoneCharacterNum = true then .ok .pwMonotone
  else if (options.consecutiveSameCharacterNum ≠ 0 ∧ options.consecutiveSameCharacterNum > 0) ∧
      isConsecutiveSameCharacter pw options.consecutiveSameCharacterNum = true then
    .ok .pwConsecutiveSame
  else .ok .noErr

/-- What the enabled check asks of a password besides the palindrome rule. -/
structure PassesOtherRules (lib : CrackLib) (user pw : Bytes) (options : Options) : Prop where
  length : isLengthValid pw options.minLen options.maxLen = .noErr
  uppercase : options.firstLetterUppercase = true → isFirstLetterUppercase pw = true
  username : ¬(8 ≤ options.minLen ∧ 3 ≤ options.characterNumRequired ∧ user = pw)
  type : isTypeValid pw options.characterType options.characterNumRequired = .noErr
  word : options.checkWord ≠ 0 → isWord lib pw (some options.dictPath) = false
  monotone : 0 < options.monotoneCharacterNum →
    isMonotoneCharacter pw options.monotoneCharacterNum = false
  consecutive : 0 < options.consecutiveSameCharacterNum →
    isConsecutiveSameCharacter pw options.consecutiveSameCharacterNum = false

/-- What the palindrome rule asks of a password. -/
def PassesPalindromeRule (pw : Bytes) (options : Options) : Prop :=
  0 < options.palindromeMinNum → isIncludePalindrome pw options.palindromeMinNum = some false

/-- A rule with another result is followed by the next one only if its test fails. The rules are
taken apart from the front with it. -/
theorem ite_eq_iff_of_ne {α : Type*} {c : Prop} [Decidable c] {error rest result : α}
    (herror : error ≠ result) : (if c then error else rest) = result ↔ ¬c ∧ rest = result := by
  split_ifs with h
  · simp [herror, h]
  · simp [h]

/-- A rule that returns its own verdict is followed by the next one only if it accepts. It is the
form of the two rules that return a verdict. -/
theorem ite_verdict_eq_noErr_iff {verdict : PwErrorType} {rest : Except LoadError PwErrorType} :
    (if verdict ≠ .noErr then .ok verdict else rest) = .ok .noErr ↔
      verdict = .noErr ∧ rest = .ok .noErr := by
  split_ifs with h
  · simp [h]
  · simp [not_not.mp h]

/-- The two branches of the palindrome rule are passed if the search finds nothing. -/
theorem passesPalindromeRule_iff {pw : Bytes} {options : Options} :
    PassesPalindromeRule pw options ↔
      ¬((options.palindromeMinNum ≠ 0 ∧ options.palindromeMinNum > 0) ∧
          isIncludePalindrome pw options.palindromeMinNum = none) ∧
        ¬((options.palindromeMinNum ≠ 0 ∧ options.palindromeMinNum > 0) ∧
          isIncludePalindrome pw options.palindromeMinNum = some true) := by
  unfold PassesPalindromeRule
  by_cases hpos : 0 < options.palindromeMinNum
  · rcases isIncludePalindrome pw options.palindromeMinNum with _ | _ | _ <;>
      simp [hpos, hpos.ne']
  · simp [hpos]

/-- The check accepts a password exactly if it is not empty and passes every rule,
unless the rules are switched off. -/
theorem checkWithOptions_eq_noErr_iff {lib : CrackLib} {user pw : Bytes} {options : Options} :
    checkWithOptions lib user pw options = .ok .noErr ↔ pw ≠ [] ∧ (options.enabled = true →
      PassesOtherRules lib user pw options ∧ PassesPalindromeRule pw options) := by
  have hempty : ¬ isEmpty pw = true ↔ pw ≠ [] := by simp [isEmpty]
  unfold checkWithOptions
  rw [ite_eq_iff_of_ne (by decide), hempty]
  refine and_congr_right fun _ => ?_
  by_cases henabled : options.enabled = true
  · rw [if_neg (by simp [henabled]), ite_verdict_eq_noErr_iff, ite_eq_iff_of_ne (by decide),
      ite_eq_iff_of_ne (by decide), ite_verdict_eq_noErr_iff, ite_eq_iff_of_ne (by simp),
      ite_eq_iff_of_ne (by decide), ite_eq_iff_of_ne (by decide), ite_eq_iff_of_ne (by decide),
      ite_eq_iff_of_ne (by decide)]
    constructor
    · rintro ⟨hlength, hupper, huser, htype, hbuffer, hpal, hword, hmono, hsame, -⟩ -
      refine ⟨⟨hlength, ?_, huser, htype, ?_, ?_, ?_⟩, ?_⟩
      · intro hon
        simpa [hon] using hupper
      · intro hon
        simpa [hon] using hword
      · intro hpos
        simpa [hpos, hpos.ne'] using hmono
      · intro hpos
        simpa [hpos, hpos.ne'] using hsame
      · exact passesPalindromeRule_iff.mpr ⟨hbuffer, hpal⟩
    · intro h
      obtain ⟨hrules, hpal⟩ := h henabled
      obtain ⟨hbuffer, hpalindrome⟩ := passesPalindromeRule_iff.mp hpal
      refine ⟨hrules.length, ?_, hrules.username, hrules.type, hbuffer, hpalindrome, ?_, ?_, ?_,
        rfl⟩
      · intro hreject
        obtain ⟨hon, hlower⟩ := Bool.and_eq_true_iff.mp hreject
        simp [hrules.uppercase hon] at hlower
      · rintro ⟨hon, hfound⟩
        simp [hrules.word hon] at hfound
      · rintro ⟨⟨_, hpos⟩, hfound⟩
        simp [hrules.monotone hpos] at hfound
      · rintro ⟨⟨_, hpos⟩, hfound⟩
        simp [hrules.consecutive hpos] at hfound
  · simp [henabled]

/-- A rule that returns a verdict has a result if the rules behind it have one. With it the whole
check has a result if the palindrome search has one. -/
theorem exists_ite_eq_ok {c : Prop} [Decidable c] {verdict : PwErrorType}
    {rest : Except LoadError PwErrorType} (h : ∃ later, rest = .ok later) :
    ∃ result, (if c then .ok verdict else rest) = Except.ok result := by
  split_ifs
  · exact ⟨verdict, rfl⟩
  · exact h

/-- Only the palindrome rule can be without a result. -/
theorem exists_checkWithOptions_eq_ok {options : Options} (h : ¬0 < options.palindromeMinNum)
    (lib : CrackLib) (user pw : Bytes) :
    ∃ verdict, checkWithOptions lib user pw options = .ok verdict := by
  have hnone : ¬((options.palindromeMinNum ≠ 0 ∧ options.palindromeMinNum > 0) ∧
      isIncludePalindrome pw options.palindromeMinNum = none) := fun hrule => h hrule.1.2
  unfold checkWithOptions
  rw [if_neg hnone]
  repeat refine exists_ite_eq_ok ?_
  exact ⟨.noErr, rfl⟩

end DeepinPwCheck
