import DeepinPwCheck.Check

/-!
# Tightening the options

Making every setting at least as strict should only reject more passwords. Every
rule but one is monotone in its setting. The palindrome search is not: a smaller
minimum also shortens the stretch of starts that it examines.
-/

namespace DeepinPwCheck

open CText

/-- A threshold that is in force stays in force and does not grow. -/
def Tightened (loose tight : ℤ) : Prop := 0 < loose → 0 < tight ∧ tight ≤ loose

/-- `tight` is at least as strict as `loose` on every setting, with the same policy and
the same dictionary. -/
structure AtLeastAsStrict (loose tight : Options) : Prop where
  characterType : loose.characterType = tight.characterType
  dictPath : loose.dictPath = tight.dictPath
  enabled : loose.enabled = true → tight.enabled = true
  minLen : loose.minLen ≤ tight.minLen
  maxLen : tight.maxLen ≤ loose.maxLen
  characterNumRequired : loose.characterNumRequired ≤ tight.characterNumRequired
  firstLetterUppercase : loose.firstLetterUppercase = true → tight.firstLetterUppercase = true
  checkWord : loose.checkWord ≠ 0 → tight.checkWord ≠ 0
  palindromeMinNum : Tightened loose.palindromeMinNum tight.palindromeMinNum
  monotoneCharacterNum : Tightened loose.monotoneCharacterNum tight.monotoneCharacterNum
  consecutiveSameCharacterNum :
    Tightened loose.consecutiveSameCharacterNum tight.consecutiveSameCharacterNum

/-- The search for palindromes with the given minimum meets one. -/
def PalindromeInReach (pw : Bytes) (palindromeMinNum : ℤ) : Prop :=
  ∃ start length, Searched pw (2 * palindromeMinNum).toNat start length ∧
    PalindromeAt pw start length

/-- The looser search meets a palindrome, the tighter one does not get that far, and
no other rule of the tighter options rejects the password either. There is a search, that is,
a buffer for its copies. -/
structure PalindromeEscapes (lib : CrackLib) (user pw : Bytes) (loose tight : Options) : Prop where
  enabled : loose.enabled = true
  inForce : 0 < loose.palindromeMinNum
  allocated : Allocated pw
  inLooseReach : PalindromeInReach pw loose.palindromeMinNum
  notInTightReach : ¬PalindromeInReach pw tight.palindromeMinNum
  otherRules : PassesOtherRules lib user pw tight

/-- The length rule accepts exactly the lengths between its bounds, as an `int`. Raising the least
length or lowering the greatest one can only reject more. -/
theorem isLengthValid_eq_noErr_iff {pw : Bytes} {minLen maxLen : ℤ} :
    isLengthValid pw minLen maxLen = .noErr ↔ minLen ≤ intLength pw ∧ intLength pw ≤ maxLen := by
  unfold isLengthValid
  split_ifs with hshort hlong
  · simp only [false_iff, not_and]
    omega
  · simp only [false_iff, not_and]
    omega
  · simp only [true_iff]
    omega

/-- Every rule besides the palindrome rule lets through under the looser options what
it lets through under the tighter ones. -/
theorem PassesOtherRules.loosen {lib : CrackLib} {user pw : Bytes} {loose tight : Options}
    (hpass : PassesOtherRules lib user pw tight) (h : AtLeastAsStrict loose tight) :
    PassesOtherRules lib user pw loose where
  length := by
    have hlength := isLengthValid_eq_noErr_iff.mp hpass.length
    exact isLengthValid_eq_noErr_iff.mpr ⟨h.minLen.trans hlength.1, hlength.2.trans h.maxLen⟩
  uppercase := fun hon => hpass.uppercase (h.firstLetterUppercase hon)
  username := by
    rintro ⟨hmin, hrequired, hsame⟩
    exact hpass.username
      ⟨hmin.trans h.minLen, hrequired.trans h.characterNumRequired, hsame⟩
  type := by
    rw [h.characterType]
    exact isTypeValid_mono h.characterNumRequired hpass.type
  word := by
    intro hon
    rw [h.dictPath]
    exact hpass.word (h.checkWord hon)
  monotone := by
    intro hpos
    obtain ⟨htight, hle⟩ := h.monotoneCharacterNum hpos
    have hfalse := hpass.monotone htight
    rw [Bool.eq_false_iff] at hfalse ⊢
    exact fun hfound => absurd (isMonotoneCharacter_mono hle hfound) hfalse
  consecutive := by
    intro hpos
    obtain ⟨htight, hle⟩ := h.consecutiveSameCharacterNum hpos
    have hfalse := hpass.consecutive htight
    rw [Bool.eq_false_iff] at hfalse ⊢
    exact fun hfound => absurd (isConsecutiveSameCharacter_mono hle hfound) hfalse

/-- A palindrome that is searched for has at least two bytes, so the password is not empty. An
empty password is thus never the exception to the theorem. -/
theorem PalindromeInReach.ne_nil {pw : Bytes} {n : ℤ} (hpos : 0 < n)
    (h : PalindromeInReach pw n) : pw ≠ [] := by
  obtain ⟨start, length, ⟨hwidth, -⟩, hfits, -⟩ := h
  rintro rfl
  simp only [List.length_nil] at hfits
  omega

/-- The palindrome rule lets a password through for which there is a buffer and whose
palindromes the search does not reach. -/
theorem passesPalindromeRule_iff_inReach {pw : Bytes} {options : Options}
    (hpos : 0 < options.palindromeMinNum) (hsmall : options.palindromeMinNum < 2 ^ 30) :
    PassesPalindromeRule pw options ↔
      Allocated pw ∧ ¬PalindromeInReach pw options.palindromeMinNum := by
  have hsearch := @isIncludePalindrome_iff pw _ hpos hsmall
  have hnone := @isIncludePalindrome_eq_none_iff pw options.palindromeMinNum
  unfold PassesPalindromeRule PalindromeInReach
  rw [forall_prop_of_true hpos]
  rcases hfound : isIncludePalindrome pw options.palindromeMinNum with _ | _ | _
  · simp [hnone.mp hfound]
  · rw [hfound] at hsearch hnone
    simp only [Option.some.injEq, Bool.false_eq_true, reduceCtorEq, false_iff, not_not]
      at hsearch hnone
    simp only [true_iff]
    exact ⟨hnone, fun hreach => hsearch ⟨hnone, hreach⟩⟩
  · have hreach := (hsearch.mp hfound).2
    simp [hreach]

/-- **Strictness.** A password that passes the tighter options passes the looser ones,
except when a palindrome lies in reach of the looser search only. -/
theorem checkWithOptions_tighten_iff (lib : CrackLib) (user pw : Bytes) (loose tight : Options)
    (h : AtLeastAsStrict loose tight) (hsmall : loose.palindromeMinNum < 2 ^ 30) :
    (checkWithOptions lib user pw tight = .ok .noErr →
        checkWithOptions lib user pw loose = .ok .noErr) ↔
      ¬PalindromeEscapes lib user pw loose tight := by
  have hlooseRule (hpos : 0 < loose.palindromeMinNum) :=
    @passesPalindromeRule_iff_inReach pw _ hpos hsmall
  have htightRule (hpos : 0 < loose.palindromeMinNum) : PassesPalindromeRule pw tight ↔
      Allocated pw ∧ ¬PalindromeInReach pw tight.palindromeMinNum := by
    obtain ⟨htight, hle⟩ := h.palindromeMinNum hpos
    exact passesPalindromeRule_iff_inReach htight (by omega)
  constructor
  · intro himp hescape
    have hpos := hescape.inForce
    have htight : checkWithOptions lib user pw tight = .ok .noErr := by
      rw [checkWithOptions_eq_noErr_iff]
      refine ⟨hescape.inLooseReach.ne_nil hpos, fun _ => ⟨hescape.otherRules, ?_⟩⟩
      exact (htightRule hpos).mpr ⟨hescape.allocated, hescape.notInTightReach⟩
    obtain ⟨_, hrules⟩ := checkWithOptions_eq_noErr_iff.mp (himp htight)
    exact ((hlooseRule hpos).mp (hrules hescape.enabled).2).2 hescape.inLooseReach
  · intro hnone htight
    rw [checkWithOptions_eq_noErr_iff] at htight ⊢
    refine ⟨htight.1, fun henabled => ?_⟩
    obtain ⟨hrules, hpalindrome⟩ := htight.2 (h.enabled henabled)
    refine ⟨hrules.loosen h, ?_⟩
    by_cases hpos : 0 < loose.palindromeMinNum
    · obtain ⟨hbuffer, hmissed⟩ := (htightRule hpos).mp hpalindrome
      rw [hlooseRule hpos]
      refine ⟨hbuffer, fun hfound => ?_⟩
      exact hnone ⟨henabled, hpos, hbuffer, hfound, hmissed, hrules⟩
    · exact fun hlater => absurd hlater hpos

/-- Options that ask for nothing but palindromes of at least four bytes. -/
def fourBytePalindromes : Options where
  enabled := true
  maxLen := 512
  minLen := 1
  characterType := bytes "1234567890;abcdefghijklmnopqrstuvwxyz;ABCDEFGHIJKLMNOPQRSTUVWXYZ"
  characterNumRequired := 1
  palindromeMinNum := 2
  dictPath := []
  checkWord := 0
  firstLetterUppercase := false
  monotoneCharacterNum := 0
  consecutiveSameCharacterNum := 0
  passwordLengthStandardHigh := 8
  passwordLengthStandardMiddle := 6
  passwordCharacterTypeNumHigh := 3
  passwordCharacterTypeNumMiddle := 2

/-- The same options for palindromes of at least two bytes. -/
def twoBytePalindromes : Options := { fourBytePalindromes with palindromeMinNum := 1 }

/-- A dictionary library without an installed dictionary. -/
def noDictionary : CrackLib where
  PwDict := Empty
  getDefaultCracklibDict := bytes "/var/cache/cracklib/cracklib_dict"
  pwOpen := fun _ => none
  pwWords := Empty.elim
  mangle := fun _ _ => none
  findPw := fun pwp _ => pwp.elim

/-- Only the minimum for palindromes differs. Tightening it is the one change between the two
configurations, so a password that only the tighter one lets through is due to the search. -/
theorem twoBytePalindromes_strict : AtLeastAsStrict fourBytePalindromes twoBytePalindromes := by
  constructor <;> simp [fourBytePalindromes, twoBytePalindromes, Tightened]

/-- Lowering the minimum from two to one lets `xyzabba` through: its only palindromes
start at the fourth byte, where the search for two bytes no longer looks. -/
theorem checkWithOptions_tighten_fails :
    AtLeastAsStrict fourBytePalindromes twoBytePalindromes ∧
      checkWithOptions noDictionary (bytes "user") (bytes "xyzabba") twoBytePalindromes =
          .ok .noErr ∧
      checkWithOptions noDictionary (bytes "user") (bytes "xyzabba") fourBytePalindromes =
        .ok .palindrome :=
  ⟨twoBytePalindromes_strict, by decide +kernel, by decide +kernel⟩

/-- The equivalence at a password without palindromes. -/
theorem checkWithOptions_tighten_iff_abc :
    (checkWithOptions noDictionary (bytes "user") (bytes "abc") twoBytePalindromes = .ok .noErr →
      checkWithOptions noDictionary (bytes "user") (bytes "abc") fourBytePalindromes =
        .ok .noErr) ↔
      ¬PalindromeEscapes noDictionary (bytes "user") (bytes "abc") fourBytePalindromes
        twoBytePalindromes :=
  checkWithOptions_tighten_iff noDictionary (bytes "user") (bytes "abc") fourBytePalindromes
    twoBytePalindromes twoBytePalindromes_strict (by decide)

end DeepinPwCheck
