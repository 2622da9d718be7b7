import DeepinPwCheck.LoadConf
import DeepinPwCheck.Strictness

/-!
# Dictionary hits

`word_check` has three results, and `is_word` makes a `bool` of them: 1 for a hit, 0 for
none, and -1 for a dictionary that cannot be opened. This file separates the two ways
to `PW_ERR_WORD`.
-/

namespace DeepinPwCheck

open CText Ini

/-- The path that `word_check` opens. -/
def openedPath (lib : CrackLib) (dictPath : Option Bytes) : Bytes :=
  match dictPath with
  | none | some [] => lib.getDefaultCracklibDict
  | some path => path

/-- The mangled password under a rule is found in an open dictionary. -/
def RuleHits (lib : CrackLib) (pw : Bytes) (pwp : lib.PwDict) (rule : String) : Prop :=
  ∃ a, lib.mangle pw rule = some a ∧ lib.findPw pwp a ≠ lib.pwWords pwp

/-- The dictionary can be opened, and some rule hits in it. -/
def DictionaryHit (lib : CrackLib) (pw : Bytes) (dictPath : Bytes) : Prop :=
  ∃ pwp, lib.pwOpen (openedPath lib (some dictPath)) = some pwp ∧
    ∃ rule ∈ rDestructors, RuleHits lib pw pwp rule

/-- The rules in front of the dictionary rule let the password through, and that rule is on. -/
structure ReachesWordRule (user pw : Bytes) (options : Options) : Prop where
  nonempty : pw ≠ []
  enabled : options.enabled = true
  length : isLengthValid pw options.minLen options.maxLen = .noErr
  uppercase : options.firstLetterUppercase = true → isFirstLetterUppercase pw = true
  username : ¬(8 ≤ options.minLen ∧ 3 ≤ options.characterNumRequired ∧ user = pw)
  type : isTypeValid pw options.characterType options.characterNumRequired = .noErr
  palindrome : PassesPalindromeRule pw options
  word : options.checkWord ≠ 0

/-- The loop over the rules ends with 1 if one of them hits. A later rule without a hit does not
take an earlier one back. -/
theorem foldl_rules_ne_zero_iff {rules : List String} {hits : String → Prop}
    [DecidablePred hits] {ret : ℤ} :
    rules.foldl (fun ret rule => if hits rule then 1 else ret) ret ≠ 0 ↔
      ret ≠ 0 ∨ ∃ rule ∈ rules, hits rule := by
  induction rules generalizing ret with
  | nil => simp
  | cons rule rules ih =>
    rw [List.foldl_cons, ih]
    by_cases hrule : hits rule
    · simp [hrule]
    · simp [hrule]

/-- `word_check` on a dictionary that cannot be opened. The result -1 is what `is_word` takes for
true. -/
theorem wordCheck_of_closed {lib : CrackLib} {pw dictPath : Bytes}
    (hopen : lib.pwOpen (openedPath lib (some dictPath)) = none) :
    wordCheck lib pw (some dictPath) = -1 := by
  unfold wordCheck
  cases dictPath
  all_goals
    dsimp only [openedPath] at hopen
    simp only [hopen]

open Classical in
/-- `word_check` on an open dictionary keeps the hit of any rule. -/
theorem wordCheck_of_open {lib : CrackLib} {pw dictPath : Bytes} {pwp : lib.PwDict}
    (hopen : lib.pwOpen (openedPath lib (some dictPath)) = some pwp) :
    wordCheck lib pw (some dictPath) =
      rDestructors.foldl (fun ret rule => if RuleHits lib pw pwp rule then 1 else ret) 0 := by
  unfold wordCheck
  -- the empty path stands for the default
  cases dictPath
  all_goals
    dsimp only [openedPath] at hopen
    simp only [hopen]
    refine List.foldl_ext _ _ _ fun ret rule _ => ?_
    unfold RuleHits
    cases lib.mangle pw rule with
    | none => simp
    | some a => simp

/-- `is_word` answers true for a hit, and for a dictionary that cannot be opened. The result -1 of
a failing open is narrowed to true. -/
theorem isWord_iff {lib : CrackLib} {pw dictPath : Bytes} :
    isWord lib pw (some dictPath) = true ↔
      lib.pwOpen (openedPath lib (some dictPath)) = none ∨ DictionaryHit lib pw dictPath := by
  unfold isWord DictionaryHit
  rw [decide_eq_true_eq]
  cases hopen : lib.pwOpen (openedPath lib (some dictPath)) with
  | none =>
    rw [wordCheck_of_closed hopen]
    simp
  | some pwp =>
    classical
    rw [wordCheck_of_open hopen, foldl_rules_ne_zero_iff]
    simp

/-- The length rule does not speak of words. The verdict can only come from a later rule. -/
theorem isLengthValid_ne_word (pw : Bytes) (minLen maxLen : ℤ) :
    isLengthValid pw minLen maxLen ≠ .word := by
  unfold isLengthValid
  split_ifs <;> decide

/-- The character rule does not speak of words. The verdict can only come from a later rule. -/
theorem isTypeValid_ne_word (pw policy : Bytes) (required : ℤ) :
    isTypeValid pw policy required ≠ .word := by
  unfold isTypeValid
  dsimp only
  split_ifs <;> decide

/-- The verdict comes from the dictionary rule. All rules in front of it have to pass, and none
behind it matters. -/
theorem checkWithOptions_eq_word_iff {lib : CrackLib} {user pw : Bytes} {options : Options} :
    checkWithOptions lib user pw options = .ok .word ↔
      ReachesWordRule user pw options ∧ isWord lib pw (some options.dictPath) = true := by
  unfold checkWithOptions
  rw [ite_eq_iff_of_ne (by decide), ite_eq_iff_of_ne (by decide),
    ite_eq_iff_of_ne (by simp [isLengthValid_ne_word]),
    ite_eq_iff_of_ne (by decide), ite_eq_iff_of_ne (by decide),
    ite_eq_iff_of_ne (by simp [isTypeValid_ne_word]),
    ite_eq_iff_of_ne (by simp), ite_eq_iff_of_ne (by decide)]
  constructor
  · rintro ⟨hempty, henabled, hlength, hupper, huser, htype, hbuffer, hpalindrome, hrest⟩
    have hfound : options.checkWord ≠ 0 ∧ isWord lib pw (some options.dictPath) = true := by
      by_contra hmissed
      rw [if_neg hmissed] at hrest
      split_ifs at hrest <;> cases hrest
    refine ⟨⟨?_, by simpa using henabled, not_not.mp hlength, ?_, huser, not_not.mp htype, ?_,
      hfound.1⟩, hfound.2⟩
    · rintro rfl
      exact hempty rfl
    · intro hon
      simpa [hon] using hupper
    · exact passesPalindromeRule_iff.mpr ⟨hbuffer, hpalindrome⟩
  · rintro ⟨hreach, hfound⟩
    obtain ⟨hbuffer, hpalindrome⟩ := passesPalindromeRule_iff.mp hreach.palindrome
    refine ⟨by simpa [isEmpty] using hreach.nonempty, by simp [hreach.enabled],
      not_not.mpr hreach.length, ?_, hreach.username, not_not.mpr hreach.type, hbuffer,
      hpalindrome, ?_⟩
    · intro hreject
      obtain ⟨hon, hlower⟩ := Bool.and_eq_true_iff.mp hreject
      simp [hreach.uppercase hon] at hlower
    · rw [if_pos ⟨hreach.word, hfound⟩]

/-- **Dictionary hits.** The verdict is `PW_ERR_WORD` for a hit only, except when the dictionary
rule is reached and the dictionary cannot be opened. -/
theorem deepinPwCheckByConf_word_iff (ini : Parser) (lib : CrackLib) (user pw : Bytes)
    (dictPath file updated : Option Bytes) :
    (deepinPwCheckByConf ini lib user pw dictPath file updated = .ok .word ↔
        ∃ options, getDefaultOptions ini dictPath file updated = .ok options ∧
          ReachesWordRule user pw options ∧ DictionaryHit lib pw options.dictPath) ↔
      ∀ options, getDefaultOptions ini dictPath file updated = .ok options →
        ReachesWordRule user pw options →
          lib.pwOpen (openedPath lib (some options.dictPath)) ≠ none := by
  unfold deepinPwCheckByConf
  cases hoptions : getDefaultOptions ini dictPath file updated with
  | error e => cases e <;> simp
  | ok options =>
    simp only [Except.ok.injEq, checkWithOptions_eq_word_iff, isWord_iff, exists_eq_left',
      forall_eq']
    constructor
    · rintro hiff hreach hclosed
      obtain ⟨-, pwp, hopen, -⟩ := hiff.mp ⟨hreach, Or.inl hclosed⟩
      rw [hclosed] at hopen
      exact absurd hopen (by simp)
    · intro hopens
      constructor
      · rintro ⟨hreach, hclosed | hhit⟩
        · exact absurd hclosed (hopens hreach)
        · exact ⟨hreach, hhit⟩
      · rintro ⟨hreach, hhit⟩
        exact ⟨hreach, Or.inr hhit⟩

/-- The dictionary rule alone. -/
def wordCheckFile : Bytes := bytes "[Password]\nWORD_CHECK = 1\n"

/-- Without a dictionary every password that gets so far is taken for a word. -/
theorem deepinPwCheckByConf_word_without_dictionary :
    ¬∀ (ini : Parser) (lib : CrackLib) (user pw : Bytes) (dictPath file updated : Option Bytes),
      deepinPwCheckByConf ini lib user pw dictPath file updated = .ok .word ↔
        ∃ options, getDefaultOptions ini dictPath file updated = .ok options ∧
          ReachesWordRule user pw options ∧ DictionaryHit lib pw options.dictPath := by
  intro h
  have hverdict : deepinPwCheckByConf iniparser noDictionary (bytes "user") (bytes "qwGz71")
      none (some wordCheckFile) none = .ok .word := by decide +kernel
  obtain ⟨options, -, -, pwp, -⟩ := (h _ _ _ _ _ _ _).mp hverdict
  exact pwp.elim

end DeepinPwCheck
