import DeepinPwCheck.Acceptance
import DeepinPwCheck.StrengthLevel

/-!
# How strong an accepted password is

The check counts the groups of the policy that a password hits, the level counts four fixed
kinds of characters. Where every group has characters of one kind and no two groups share a kind,
the second count is at least the first, so the limits of a configuration bound the level of what
the configuration accepts.
-/

namespace DeepinPwCheck

open CText Ini

/-- The four kinds of characters that the level counts. -/
def levelKinds : List (Byte → Bool) := [isDigit, isLowerCase, isUpperCase, isOtherCharacter]

/-- Every group of the policy has characters of one kind, and no two groups share a kind. -/
def OneKindEach (policy : Bytes) : Prop :=
  ∃ kinds, kinds.Subperm levelKinds ∧
    List.Forall₂ (fun group kind => ∀ c ∈ group, kind c = true) (typeGroups policy) kinds

/-- The kinds that are counted are those that occur. It turns four tests into a count over a list,
which the groups can be compared with. -/
theorem typeCount_eq_countP (pw : Bytes) :
    typeCount pw = levelKinds.countP fun kind => pw.any kind := by
  have hoccurs : ∀ kind : Byte → Bool, 0 < pw.countP kind ↔ pw.any kind = true := by
    intro kind
    rw [List.countP_pos_iff, List.any_eq_true]
  unfold typeCount levelKinds
  simp only [hoccurs, List.countP_cons, List.countP_nil]
  push_cast
  ring

/-- A count is at most a count over entries that are hit whenever their partners are. It compares
the groups of a policy with the kinds of the strength function. -/
theorem countP_le_of_forall₂ {α β : Type*} {R : α → β → Prop} {hit : α → Bool} {seen : β → Bool}
    (himp : ∀ a b, R a b → hit a = true → seen b = true) {groups : List α} {kinds : List β}
    (h : List.Forall₂ R groups kinds) : groups.countP hit ≤ kinds.countP seen := by
  induction h with
  | nil => simp
  | @cons group kind groups kinds hR _ ih =>
      rw [List.countP_cons, List.countP_cons]
      by_cases hhit : hit group = true
      · rw [if_pos hhit, if_pos (himp _ _ hR hhit)]
        omega
      · rw [if_neg hhit]
        omega

/-- Each group that is hit gives a kind of its own. This is where the two functions meet: both
count over the same bytes. -/
theorem groupCount_le_typeCount {policy : Bytes} (h : OneKindEach policy) (pw : Bytes) :
    (groupCount pw policy : ℤ) ≤ typeCount pw := by
  obtain ⟨kinds, hsub, hgroups⟩ := h
  have hshared : ∀ (group : Bytes) (kind : Byte → Bool), (∀ c ∈ group, kind c = true) →
      sharesByte pw group = true → pw.any kind = true := by
    intro group kind hkind hshares
    obtain ⟨c, hc, hmem⟩ := List.any_eq_true.mp hshares
    exact List.any_eq_true.mpr ⟨c, hc, hkind c (of_decide_eq_true hmem)⟩
  have hkinds : groupCount pw policy ≤ kinds.countP fun kind => pw.any kind :=
    countP_le_of_forall₂ hshared hgroups
  have hall := hsub.countP_le fun kind => pw.any kind
  rw [typeCount_eq_countP]
  omega

/-- A dictionary of the caller changes nothing else of the options. The level does not depend on
it. -/
theorem getDefaultOptions_of_load {ini : Parser} {file updated : Option Bytes} {options : Options}
    (hload : loadPwdConf ini file updated = .ok options) (dictPath : Option Bytes) :
    ∃ path, getDefaultOptions ini dictPath file updated =
      .ok { options with dictPath := path } := by
  unfold getDefaultOptions
  rw [hload]
  cases dictPath with
  | none => exact ⟨options.dictPath, rfl⟩
  | some path =>
      by_cases hkeep : path = [] ∨ options.dictPath = []
      · refine ⟨options.dictPath, ?_⟩
        simp [Except.map, hkeep]
      · refine ⟨path.take 255, ?_⟩
        simp [Except.map, hkeep]

/-- What an accepted password has at least. Only the length rule and the character rule are needed
of the check. -/
theorem accepted_limits {ini : Parser} {lib : CrackLib} {user pw : Bytes}
    {dictPath file updated : Option Bytes} {options : Options}
    (hload : loadPwdConf ini file updated = .ok options) (henabled : options.enabled = true)
    (hkinds : OneKindEach options.characterType)
    (haccepted : deepinPwCheckByConf ini lib user pw dictPath file updated = .ok .noErr) :
    options.minLen ≤ intLength pw ∧ options.characterNumRequired ≤ typeCount (seen pw) := by
  obtain ⟨path, hdefault⟩ := getDefaultOptions_of_load hload dictPath
  unfold deepinPwCheckByConf at haccepted
  rw [hdefault] at haccepted
  dsimp only at haccepted
  rw [checkWithOptions_eq_noErr_iff] at haccepted
  obtain ⟨hrules, -⟩ := haccepted.2 henabled
  have henough := (isTypeValid_eq_noErr_iff.mp hrules.type).2.2
  rw [typeLoop_eq] at henough
  have hgroups := groupCount_le_typeCount hkinds (seen pw)
  exact ⟨(isLengthValid_eq_noErr_iff.mp hrules.length).1, henough.trans hgroups⟩

/-- **The strength of an accepted password.** A configuration whose limits reach the thresholds
of a level accepts only passwords of at least that level. -/
theorem accepted_strengthLevel {ini : Parser} {lib : CrackLib} {user pw : Bytes}
    {dictPath file updated : Option Bytes} {options : Options}
    (hload : loadPwdConf ini file updated = .ok options) (henabled : options.enabled = true)
    (hkinds : OneKindEach options.characterType)
    (haccepted : deepinPwCheckByConf ini lib user pw dictPath file updated = .ok .noErr) :
    (options.passwordLengthStandardHigh ≤ options.minLen →
      options.passwordCharacterTypeNumHigh ≤ options.characterNumRequired →
        getNewPasswdStrengthLevelByConf ini (some pw) file updated = .ok .high) ∧
    (options.passwordLengthStandardMiddle ≤ options.minLen →
      options.passwordCharacterTypeNumMiddle ≤ options.characterNumRequired →
        getNewPasswdStrengthLevelByConf ini (some pw) file updated ≠ .ok .low) := by
  obtain ⟨hlength, htypes⟩ := accepted_limits hload henabled hkinds haccepted
  have hlevel : getNewPasswdStrengthLevelByConf ini (some pw) file updated =
      .ok (strengthLevel options pw) := by
    unfold getNewPasswdStrengthLevelByConf
    rw [hload]
  rw [hlevel]
  constructor
  · intro hhigh htypeHigh
    have hreached : intLength pw ≥ options.passwordLengthStandardHigh ∧
        typeCount (seen pw) ≥ options.passwordCharacterTypeNumHigh :=
      ⟨hhigh.trans hlength, htypeHigh.trans htypes⟩
    rw [strengthLevel, if_pos hreached]
  · intro hmiddle htypeMiddle
    have hreached : intLength pw ≥ options.passwordLengthStandardMiddle ∧
        typeCount (seen pw) ≥ options.passwordCharacterTypeNumMiddle :=
      ⟨hmiddle.trans hlength, htypeMiddle.trans htypes⟩
    rw [strengthLevel, if_pos hreached]
    split_ifs
    · simp
    · simp

/-- The groups of the default policy: the symbols before and after the inner `;` are one group,
with the `;`. -/
theorem typeGroups_defaultPolicy : typeGroups defaultPolicy = [bytes "1234567890",
    bytes "abcdefghijklmnopqrstuvwxyz", bytes "ABCDEFGHIJKLMNOPQRSTUVWXYZ",
    bytes "!\"#$%&'()*+,-./:;<=>?@[\\]^_`\x7b|\x7d~/"] := by
  rw [defaultPolicy]
  repeat rw [bytes_ofList]
  decide +kernel

/-- The default policy has one group for each kind. The theorem applies to every file of the
tool. -/
theorem oneKindEach_defaultPolicy : OneKindEach defaultPolicy := by
  refine ⟨levelKinds, List.Subperm.refl _, ?_⟩
  rw [typeGroups_defaultPolicy]
  refine .cons ?_ (.cons ?_ (.cons ?_ (.cons ?_ .nil)))
  all_goals
    rw [bytes_ofList]
    decide +kernel

/-- A file whose limits are the default thresholds of the highest level. -/
def highLimitsFile : Bytes :=
  bytes "[Password]\nPASSWORD_MIN_LENGTH = 8\nVALIDATE_REQUIRED = 3\n"

/-- Its options. -/
def highLimitsOptions : Options where
  enabled := true
  minLen := 8
  maxLen := 512
  characterType := defaultPolicy
  characterNumRequired := 3
  palindromeMinNum := 0
  checkWord := 0
  dictPath := []
  monotoneCharacterNum := 0
  consecutiveSameCharacterNum := 0
  firstLetterUppercase := false
  passwordLengthStandardHigh := 8
  passwordLengthStandardMiddle := 6
  passwordCharacterTypeNumHigh := 3
  passwordCharacterTypeNumMiddle := 2

/-- What such a file accepts is of the highest level. -/
theorem accepted_strengthLevel_highLimitsFile :
    getNewPasswdStrengthLevelByConf iniparser (some (bytes "Tk4wQz9s")) (some highLimitsFile)
      none = .ok .high := by
  have hload : loadPwdConf iniparser (some highLimitsFile) none = .ok highLimitsOptions := by
    rw [highLimitsFile, bytes_ofList]
    rfl
  have haccepted : deepinPwCheckByConf iniparser noDictionary (bytes "user") (bytes "Tk4wQz9s")
      none (some highLimitsFile) none = .ok .noErr := by
    unfold deepinPwCheckByConf getDefaultOptions
    rw [hload, highLimitsOptions, defaultPolicy]
    repeat rw [bytes_ofList]
    decide +kernel
  have hhigh := (accepted_strengthLevel hload rfl oneKindEach_defaultPolicy haccepted).1
  exact hhigh (by decide) (by decide)

end DeepinPwCheck
