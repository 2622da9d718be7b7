import DeepinPwCheck.LoadConf

/-!
# The reported limits

The getters that tell other programs which limits are in force. Each of them reads the
file anew, with a fallback of its own, so their answers are compared here with the
options that the check obtains from the same file.
-/

namespace DeepinPwCheck

open CText Ini

/-- A getter of one number: -1 if the file cannot be read. -/
def getIntByConf (ini : Parser) (key : Key) (fallback : ℤ) (file : Option Bytes) : ℤ :=
  match loadFile ini file with
  | none => -1
  | some (_, dic) => getint dic key.name fallback

/-- `get_pw_min_length_by_conf`. -/
def getPwMinLengthByConf (ini : Parser) (file : Option Bytes) : ℤ :=
  getIntByConf ini .passwordMinLength 1 file

/-- `get_pw_max_length_by_conf`. -/
def getPwMaxLengthByConf (ini : Parser) (file : Option Bytes) : ℤ :=
  getIntByConf ini .passwordMaxLength 1 file

/-- `get_pw_min_character_type_by_conf`. -/
def getPwMinCharacterTypeByConf (ini : Parser) (file : Option Bytes) : ℤ :=
  getIntByConf ini .validateRequired 1 file

/-- `get_pw_palimdrome_num_by_conf`. -/
def getPwPalimdromeNumByConf (ini : Parser) (file : Option Bytes) : ℤ :=
  getIntByConf ini .palindromeNum 0 file

/-- `get_pw_monotone_character_num_by_conf`. -/
def getPwMonotoneCharacterNumByConf (ini : Parser) (file : Option Bytes) : ℤ :=
  getIntByConf ini .monotoneCharacterNum 0 file

/-- `get_pw_consecutive_same_character_num_by_conf`. -/
def getPwConsecutiveSameCharacterNumByConf (ini : Parser) (file : Option Bytes) : ℤ :=
  getIntByConf ini .consecutiveSameCharacterNum 0 file

/-- `get_pw_validate_policy_by_conf`: the policy as the INI library reads it, cut to the
static buffer, or the empty string if the file cannot be read. -/
def getPwValidatePolicyByConf (ini : Parser) (file : Option Bytes) : Bytes :=
  match loadFile ini file with
  | none => []
  | some (_, dic) => (getstring dic (Key.name .validatePolicy) []).take 511

/-- The getters report the limits that the options enforce. -/
structure ReportsEnforcedLimits (ini : Parser) (file : Option Bytes) (options : Options) :
    Prop where
  minLen : getPwMinLengthByConf ini file = options.minLen
  maxLen : getPwMaxLengthByConf ini file = options.maxLen
  characterNumRequired : getPwMinCharacterTypeByConf ini file = options.characterNumRequired
  palindromeMinNum : getPwPalimdromeNumByConf ini file = options.palindromeMinNum
  monotoneCharacterNum :
    getPwMonotoneCharacterNumByConf ini file = options.monotoneCharacterNum
  consecutiveSameCharacterNum :
    getPwConsecutiveSameCharacterNumByConf ini file = options.consecutiveSameCharacterNum

/-- A getter of a number on a readable file. The getters differ in the key and the fallback
only. -/
theorem getIntByConf_of_load {ini : Parser} {text : Bytes} {dic : Dictionary}
    (h : ini.load text = some dic) (key : Key) (fallback : ℤ) :
    getIntByConf ini key fallback (some text) = getint dic key.name fallback := by
  simp [getIntByConf, loadFile, h]

/-- Two fallbacks make no difference exactly if the key is there. The reported and the enforced
limits differ in one fallback. -/
theorem getint_fallback_iff {dic : Dictionary} {name : Bytes} {a b : ℤ} (hne : a ≠ b) :
    getint dic name a = getint dic name b ↔ findEntry dic name = true := by
  unfold getint findEntry
  cases dic.get name with
  | none => simpa using hne
  | some text => simp

/-- The options that loading a readable file gives. Each option is compared with its getter
through it. -/
theorem options_of_loadPwdConf {ini : Parser} {text : Bytes} {dic : Dictionary}
    {updated : Option Bytes} {options : Options} (hload : ini.load text = some dic)
    (h : loadPwdConf ini (some text) updated = .ok options) :
    ∃ characterType, characterTypeOf text dic = .ok characterType ∧
      options = optionsOf dic characterType := by
  rw [loadPwdConf_of_load hload] at h
  cases hpolicy : characterTypeOf text dic with
  | error e =>
      rw [hpolicy] at h
      cases h
  | ok characterType =>
      rw [hpolicy] at h
      cases h
      exact ⟨characterType, rfl, rfl⟩

/-- **Reported limits.** The getters report the limits that the check enforces exactly if the
file sets the greatest length: its two readers disagree about the fallback of that key only. -/
theorem reportsEnforcedLimits_iff {ini : Parser} {text : Bytes} {dic : Dictionary}
    {updated : Option Bytes} {options : Options} (hload : ini.load text = some dic)
    (hoptions : loadPwdConf ini (some text) updated = .ok options) :
    ReportsEnforcedLimits ini (some text) options ↔
      findEntry dic (Key.name .passwordMaxLength) = true := by
  obtain ⟨characterType, -, rfl⟩ := options_of_loadPwdConf hload hoptions
  have hmax : getPwMaxLengthByConf ini (some text) = (optionsOf dic characterType).maxLen ↔
      findEntry dic (Key.name .passwordMaxLength) = true := by
    unfold getPwMaxLengthByConf
    rw [getIntByConf_of_load hload]
    exact getint_fallback_iff (by decide)
  constructor
  · intro h
    exact hmax.mp h.maxLen
  · intro h
    refine ⟨?_, hmax.mpr h, ?_, ?_, ?_, ?_⟩
    all_goals exact getIntByConf_of_load hload _ _

/-- A file that sets the greatest length only. -/
def maxLengthFile : Bytes := bytes "[Password]\nPASSWORD_MAX_LENGTH = 16\n"

/-- On a file that sets the greatest length the reported limits are the enforced ones. -/
theorem reportsEnforcedLimits_iff_maxLengthFile :
    ∃ dic options, iniparser.load maxLengthFile = some dic ∧
      loadPwdConf iniparser (some maxLengthFile) none = .ok options ∧ options.maxLen = 16 ∧
      ReportsEnforcedLimits iniparser (some maxLengthFile) options :=
  ⟨_, _, rfl, rfl, rfl,
    (@reportsEnforcedLimits_iff iniparser maxLengthFile _ none _ rfl rfl).mpr rfl⟩

/-- On a file without settings the check accepts 512 bytes, and 1 is reported. -/
theorem reportedLimits_differ :
    ∃ options, loadPwdConf iniparser (some (bytes "[Password]\n")) none = .ok options ∧
      options.maxLen = 512 ∧
      getPwMaxLengthByConf iniparser (some (bytes "[Password]\n")) = 1 ∧
      ¬ ReportsEnforcedLimits iniparser (some (bytes "[Password]\n")) options := by
  refine ⟨_, rfl, rfl, rfl, ?_⟩
  intro h
  exact absurd h.maxLen (by decide)

end DeepinPwCheck
