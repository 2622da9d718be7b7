import DeepinPwCheck.Check
import DeepinPwCheck.Ini.Settings
import DeepinPwCheck.PolicyReader

/-!
# Loading the configuration file

`load_pwd_conf` and its callers: the options that a file gives to the check, with the
fallback value of each key. A file that cannot be read makes the library run the update
tool once and read again.
-/

namespace DeepinPwCheck

open CText Ini

/-- The keys of the `[Password]` section. -/
inductive Key where
  | strongPassword
  | passwordMinLength
  | passwordMaxLength
  | validatePolicy
  | validateRequired
  | palindromeNum
  | wordCheck
  | monotoneCharacterNum
  | consecutiveSameCharacterNum
  | dictPath
  | firstLetterUppercase
  | passwordLengthStandardHigh
  | passwordLengthStandardMiddle
  | passwordCharacterTypeNumHigh
  | passwordCharacterTypeNumMiddle
  deriving DecidableEq, Repr

/-- A key as a file spells it. -/
def Key.text : Key → Bytes
  | strongPassword => bytes "STRONG_PASSWORD"
  | passwordMinLength => bytes "PASSWORD_MIN_LENGTH"
  | passwordMaxLength => bytes "PASSWORD_MAX_LENGTH"
  | validatePolicy => bytes "VALIDATE_POLICY"
  | validateRequired => bytes "VALIDATE_REQUIRED"
  | palindromeNum => bytes "PALINDROME_NUM"
  | wordCheck => bytes "WORD_CHECK"
  | monotoneCharacterNum => bytes "MONOTONE_CHARACTER_NUM"
  | consecutiveSameCharacterNum => bytes "CONSECUTIVE_SAME_CHARACTER_NUM"
  | dictPath => bytes "DICT_PATH"
  | firstLetterUppercase => bytes "FIRST_LETTER_UPPERCASE"
  | passwordLengthStandardHigh => bytes "PASSWORD_LENGTH_STANDARD_HIGH"
  | passwordLengthStandardMiddle => bytes "PASSWORD_LENGTH_STANDARD_MIDDLE"
  | passwordCharacterTypeNumHigh => bytes "PASSWORD_CHARACTER_TYPE_NUM_HIGH"
  | passwordCharacterTypeNumMiddle => bytes "PASSWORD_CHARACTER_TYPE_NUM_MIDDLE"

/-- The name under which a key is looked up. -/
def Key.name (key : Key) : Bytes := bytes "Password:" ++ key.text

/-- The policy of a file that has none. -/
def defaultPolicy : Bytes :=
  bytes "1234567890;abcdefghijklmnopqrstuvwxyz;ABCDEFGHIJKLMNOPQRSTUVWXYZ;" ++
    bytes "!\"#$%&'()*+,-./:;<=>?@[\\]^_`\x7b|\x7d~/"

/-- What the caller's buffer holds after `get_validate_policy`. -/
def PolicyRead.buffer : PolicyRead → Except LoadError Bytes
  | .unwritten => .error .uninitialised
  | .overrun => .error .overrun
  | .written policy => .ok policy

/-- A file with the dictionary that the INI library finds in it. -/
def loadFile (ini : Parser) (file : Option Bytes) : Option (Bytes × Dictionary) :=
  file.bind fun text => (ini.load text).map fun dic => (text, dic)

/-- The policy string of `load_pwd_conf`: the default, or what the private reader finds. -/
def characterTypeOf (text : Bytes) (dic : Dictionary) : Except LoadError Bytes :=
  if findEntry dic (Key.name .validatePolicy) then (getValidatePolicy (some text)).buffer
  else .ok defaultPolicy

/-- The assignments of `load_pwd_conf`, with the fallback of each key. -/
def optionsOf (dic : Dictionary) (characterType : Bytes) : Options where
  enabled := getboolean dic (Key.name .strongPassword) true
  minLen := getint dic (Key.name .passwordMinLength) 1
  maxLen := getint dic (Key.name .passwordMaxLength) 512
  characterType := characterType
  characterNumRequired := getint dic (Key.name .validateRequired) 1
  palindromeMinNum := getint dic (Key.name .palindromeNum) 0
  checkWord := getint dic (Key.name .wordCheck) 0
  dictPath := (getstring dic (Key.name .dictPath) []).take 255
  monotoneCharacterNum := getint dic (Key.name .monotoneCharacterNum) 0
  consecutiveSameCharacterNum := getint dic (Key.name .consecutiveSameCharacterNum) 0
  firstLetterUppercase := getboolean dic (Key.name .firstLetterUppercase) false
  passwordLengthStandardHigh := getint dic (Key.name .passwordLengthStandardHigh) 8
  passwordLengthStandardMiddle := getint dic (Key.name .passwordLengthStandardMiddle) 6
  passwordCharacterTypeNumHigh := getint dic (Key.name .passwordCharacterTypeNumHigh) 3
  passwordCharacterTypeNumMiddle := getint dic (Key.name .passwordCharacterTypeNumMiddle) 2

/-- `load_pwd_conf`. `updated` is the file after the update tool has run, for the case that
the file cannot be read at first. -/
def loadPwdConf (ini : Parser) (file updated : Option Bytes) : Except LoadError Options :=
  match (loadFile ini file).or (loadFile ini updated) with
  | none => .error .notLoadable
  | some (text, dic) => (characterTypeOf text dic).map (optionsOf dic)

/-- `get_default_options`: a dictionary path of the caller replaces one that is configured. -/
def getDefaultOptions (ini : Parser) (dictPath : Option Bytes) (file updated : Option Bytes) :
    Except LoadError Options :=
  (loadPwdConf ini file updated).map fun options =>
    match dictPath with
    | none => options
    | some path =>
        if path = [] ∨ options.dictPath = [] then options
        else { options with dictPath := path.take 255 }

/-- `deepin_pw_check_by_conf`. -/
def deepinPwCheckByConf (ini : Parser) (lib : CrackLib) (user pw : Bytes)
    (dictPath : Option Bytes) (file updated : Option Bytes) : Except LoadError PwErrorType :=
  match getDefaultOptions ini dictPath file updated with
  | .error .notLoadable => .ok .para
  | .error e => .error e
  | .ok options => checkWithOptions lib user pw options

/-- The keys are letters and underscores. The rules for written sections apply to them. -/
theorem Key.isKey_text (key : Key) : IsKey key.text := by
  refine ⟨?_, List.all_eq_true.mp ?_⟩
  · cases key <;> simp [Key.text, bytes]
  · cases key <;> rfl

/-- The keys differ without regard to case. The library compares names in lower case, so no two
keys are taken for one. -/
theorem Key.lower_text_injective : Function.Injective fun key : Key => lower key.text := by
  intro a b h
  revert h
  cases a <;> cases b <;> decide

/-- The name of a key in lower case. It is the form in which names stand in a dictionary. -/
theorem Key.lower_name (key : Key) :
    lower key.name = bytes "password" ++ colon :: lower key.text := by
  unfold Key.name lower
  rw [List.map_append]
  rfl

/-- Loading succeeds on a readable file whose policy can be read. The update tool is not asked
then. -/
theorem loadPwdConf_of_load {ini : Parser} {text : Bytes} {dic : Dictionary}
    (h : ini.load text = some dic) (updated : Option Bytes) :
    loadPwdConf ini (some text) updated = (characterTypeOf text dic).map (optionsOf dic) := by
  simp [loadPwdConf, loadFile, h]

end DeepinPwCheck
