import DeepinPwCheck.Text.Bytes

/-!
# Options and verdicts of the password check

The settings that one configuration file gives to the checking library, the
verdict of a check, and the strength levels, as `deepin_pw_check.h` and
`deepin_pw_check.c` declare them.
-/

namespace DeepinPwCheck

open CText

/-- `PW_ERROR_TYPE`: the verdict of a check, in the order of the header. -/
inductive PwErrorType where
  | noErr
  | passwordEmpty
  | lengthShort
  | lengthLong
  | characterInvalid
  | palindrome
  | word
  | pwRepeat
  | pwMonotone
  | pwConsecutiveSame
  | pwFirstUpperm
  | para
  | internal
  | user
  | characterTypeTooFew
  | sameAsUsername
  deriving DecidableEq, Repr

/-- `PASSWORD_LEVEL_TYPE`: the strength of a new password. -/
inductive PasswordLevelType where
  | error
  | low
  | middle
  | high
  deriving DecidableEq, Repr

/-- `struct Options`. The `int` members are integers; `character_type` and
`dict_path` are the strings held in their buffers. -/
structure Options where
  enabled : Bool
  maxLen : ℤ
  minLen : ℤ
  characterType : Bytes
  characterNumRequired : ℤ
  palindromeMinNum : ℤ
  dictPath : Bytes
  checkWord : ℤ
  firstLetterUppercase : Bool
  monotoneCharacterNum : ℤ
  consecutiveSameCharacterNum : ℤ
  passwordLengthStandardHigh : ℤ
  passwordLengthStandardMiddle : ℤ
  passwordCharacterTypeNumHigh : ℤ
  passwordCharacterTypeNumMiddle : ℤ
  deriving DecidableEq

/-- How a call ends without its result: loading returns -1, a buffer is read that nobody wrote,
or a copy goes out of bounds. The last two are undefined in C. -/
inductive LoadError where
  | notLoadable
  | uninitialised
  | overrun
  deriving DecidableEq, Repr

end DeepinPwCheck
