import DeepinPwCheck.ReportedLimits
import DeepinPwCheck.Text.Format

/-!
# Messages

`err_to_string_by_conf` translates the text of a verdict, and prints the limits of the
configuration into it. The PAM module copies the message into a buffer of 256 bytes, while
the library bounds only some of its messages, and those by 511. The translations are a
parameter: a message catalogue is any function from texts to texts, which are C strings.
-/

namespace DeepinPwCheck

open CText Ini

/-- `BUFF_SIZE`, the size of `out_buff`. -/
def buffSize : ℕ := 512

/-- The longest message that `outbuf` of `pam_sm_chauthtok` holds. -/
def outbufLimit : ℕ := 255

/-- A message catalogue. What it gives for a string is a string, so it has no NUL inside. -/
structure Catalogue where
  gettext : Bytes → Bytes
  noNul : ∀ msgid, 0 ∉ msgid → 0 ∉ gettext msgid

/-- The text of a verdict before it is translated. -/
def PwErrorType.msgid : PwErrorType → Bytes
  | noErr => bytes "Checking successful"
  | passwordEmpty => bytes "The password cannot be empty"
  | lengthShort | characterTypeTooFew | sameAsUsername =>
      bytes "Minimum of %d characters. At least %d types: 0-9, a-z, A-Z and symbols. " ++
        bytes "Different from the username."
  | lengthLong => bytes "Password must be no more than %d characters"
  | characterInvalid =>
      bytes "Password can only contain English letters (case-sensitive), numbers or " ++
        bytes "special symbols (~`!@#$%^&*()-_+=|\\\x7b\x7d[]:\"'<>,.?/)"
  | palindrome => bytes "Password must not contain more than %d palindrome characters"
  | pwConsecutiveSame | pwMonotone | pwFirstUpperm => bytes "Create a strong password please"
  | word => bytes "Do not use common words and combinations as password"
  | para => bytes "Parameter options are invalid"
  | internal => bytes "Internal error"
  | user => bytes "Invalid user"
  | pwRepeat => bytes "It does not meet password rules"

/-- The text for an error number, which may lie outside the enumeration. -/
def errorMsgid : Option PwErrorType → Bytes
  | none => bytes "Invalid error type"
  | some err => err.msgid

/-- `err_to_string_by_conf`, or `none` where C does not define what it does. A number outside the
enumeration is no error `err`. The message on invalid characters is a format too, whose argument
is the policy as the private reader leaves it. -/
def errToStringByConf (platform : Platform) (catalogue : Catalogue) (ini : Parser)
    (err : Option PwErrorType) (file : Option Bytes) : Option Bytes :=
  let text := catalogue.gettext (errorMsgid err)
  match err with
  | some .lengthShort | some .characterTypeTooFew | some .sameAsUsername =>
      let num := getPwMinCharacterTypeByConf ini file
      let characterNum := getPwMinLengthByConf ini file
      snprintf platform buffSize text [.int characterNum, .int num]
  | some .lengthLong =>
      snprintf platform buffSize text [.int (getPwMaxLengthByConf ini file)]
  | some .characterInvalid =>
      match getValidatePolicy file with
      | .overrun => none
      | .unwritten => snprintf platform buffSize text [.str none]
      | .written tmpBuff => snprintf platform buffSize text [.str (some tmpBuff)]
  | some .palindrome =>
      snprintf platform buffSize text [.int (getPwPalimdromeNumByConf ini file)]
  | none | some .noErr | some .passwordEmpty | some .word | some .pwRepeat | some .pwMonotone
  | some .pwConsecutiveSame | some .pwFirstUpperm | some .para | some .internal
  | some .user => some text

/-- The translation of a message fits: as it is, or with the numbers of the configuration in
the place of its directives. -/
def TranslationFits (platform : Platform) (catalogue : Catalogue) (ini : Parser)
    (err : Option PwErrorType) (file : Option Bytes) : Prop :=
  let text := catalogue.gettext (errorMsgid err)
  match err with
  | some .lengthShort | some .characterTypeTooFew | some .sameAsUsername =>
      FormatFits platform outbufLimit text
        [.int (getPwMinLengthByConf ini file), .int (getPwMinCharacterTypeByConf ini file)]
  | some .lengthLong =>
      FormatFits platform outbufLimit text [.int (getPwMaxLengthByConf ini file)]
  | some .characterInvalid =>
      match getValidatePolicy file with
      | .overrun => False
      | .unwritten => FormatFits platform outbufLimit text [.str none]
      | .written policy => FormatFits platform outbufLimit text [.str (some policy)]
  | some .palindrome =>
      FormatFits platform outbufLimit text [.int (getPwPalimdromeNumByConf ini file)]
  | none | some .noErr | some .passwordEmpty | some .word | some .pwRepeat | some .pwMonotone
  | some .pwConsecutiveSame | some .pwFirstUpperm | some .para | some .internal
  | some .user => text.length ≤ outbufLimit

/-- **The message buffer.** A message has at most 255 bytes exactly if its translation fits. -/
theorem errToStringByConf_length_le_iff (platform : Platform) (catalogue : Catalogue)
    (ini : Parser) (err : Option PwErrorType) (file : Option Bytes) :
    (∃ message, errToStringByConf platform catalogue ini err file = some message ∧
        message.length ≤ outbufLimit) ↔
      TranslationFits platform catalogue ini err file := by
  have hformat (text : Bytes) (args : List FormatArg) :
      (∃ message, snprintf platform buffSize text args = some message ∧
          message.length ≤ outbufLimit) ↔ FormatFits platform outbufLimit text args :=
    snprintf_length_le_iff (by decide)
  cases err with
  | none => simp [errToStringByConf, TranslationFits]
  | some err =>
    cases err with
    | lengthShort => exact hformat _ _
    | characterTypeTooFew => exact hformat _ _
    | sameAsUsername => exact hformat _ _
    | lengthLong => exact hformat _ _
    | palindrome => exact hformat _ _
    | characterInvalid =>
      unfold errToStringByConf TranslationFits
      cases getValidatePolicy file with
      | overrun => simp
      | unwritten => exact hformat _ _
      | written policy => exact hformat _ _
    | noErr | passwordEmpty | word | pwRepeat | pwMonotone | pwConsecutiveSame | pwFirstUpperm
    | para | internal | user => simp [errToStringByConf, TranslationFits]

/-- The catalogue of a language without translations. -/
def noCatalogue : Catalogue := ⟨id, fun _ hmsgid => hmsgid⟩

/-- The Tibetan text on invalid characters, in UTF-8. -/
def tibetanInvalid : Bytes :=
  ("གསང་ཨང་ནི་དབྱིན་ཡིག་(ཡིག་ཆེན་དང་ཡིག་ཆུང་གི་དབྱེ་བ་འབྱེད་དགོས། )དང་། ཨང་ཀི། " ++
    "ཡང་ན་དམིགས་བསལ་མཚོན་རྟགས་(~!@#$%^&*()[]\x7b\x7d\\|/?,.<>)བཅས་ལས་གྲུབ་དགོས།").toUTF8.data.toList

/-- The Tibetan text is one string, and its percent sign begins no conversion. It is longer than
the buffer of the caller. -/
theorem tibetanInvalid_length : 0 ∉ tibetanInvalid ∧ tibetanInvalid.length = 366 ∧
    (formatPieces none tibetanInvalid).bind (lengthPieces plainPlatform [.str none] · 0) =
      some 366 := by
  decide +kernel

/-- A catalogue that translates this text only. -/
def tibetanCatalogue : Catalogue where
  gettext msgid := if msgid = PwErrorType.characterInvalid.msgid then tibetanInvalid else msgid
  noNul := by
    intro msgid hmsgid
    split_ifs
    · exact tibetanInvalid_length.1
    · exact hmsgid

/-- The texts before their translation are short. Without a catalogue no message overflows. -/
theorem length_errorMsgid_lt (err : Option PwErrorType) : (errorMsgid err).length < buffSize := by
  rcases err with _ | err
  · decide
  · cases err <;> simp [errorMsgid, PwErrorType.msgid, bytes, buffSize]

/-- The Tibetan text is shorter than the buffer of the library and longer than that of the PAM
module. -/
theorem errToStringByConf_overflows :
    ¬∀ (platform : Platform) (catalogue : Catalogue) (ini : Parser) (err : Option PwErrorType)
        (file : Option Bytes),
      (∀ err, (catalogue.gettext (errorMsgid err)).length < buffSize) →
        ∃ message, errToStringByConf platform catalogue ini err file = some message ∧
          message.length ≤ outbufLimit := by
  intro h
  obtain ⟨-, hlength, hpieces⟩ := tibetanInvalid_length
  have htext (err : Option PwErrorType) : tibetanCatalogue.gettext (errorMsgid err) =
      if errorMsgid err = PwErrorType.characterInvalid.msgid then tibetanInvalid
      else errorMsgid err := rfl
  have hshort (err : Option PwErrorType) :
      (tibetanCatalogue.gettext (errorMsgid err)).length < buffSize := by
    rw [htext]
    split_ifs
    · rw [hlength]
      decide
    · exact length_errorMsgid_lt err
  have hmessage := h plainPlatform tibetanCatalogue iniparser (some .characterInvalid) none hshort
  have hformat : errToStringByConf plainPlatform tibetanCatalogue iniparser
      (some .characterInvalid) none = snprintf plainPlatform buffSize tibetanInvalid [.str none] :=
    congrArg (fun text => snprintf plainPlatform buffSize text [.str none])
      ((htext _).trans (if_pos rfl))
  rw [hformat, snprintf_length_le_iff (by decide)] at hmessage
  obtain ⟨pieces, n, hparse, -, hsum, hle⟩ := hmessage
  rw [hparse, Option.bind_some, hsum] at hpieces
  obtain rfl := Option.some.inj hpieces
  exact absurd hle (by decide)

end DeepinPwCheck
