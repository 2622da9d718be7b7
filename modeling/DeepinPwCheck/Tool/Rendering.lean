import DeepinPwCheck.LoadConf

/-!
# What the update tool writes

`pwd_conf_update.c`: the defaults of each edition of the system, and the text that
`update_conf` accumulates in `append_string`. A setting that the file has is decoded and
written again, and one that it lacks is written with the default of the edition.
-/

namespace DeepinPwCheck

open CText Ini

/-- The editions for which `main` calls `update_conf`. -/
inductive OsType where
  | professional
  | server
  | euler
  | e
  | home
  deriving DecidableEq, Repr

/-- `_default_conf`, without the member that nothing reads. -/
structure DefaultConf where
  minLength : ℤ
  maxLength : ℤ
  validatePolicy : Bytes
  validateRequired : ℤ
  palindormeNum : ℤ
  wordCheck : ℤ
  monotoneSameCharacterNum : ℤ
  consecutiveSameCharacterNum : ℤ

/-- The table `default_conf`. -/
def defaultConf : OsType → DefaultConf
  | .professional | .e | .home => ⟨1, 510, defaultPolicy, 1, 0, 0, 0, 0⟩
  | .server | .euler => ⟨8, 510, defaultPolicy, 3, 4, 1, 3, 3⟩

/-- `get_current_os_type`: the edition that the version file names by two digits of its
build number. `main` leaves the configuration alone where there is no answer. -/
def getCurrentOsType (ini : Parser) (versionFile : Option Bytes) : Option OsType :=
  match versionFile with
  | none => some .professional
  | some text =>
      match ini.load text with
      | none => none
      | some dic =>
          let osType := getstring dic (bytes "Version:OsBuild") (bytes "11018.100")
          if osType.length < 4 then none
          else if osType[1]? = some 49 then some .professional
          else if osType[1]? = some 50 then
            if osType[3]? = some 51 then some .euler else some .server
          else if osType[1]? = some 51 then some .server
          else none

/-- The text of a truth value. -/
def boolText (b : Bool) : Bytes := if b then bytes "true" else bytes "false"

/-- A setting of a truth value. A text that is not recognised counts as false. -/
def boolSetting (dic : Dictionary) (key : Key) (absent : Bool) : Bytes × Bytes :=
  (key.text,
    if findEntry dic key.name then boolText (getboolean dic key.name false) else boolText absent)

/-- The number that the tool writes for a key. -/
def intValue (dic : Dictionary) (key : Key) (fallback : ℤ) : ℤ :=
  if findEntry dic key.name then getint dic key.name fallback else fallback

/-- A setting of a number. -/
def intSetting (dic : Dictionary) (key : Key) (fallback : ℤ) : Bytes × Bytes :=
  (key.text, decimal (intValue dic key fallback))

/-- The policy that the tool writes: the default, or what the private reader finds in the
file, without the quotes that it had there. -/
def policySetting (os : OsType) (dic : Dictionary) (file : Option Bytes) :
    Except LoadError Bytes :=
  if findEntry dic (Key.name .validatePolicy) then (getValidatePolicy file).buffer
  else .ok (defaultConf os).validatePolicy

/-- The dictionary path that the tool writes. -/
def dictPathSetting (dic : Dictionary) : Bytes :=
  if findEntry dic (Key.name .dictPath) then getstring dic (Key.name .dictPath) [] else []

/-- The settings that `update_conf` renders, in the order of the source. -/
def settings (os : OsType) (dic : Dictionary) (policy : Bytes) : List (Bytes × Bytes) :=
  [ boolSetting dic .strongPassword true,
    intSetting dic .passwordMinLength (defaultConf os).minLength,
    intSetting dic .passwordMaxLength (defaultConf os).maxLength,
    (Key.text .validatePolicy, policy),
    intSetting dic .validateRequired (defaultConf os).validateRequired,
    intSetting dic .palindromeNum (defaultConf os).palindormeNum,
    intSetting dic .wordCheck (defaultConf os).wordCheck,
    intSetting dic .monotoneCharacterNum (defaultConf os).monotoneSameCharacterNum,
    intSetting dic .consecutiveSameCharacterNum (defaultConf os).consecutiveSameCharacterNum,
    (Key.text .dictPath, dictPathSetting dic),
    boolSetting dic .firstLetterUppercase false ]

/-- The text that `append_string` holds in the end. -/
def appendString (os : OsType) (dic : Dictionary) (policy : Bytes) : Bytes :=
  sectionText (bytes "[Password]") (settings os dic policy)

/-- The keys that the tool renders, in the order of the source. -/
def Key.managed : List Key :=
  [.strongPassword, .passwordMinLength, .passwordMaxLength, .validatePolicy, .validateRequired,
    .palindromeNum, .wordCheck, .monotoneCharacterNum, .consecutiveSameCharacterNum, .dictPath,
    .firstLetterUppercase]

/-- The keys of numbers among them. -/
def Key.numbers : List Key :=
  [.passwordMinLength, .passwordMaxLength, .validateRequired, .palindromeNum, .wordCheck,
    .monotoneCharacterNum, .consecutiveSameCharacterNum]

/-- The keys of truth values among them. -/
def Key.truths : List Key := [.strongPassword, .firstLetterUppercase]

/-- The default of an edition for a number. -/
def defaultNumber (os : OsType) : Key → ℤ
  | .passwordMinLength => (defaultConf os).minLength
  | .passwordMaxLength => (defaultConf os).maxLength
  | .validateRequired => (defaultConf os).validateRequired
  | .palindromeNum => (defaultConf os).palindormeNum
  | .wordCheck => (defaultConf os).wordCheck
  | .monotoneCharacterNum => (defaultConf os).monotoneSameCharacterNum
  | .consecutiveSameCharacterNum => (defaultConf os).consecutiveSameCharacterNum
  | _ => 0

/-- The truth value of a key that is missing, for the tool and for `load_pwd_conf`. -/
def defaultTruth : Key → Bool
  | .strongPassword => true
  | _ => false

/-- The rendered settings have the managed keys. Neither the old file nor the edition has a say in
them. -/
theorem map_fst_settings (os : OsType) (dic : Dictionary) (policy : Bytes) :
    (settings os dic policy).map Prod.fst = Key.managed.map Key.text := rfl

/-- Every rendered key can be read. It discharges the condition on keys in the facts about written
sections. -/
theorem isKey_of_mem_settings {os : OsType} {dic : Dictionary} {policy : Bytes}
    {s : Bytes × Bytes} (hs : s ∈ settings os dic policy) : IsKey s.1 := by
  have hmem : s.1 ∈ Key.managed.map Key.text := by
    rw [← map_fst_settings os dic policy]
    exact List.mem_map_of_mem hs
  obtain ⟨key, -, hkey⟩ := List.mem_map.mp hmem
  rw [← hkey]
  exact key.isKey_text

/-- No key is rendered twice. So each key has one value when the file is read again. -/
theorem nodup_settings (os : OsType) (dic : Dictionary) (policy : Bytes) :
    ((settings os dic policy).map fun s => lower s.1).Nodup := by
  have hkeys : (settings os dic policy).map (fun s => lower s.1) =
      Key.managed.map fun key => lower key.text := rfl
  have hmanaged : Key.managed.Nodup := by decide
  rw [hkeys]
  exact hmanaged.map Key.lower_text_injective

/-- The bytes of numbers and truth values: they need no quotes and begin no comment. -/
def isPlainByte (c : Byte) : Bool := !isSpace c && !isComment c && !isQuote c

/-- A plain text stands for itself. It makes numbers and truth values independent of how a library
decodes quotes. -/
theorem value_plain (quoted : Byte → Bytes → Bytes) {t : Bytes}
    (ht : ∀ c ∈ t, isPlainByte c = true) : value quoted (strip t) = t := by
  have hclass : ∀ c ∈ t, isSpace c = false ∧ isComment c = false ∧ isQuote c = false := by
    intro c hc
    simpa [isPlainByte, and_assoc] using ht c hc
  have hstrip : strip t = t := by
    obtain ⟨a, b, hsplit, ha, hb⟩ := exists_strip_append t
    have hnil : ∀ l : Bytes, (∀ c ∈ l, c ∈ t) → (∀ c ∈ l, isSpace c = true) → l = [] := by
      intro l hl hblank
      rcases l with _ | ⟨c, l⟩
      · rfl
      · have hc := (hclass c (hl c List.mem_cons_self)).1
        rw [hblank c List.mem_cons_self] at hc
        cases hc
    have hanil := hnil a (fun c hc => by rw [hsplit]; simp [hc]) ha
    have hbnil := hnil b (fun c hc => by rw [hsplit]; simp [hc]) hb
    rw [hanil, hbnil] at hsplit
    simpa using hsplit.symm
  have htake : t.takeWhile (fun d => !isComment d) = t := by
    refine List.takeWhile_eq_self_iff.mpr ?_
    intro c hc
    simp [(hclass c hc).2.1]
  rw [hstrip]
  unfold value
  rcases t with _ | ⟨c, t⟩
  · rfl
  · have hquote := (hclass c List.mem_cons_self).2.2
    dsimp only
    rw [if_neg (by simp [hquote]), htake, hstrip]

/-- A number is plain text. It stands between no quotes and has no comment when it is read
again. -/
theorem decimal_plain (z : ℤ) : ∀ c ∈ decimal z, isPlainByte c = true := by
  intro c hc
  have hnumeral : c = 45 ∨ isDigit c = true := by simpa [isNumeral] using decimal_numeral hc
  rcases hnumeral with rfl | hdigit
  · decide
  · have hclass : isSpace c = false ∧ isComment c = false ∧ isQuote c = false := by
      unfold isDigit at hdigit
      unfold isSpace isComment isQuote
      grind
    simp [isPlainByte, hclass]

/-- A truth value is plain text. It is read again as it was written. -/
theorem boolText_plain (b : Bool) : ∀ c ∈ boolText b, isPlainByte c = true := by
  apply List.all_eq_true.mp
  cases b <;> rfl

/-- The text of a truth value stands for it. This is why an update keeps truth values that are
recognised. -/
theorem truth_boolText (b : Bool) : truth (boolText b) = some b := by
  cases b <;> rfl

/-- Plain text contains no newline. Numbers and truth values stay on their line. -/
theorem newline_notMem_of_plain {t : Bytes} (ht : ∀ c ∈ t, isPlainByte c = true) :
    newline ∉ t := by
  intro h
  exact absurd (ht newline h) (by decide)

end DeepinPwCheck
