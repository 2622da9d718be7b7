import DeepinPwCheck.StrengthLevel
import DeepinPwCheck.Tool.PolicyText

/-!
# What an update keeps

The options that the library loads from a file before and after an update. The thresholds of
the strength level are not rendered, so they fall back to their defaults; the rendered truth
values and numbers keep their meaning, except for a `STRONG_PASSWORD` that is not recognised and
for a line that is taken in by the policy or the dictionary path in front of it.
-/

namespace DeepinPwCheck

open CText Ini

/-- The thresholds that a file sets, or their defaults. -/
def thresholdsOf (dic : Dictionary) : ℤ × ℤ × ℤ × ℤ :=
  (getint dic (Key.name .passwordLengthStandardHigh) 8,
    getint dic (Key.name .passwordLengthStandardMiddle) 6,
    getint dic (Key.name .passwordCharacterTypeNumHigh) 3,
    getint dic (Key.name .passwordCharacterTypeNumMiddle) 2)

/-- The update keeps the thresholds, and with them the level of every password. -/
def KeepsThresholds (ini : LineParser) (old new : Bytes) : Prop :=
  ∃ options options', loadPwdConf ini (some old) (some old) = .ok options ∧
    loadPwdConf ini (some new) (some new) = .ok options' ∧
    options.thresholds = options'.thresholds ∧
    ∀ pw, getNewPasswdStrengthLevelByConf ini pw (some old) (some old) =
      getNewPasswdStrengthLevelByConf ini pw (some new) (some new)

/-- The new file can be loaded: its path fits, and its policy is not quotes only. -/
def Reloads (ini : LineParser) (dic : Dictionary) (policy : Bytes) : Prop :=
  PathFits ini dic ∧ ¬ OnlyQuotes (policy.take 493)

instance (ini : LineParser) (dic : Dictionary) (policy : Bytes) :
    Decidable (Reloads ini dic policy) :=
  inferInstanceAs (Decidable (_ ∧ _))

/-- The keys of truth values and numbers that the tool renders. -/
def Key.scalars : List Key :=
  [.strongPassword, .passwordMinLength, .passwordMaxLength, .validateRequired, .palindromeNum,
    .wordCheck, .monotoneCharacterNum, .consecutiveSameCharacterNum, .firstLetterUppercase]

/-- The option that loading obtains for a rendered scalar. -/
def Options.scalar (options : Options) : Key → Option (Bool ⊕ ℤ)
  | .strongPassword => some (.inl options.enabled)
  | .passwordMinLength => some (.inr options.minLen)
  | .passwordMaxLength => some (.inr options.maxLen)
  | .validateRequired => some (.inr options.characterNumRequired)
  | .palindromeNum => some (.inr options.palindromeMinNum)
  | .wordCheck => some (.inr options.checkWord)
  | .monotoneCharacterNum => some (.inr options.monotoneCharacterNum)
  | .consecutiveSameCharacterNum => some (.inr options.consecutiveSameCharacterNum)
  | .firstLetterUppercase => some (.inl options.firstLetterUppercase)
  | _ => none

/-- The update keeps the option of every rendered scalar that the old file has. -/
def KeepsScalars (ini : LineParser) (dic : Dictionary) (old new : Bytes) : Prop :=
  ∀ key ∈ Key.scalars, findEntry dic key.name = true →
    ∃ options options', loadPwdConf ini (some old) (some old) = .ok options ∧
      loadPwdConf ini (some new) (some new) = .ok options' ∧
      options.scalar key = options'.scalar key

/-- The text of `STRONG_PASSWORD`, if there is one, begins like a truth value. -/
def StrongPasswordRecognised (dic : Dictionary) : Prop :=
  ∀ text, dic.get (Key.name .strongPassword) = some text → (truth text).isSome = true

/-- The number and the truth value of the lines that are taken in are those that `load_pwd_conf`
takes where there is no line. -/
structure TakesInDefaults (dic : Dictionary) (policy : Bytes) : Prop where
  required : continues policy = true → getint dic (Key.name .validateRequired) 1 = 1
  uppercase : continues (dictPathSetting dic) = true →
    getboolean dic (Key.name .firstLetterUppercase) false = false

section

variable {ini : LineParser} {os : OsType} {old new policy : Bytes} {dic : Dictionary}

/-- The old file of an update can be loaded. The update has read the policy of the file with the
reader that the loader uses. -/
theorem Updated.loadPwdConf_old (u : Updated ini os old new dic policy) :
    loadPwdConf ini (some old) (some old) = .ok (optionsOf dic policy) := by
  have hpolicy : characterTypeOf old dic = .ok policy := by
    unfold characterTypeOf
    rcases u.policy_cases with ⟨rfl, hfind⟩ | ⟨hread, hfind⟩
    · rw [if_neg (by simp [hfind])]
    · rw [if_pos hfind, hread]
      rfl
  rw [loadPwdConf_of_load u.load, hpolicy]
  rfl

/-- Loading the new file, in the terms of what it depends on. Both theorems of this file ask first
whether there are options at all. -/
theorem Updated.loadPwdConf_new_iff (u : Updated ini os old new dic policy) (options : Options) :
    loadPwdConf ini (some new) (some new) = .ok options ↔ Reloads ini dic policy ∧
      options = optionsOf (newDictionary ini os dic policy) (valueText (policy.take 493)) := by
  rw [u.loadPwdConf_new]
  unfold Reloads
  rw [and_assoc]

/-- A number of a key that is not rendered has its fallback in the new file. This is how the
thresholds of the strength level get lost. -/
theorem getint_newDictionary_none {key : Key} (hkey : key ∉ Key.managed) (fallback : ℤ) :
    getint (newDictionary ini os dic policy) key.name fallback = fallback := by
  unfold getint
  rw [get_newDictionary_eq_none (Or.inl hkey)]

/-- The thresholds of the new file are the defaults. No setting of the old file has an influence
on them. -/
theorem thresholds_new (characterType : Bytes) :
    (optionsOf (newDictionary ini os dic policy) characterType).thresholds = (8, 6, 3, 2) := by
  unfold optionsOf Options.thresholds
  dsimp only
  rw [getint_newDictionary_none (by decide), getint_newDictionary_none (by decide),
    getint_newDictionary_none (by decide), getint_newDictionary_none (by decide)]

/-- **The thresholds after an update.** They are kept, and with them every level, exactly if
the old file has the defaults and the new file can be loaded. -/
theorem keepsThresholds_iff (u : Updated ini os old new dic policy) :
    KeepsThresholds ini old new ↔ thresholdsOf dic = (8, 6, 3, 2) ∧ Reloads ini dic policy := by
  have hold : (optionsOf dic policy).thresholds = thresholdsOf dic := rfl
  constructor
  · rintro ⟨options, options', hoptions, hoptions', hsame, -⟩
    rw [u.loadPwdConf_old] at hoptions
    obtain rfl := Except.ok.inj hoptions
    obtain ⟨hreloads, rfl⟩ := (u.loadPwdConf_new_iff options').mp hoptions'
    rw [hold, thresholds_new] at hsame
    exact ⟨hsame, hreloads⟩
  · rintro ⟨hdefaults, hreloads⟩
    have hnew := (u.loadPwdConf_new_iff _).mpr ⟨hreloads, rfl⟩
    have hsame : (optionsOf dic policy).thresholds =
        (optionsOf (newDictionary ini os dic policy) (valueText (policy.take 493))).thresholds := by
      rw [hold, thresholds_new, hdefaults]
    refine ⟨_, _, u.loadPwdConf_old, hnew, hsame, ?_⟩
    intro pw
    unfold getNewPasswdStrengthLevelByConf
    cases pw with
    | none => rfl
    | some pw =>
        dsimp only
        rw [u.loadPwdConf_old, hnew]
        dsimp only
        rw [strengthLevel_congr hsame pw]

end

/-- A file without thresholds keeps them. -/
theorem keepsThresholds_iff_emptySection :
    KeepsThresholds iniparser emptySection (appendString .professional [] defaultPolicy) :=
  (keepsThresholds_iff emptySection_updated).mpr ⟨by decide, by decide⟩

/-- A file that asks for twelve characters at the high level. -/
def highFile : Bytes := bytes "[Password]\nPASSWORD_LENGTH_STANDARD_HIGH = 12\n"

/-- The dictionary of that file. -/
def highDictionary : Dictionary := [(bytes "password:password_length_standard_high", bytes "12")]

/-- The update of that file. -/
theorem highFile_updated :
    Updated iniparser .professional highFile
      (appendString .professional highDictionary defaultPolicy) highDictionary defaultPolicy :=
  updated_of_load (by decide +kernel) (by decide +kernel) (by decide +kernel)

/-- After the update of that file a password of ten characters counts as strong. -/
theorem highFile_not_keepsThresholds :
    updateConf iniparser allSucceed .professional (some highFile) =
        .ok (0, some (appendString .professional highDictionary defaultPolicy)) ∧
      getNewPasswdStrengthLevelByConf iniparser (some (bytes "Abcdefgh12")) (some highFile)
        (some highFile) = .ok .middle ∧
      getNewPasswdStrengthLevelByConf iniparser (some (bytes "Abcdefgh12"))
        (some (appendString .professional highDictionary defaultPolicy))
        (some (appendString .professional highDictionary defaultPolicy)) = .ok .high ∧
      ¬ KeepsThresholds iniparser highFile
        (appendString .professional highDictionary defaultPolicy) := by
  have hbefore : getNewPasswdStrengthLevelByConf iniparser (some (bytes "Abcdefgh12"))
      (some highFile) (some highFile) = .ok .middle := by decide +kernel
  have hafter : getNewPasswdStrengthLevelByConf iniparser (some (bytes "Abcdefgh12"))
      (some (appendString .professional highDictionary defaultPolicy))
      (some (appendString .professional highDictionary defaultPolicy)) = .ok .high := by
    decide +kernel
  refine ⟨highFile_updated.run, hbefore, hafter, ?_⟩
  rintro ⟨-, -, -, -, -, hlevels⟩
  have hsame := hlevels (some (bytes "Abcdefgh12"))
  rw [hbefore, hafter] at hsame
  cases hsame

section

variable {ini : LineParser} {os : OsType} {old new policy : Bytes} {dic : Dictionary}

/-- Two fallbacks of a truth value make no difference exactly if the key is absent with one
of them, or its text is recognised. -/
theorem getboolean_true_eq_false_iff {name text : Bytes} (h : dic.get name = some text) :
    getboolean dic name true = getboolean dic name false ↔ (truth text).isSome = true := by
  unfold getboolean
  rw [h]
  dsimp only
  cases truth text <;> simp

/-- A number that the old file has is the same in the new one, unless its line is taken in. So the
library gets the same option from both files. -/
theorem getint_newDictionary_of_find {key : Key} (hkey : key ∈ Key.numbers)
    (hfind : findEntry dic key.name = true) (other : ℤ) :
    getint (newDictionary ini os dic policy) key.name other =
      if isTakenIn dic policy key then other else getint dic key.name other := by
  obtain ⟨text, htext⟩ := Option.isSome_iff_exists.mp hfind
  have hsame : intValue dic key (defaultNumber os key) = getint dic key.name other := by
    rw [intValue, if_pos hfind]
    unfold getint
    rw [htext]
  rw [getint_newDictionary hkey, hsame]

/-- A truth value that the old file has is the one that the tool reads, unless its line is taken
in. -/
theorem getboolean_newDictionary_of_find {key : Key} (hkey : key ∈ Key.truths)
    (hfind : findEntry dic key.name = true) (other : Bool) :
    getboolean (newDictionary ini os dic policy) key.name other =
      if isTakenIn dic policy key then other else getboolean dic key.name false := by
  rw [getboolean_newDictionary hkey, if_pos hfind]

/-- The enforcement switch keeps its meaning exactly if its text is recognised. The loader reads
it with the fallback true and the tool with the fallback false. -/
theorem enabled_new_iff (hfind : findEntry dic (Key.name .strongPassword) = true) :
    getboolean dic (Key.name .strongPassword) true =
        getboolean (newDictionary ini os dic policy) (Key.name .strongPassword) true ↔
      StrongPasswordRecognised dic := by
  obtain ⟨text, htext⟩ := Option.isSome_iff_exists.mp hfind
  have hkept : isTakenIn dic policy .strongPassword = false := rfl
  rw [getboolean_newDictionary_of_find (by decide) hfind, hkept, if_neg Bool.false_ne_true,
    getboolean_true_eq_false_iff htext]
  unfold StrongPasswordRecognised
  simp [htext]

/-- The options of the rendered scalars that the old file has, in a new file that loads. The two
keys behind the policy and the path have conditions of their own. -/
theorem scalar_new_iff {key : Key} (hkey : key ∈ Key.scalars)
    (hfind : findEntry dic key.name = true) (characterType characterType' : Bytes) :
    (optionsOf dic characterType).scalar key =
        (optionsOf (newDictionary ini os dic policy) characterType').scalar key ↔
      (key = .strongPassword → StrongPasswordRecognised dic) ∧
        (key = .validateRequired → continues policy = true →
          getint dic (Key.name .validateRequired) 1 = 1) ∧
        (key = .firstLetterUppercase → continues (dictPathSetting dic) = true →
          getboolean dic (Key.name .firstLetterUppercase) false = false) := by
  have hnumber : ∀ number ∈ Key.numbers, key = number → isTakenIn dic policy number = false →
      ∀ other, getint (newDictionary ini os dic policy) number.name other =
        getint dic number.name other := by
    rintro number hmem rfl hkept other
    rw [getint_newDictionary_of_find hmem hfind, hkept, if_neg Bool.false_ne_true]
  simp only [Key.scalars, List.mem_cons, List.not_mem_nil, or_false] at hkey
  rcases hkey with rfl | rfl | rfl | rfl | rfl | rfl | rfl | rfl | rfl
  · simp [Options.scalar, optionsOf, enabled_new_iff hfind]
  · simp [Options.scalar, optionsOf, hnumber .passwordMinLength (by decide) rfl rfl]
  · simp [Options.scalar, optionsOf, hnumber .passwordMaxLength (by decide) rfl rfl]
  · have hnew : getint (newDictionary ini os dic policy) (Key.name .validateRequired) 1 =
        if continues policy then 1 else getint dic (Key.name .validateRequired) 1 := by
      rw [getint_newDictionary_of_find (by decide) hfind]
      simp [isTakenIn]
    by_cases hgoes : continues policy = true <;>
      simp [Options.scalar, optionsOf, hnew, hgoes]
  · simp [Options.scalar, optionsOf, hnumber .palindromeNum (by decide) rfl rfl]
  · simp [Options.scalar, optionsOf, hnumber .wordCheck (by decide) rfl rfl]
  · simp [Options.scalar, optionsOf, hnumber .monotoneCharacterNum (by decide) rfl rfl]
  · simp [Options.scalar, optionsOf, hnumber .consecutiveSameCharacterNum (by decide) rfl rfl]
  · have hnew : getboolean (newDictionary ini os dic policy) (Key.name .firstLetterUppercase)
        false = if continues (dictPathSetting dic) then false
          else getboolean dic (Key.name .firstLetterUppercase) false := by
      rw [getboolean_newDictionary_of_find (by decide) hfind]
      simp [isTakenIn]
    by_cases hgoes : continues (dictPathSetting dic) = true <;>
      simp [Options.scalar, optionsOf, hnew, hgoes]

/-- Without a line for a number, the library takes the fallback. A line that is missing already
cannot get lost by being taken in. -/
theorem getint_of_not_find {name : Bytes} (h : findEntry dic name ≠ true) (fallback : ℤ) :
    getint dic name fallback = fallback := by
  have hnone : dic.get name = none := by simpa [findEntry] using h
  rw [getint, hnone]

/-- Without a line for a truth value, the library takes the fallback. The two programs can then
only differ in this fallback. -/
theorem getboolean_of_not_find {name : Bytes} (h : findEntry dic name ≠ true) (fallback : Bool) :
    getboolean dic name fallback = fallback := by
  have hnone : dic.get name = none := by simpa [findEntry] using h
  rw [getboolean, hnone]

/-- **The scalars after an update.** Those that the old file has keep their options exactly if
there are none, or the new file can be loaded, `STRONG_PASSWORD` is recognised, and the lines that
are taken in say what the library takes without them. -/
theorem keepsScalars_iff (u : Updated ini os old new dic policy) :
    KeepsScalars ini dic old new ↔
      (∀ key ∈ Key.scalars, findEntry dic key.name = false) ∨
        (Reloads ini dic policy ∧ StrongPasswordRecognised dic ∧
          TakesInDefaults dic policy) := by
  constructor
  · intro h
    have hscalar : ∀ key ∈ Key.scalars, findEntry dic key.name = true →
        Reloads ini dic policy ∧ (optionsOf dic policy).scalar key =
          (optionsOf (newDictionary ini os dic policy) (valueText (policy.take 493))).scalar
            key := by
      intro key hkey hfind
      obtain ⟨options, options', hoptions, hoptions', hsame⟩ := h key hkey hfind
      rw [u.loadPwdConf_old] at hoptions
      obtain rfl := Except.ok.inj hoptions
      obtain ⟨hreloads, rfl⟩ := (u.loadPwdConf_new_iff options').mp hoptions'
      exact ⟨hreloads, hsame⟩
    by_cases hnone : ∀ key ∈ Key.scalars, findEntry dic key.name = false
    · exact Or.inl hnone
    · right
      simp only [not_forall, Bool.not_eq_false] at hnone
      obtain ⟨key, hkey, hfind⟩ := hnone
      refine ⟨(hscalar key hkey hfind).1, ?_, ?_, ?_⟩
      · intro text htext
        have hstrong : findEntry dic (Key.name .strongPassword) = true := by
          unfold findEntry
          rw [htext]
          rfl
        have hsame := (hscalar .strongPassword (by decide) hstrong).2
        exact ((scalar_new_iff (by decide) hstrong _ _).mp hsame).1 rfl text htext
      · intro hgoes
        by_cases hrequired : findEntry dic (Key.name .validateRequired) = true
        · have hsame := (hscalar .validateRequired (by decide) hrequired).2
          exact ((scalar_new_iff (by decide) hrequired _ _).mp hsame).2.1 rfl hgoes
        · exact getint_of_not_find hrequired 1
      · intro hgoes
        by_cases hupper : findEntry dic (Key.name .firstLetterUppercase) = true
        · have hsame := (hscalar .firstLetterUppercase (by decide) hupper).2
          exact ((scalar_new_iff (by decide) hupper _ _).mp hsame).2.2 rfl hgoes
        · exact getboolean_of_not_find hupper false
  · rintro (hnone | ⟨hreloads, hrecognised, hdefaults⟩) key hkey hfind
    · rw [hnone key hkey] at hfind
      cases hfind
    · refine ⟨_, _, u.loadPwdConf_old, (u.loadPwdConf_new_iff _).mpr ⟨hreloads, rfl⟩, ?_⟩
      exact (scalar_new_iff hkey hfind _ _).mpr
        ⟨fun _ => hrecognised, fun _ => hdefaults.required, fun _ => hdefaults.uppercase⟩

end

/-- A file that switches the check on by a word that is recognised. -/
def yesFile : Bytes := bytes "[Password]\nSTRONG_PASSWORD = yes\nPASSWORD_MIN_LENGTH = 0x8\n"

/-- The dictionary of that file. -/
def yesDictionary : Dictionary :=
  [(bytes "password:password_min_length", bytes "0x8"),
    (bytes "password:strong_password", bytes "yes")]

/-- The update of that file. -/
theorem yesFile_updated :
    Updated iniparser .server yesFile (appendString .server yesDictionary defaultPolicy)
      yesDictionary defaultPolicy :=
  updated_of_load (by decide +kernel) (by decide +kernel) (by decide +kernel)

/-- Recognised scalars keep their options. -/
theorem keepsScalars_iff_yesFile :
    KeepsScalars iniparser yesDictionary yesFile
      (appendString .server yesDictionary defaultPolicy) := by
  refine (keepsScalars_iff yesFile_updated).mpr
    (Or.inr ⟨by decide, ?_, ⟨fun _ => by decide, fun _ => by decide⟩⟩)
  intro text htext
  obtain rfl : bytes "yes" = text := Option.some.inj htext
  decide

/-- A file that switches the check on by a word that is not recognised. -/
def onFile : Bytes := bytes "[Password]\nSTRONG_PASSWORD = on\n"

/-- The dictionary of that file. -/
def onDictionary : Dictionary := [(bytes "password:strong_password", bytes "on")]

/-- The update of that file. -/
theorem onFile_updated :
    Updated iniparser .server onFile (appendString .server onDictionary defaultPolicy)
      onDictionary defaultPolicy :=
  updated_of_load (by decide +kernel) (by decide +kernel) (by decide +kernel)

/-- The update of that file switches the check off: the loader takes an unrecognised word for
true and the tool writes it as false. -/
theorem onFile_not_keepsScalars :
    updateConf iniparser allSucceed .server (some onFile) =
        .ok (0, some (appendString .server onDictionary defaultPolicy)) ∧
      (∃ options, loadPwdConf iniparser (some onFile) (some onFile) = .ok options ∧
        options.enabled = true) ∧
      (∃ options, loadPwdConf iniparser (some (appendString .server onDictionary defaultPolicy))
          (some (appendString .server onDictionary defaultPolicy)) = .ok options ∧
        options.enabled = false) ∧
      ¬ KeepsScalars iniparser onDictionary onFile
        (appendString .server onDictionary defaultPolicy) := by
  have u := onFile_updated
  have hreloads : Reloads iniparser onDictionary defaultPolicy := by decide
  have hold := u.loadPwdConf_old
  have hnew := (u.loadPwdConf_new_iff _).mpr ⟨hreloads, rfl⟩
  have henabled : (optionsOf onDictionary defaultPolicy).enabled = true := by decide
  have hdisabled : (optionsOf (newDictionary iniparser .server onDictionary defaultPolicy)
      (valueText (defaultPolicy.take 493))).enabled = false := by decide
  refine ⟨u.run, ⟨_, hold, henabled⟩, ⟨_, hnew, hdisabled⟩, ?_⟩
  intro h
  obtain ⟨options, options', hoptions, hoptions', hsame⟩ :=
    h .strongPassword (by decide) (by decide)
  rw [hold] at hoptions
  rw [hnew] at hoptions'
  obtain rfl := Except.ok.inj hoptions
  obtain rfl := Except.ok.inj hoptions'
  have hscalar := Option.some.inj hsame
  rw [henabled, hdisabled] at hscalar
  cases hscalar

end DeepinPwCheck
