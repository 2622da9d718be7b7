import DeepinPwCheck.Tool.PolicyText

/-!
# Updating twice

An update writes the policy and the dictionary path of the old file. When its readers find
both again in the new file, a second update writes the same file, unless the policy takes in a
number that is not the default; the condition is exact.
-/

namespace DeepinPwCheck

open CText Ini

section

variable {ini : LineParser} {os : OsType} {old new policy : Bytes} {dic : Dictionary}

/-- The private reader reads a policy back exactly if it begins with no space and fits. The line
has 18 bytes in front of the policy, and the reader a buffer of 512. -/
theorem Updated.getValidatePolicy_new_eq_iff (u : Updated ini os old new dic policy) :
    getValidatePolicy (some new) = .written policy ↔
      policy.head? ≠ some space ∧ policy.length ≤ 493 := by
  obtain ⟨-, -, hquote, -⟩ := u.policy_range
  rw [u.getValidatePolicy_new]
  constructor
  · intro h
    split_ifs at h with honly
    have hvalue : valueText (policy.take 493) = policy := PolicyRead.written.inj h
    have hlength : policy.length ≤ 493 := by
      have hle := (valueText_sublist (policy.take 493)).length_le
      rw [hvalue, List.length_take] at hle
      omega
    rw [List.take_of_length_le hlength] at hvalue
    exact ⟨(valueText_eq_self_iff.mp hvalue).1, hlength⟩
  · rintro ⟨hspace, hlength⟩
    have hhead : (policy.dropWhile (· == space)).head? ≠ some quote := by
      rcases policy with _ | ⟨c, s⟩
      · simp
      · have hc : c ≠ space := by simpa using hspace
        rw [List.dropWhile_cons_of_neg (by simpa using hc)]
        exact hquote
    rw [List.take_of_length_le hlength, if_neg (valueText_of_head hhead).2,
      valueText_eq_self_iff.mpr ⟨hspace, hquote⟩]

/-- The dictionary path of a file that can be read again. -/
theorem getstring_newDictionary :
    getstring (newDictionary ini os dic policy) (Key.name .dictPath) [] =
      value ini.quoted (strip (joinedPath dic)) := by
  unfold getstring
  rw [get_newDictionary (mem_readSettings_path os dic policy), Option.getD_some]

/-- The dictionary path that the tool finds in a file that can be read again. The next update
writes this path. -/
theorem dictPathSetting_newDictionary :
    dictPathSetting (newDictionary ini os dic policy) =
      value ini.quoted (strip (joinedPath dic)) := by
  rw [dictPathSetting, if_pos (findEntry_newDictionary (mem_readSettings_path os dic policy)),
    getstring_newDictionary]

/-- The policy that the tool finds in a file that can be read again. The key is there, so the
default of the edition is not used. -/
theorem policySetting_newDictionary (os' : OsType) (file : Option Bytes) :
    policySetting os' (newDictionary ini os dic policy) file =
      (getValidatePolicy file).buffer := by
  rw [policySetting, if_pos (findEntry_newDictionary (mem_readSettings_policy os dic policy))]

/-- A setting of a truth value is rendered again as it was, unless its line is taken in. -/
theorem boolSetting_newDictionary {key : Key} (hkey : key ∈ Key.truths)
    (hkept : isTakenIn dic policy key = false) :
    boolSetting (newDictionary ini os dic policy) key (defaultTruth key) =
      boolSetting dic key (defaultTruth key) := by
  have hfind : findEntry (newDictionary ini os dic policy) key.name = true :=
    findEntry_newDictionary (mem_readSettings_truth hkey hkept)
  unfold boolSetting
  rw [if_pos hfind, getboolean_newDictionary hkey, hkept, if_neg Bool.false_ne_true]
  split_ifs <;> rfl

/-- The number that the next update writes, for any edition: the one that was written, unless its
line is taken in. -/
theorem intValue_newDictionary {key : Key} (hkey : key ∈ Key.numbers) (os' : OsType) :
    intValue (newDictionary ini os dic policy) key (defaultNumber os' key) =
      if isTakenIn dic policy key then defaultNumber os' key
      else intValue dic key (defaultNumber os key) := by
  have hread : getint (newDictionary ini os dic policy) key.name (defaultNumber os' key) = _ :=
    getint_newDictionary hkey (defaultNumber os' key)
  rw [← hread]
  unfold intValue findEntry getint
  cases (newDictionary ini os dic policy).get key.name <;> rfl

/-- A path that goes on is not read back: the backslash at its end is lost. Counting backslashes
is enough, whatever the library does with quotes. -/
theorem value_joinedPath_ne {quoted : Byte → Bytes → Bytes}
    (hquoted : ∀ q s, (quoted q s).Sublist (q :: s))
    (hgoes : continues (dictPathSetting dic) = true) :
    value quoted (strip (joinedPath dic)) ≠ dictPathSetting dic := by
  obtain ⟨b, hsplit, -⟩ := exists_of_continues hgoes
  have hline : (settingLine (boolSetting dic .firstLetterUppercase false)).count backslash =
      0 := by
    apply List.count_eq_zero.mpr
    refine notMem_settingLine (Key.isKey_text .firstLetterUppercase) (by decide) (by decide) ?_
    have hbool : ∀ b, backslash ∉ boolText b := by decide
    unfold boolSetting
    dsimp only
    split_ifs
    · exact hbool _
    · exact hbool _
  have hjoined : (joinedPath dic).count backslash =
      (carryOver (dictPathSetting dic)).count backslash := by
    rw [joinedPath, if_pos hgoes, List.count_append, hline, Nat.add_zero]
  have hpath : (carryOver (dictPathSetting dic)).count backslash <
      (dictPathSetting dic).count backslash := by
    conv_rhs => rw [hsplit, List.count_append, List.count_cons_self]
    omega
  intro heq
  have hsub := ((value_sublist hquoted (strip (joinedPath dic))).trans
    (strip_sublist _)).count_le backslash
  rw [heq] at hsub
  omega

/-- The dictionary path is read back exactly if it is plain and does not go on. It splits the
condition on the path into one for each cause. -/
theorem value_joinedPath_eq_iff (ini : LineParser) (dic : Dictionary) :
    value ini.quoted (strip (joinedPath dic)) = dictPathSetting dic ↔
      PlainPath ini.quoted (dictPathSetting dic) ∧ continues (dictPathSetting dic) = false := by
  by_cases hgoes : continues (dictPathSetting dic) = true
  · refine iff_of_false (value_joinedPath_ne ini.quoted_sublist hgoes) ?_
    simp [hgoes]
  · have hends : continues (dictPathSetting dic) = false := by simpa using hgoes
    rw [joinedPath, if_neg hgoes, value_strip_eq_self_iff ini.quoted_sublist, and_iff_left hends]

/-- The settings of the next update, for any edition, with the path and the required number of
groups that it finds. -/
def settingsAgain (os : OsType) (dic : Dictionary) (policy path : Bytes) (required : ℤ) :
    List (Bytes × Bytes) :=
  [ boolSetting dic .strongPassword true,
    intSetting dic .passwordMinLength (defaultConf os).minLength,
    intSetting dic .passwordMaxLength (defaultConf os).maxLength,
    (Key.text .validatePolicy, policy),
    (Key.text .validateRequired, decimal required),
    intSetting dic .palindromeNum (defaultConf os).palindormeNum,
    intSetting dic .wordCheck (defaultConf os).wordCheck,
    intSetting dic .monotoneCharacterNum (defaultConf os).monotoneSameCharacterNum,
    intSetting dic .consecutiveSameCharacterNum (defaultConf os).consecutiveSameCharacterNum,
    (Key.text .dictPath, path),
    boolSetting dic .firstLetterUppercase false ]

/-- The settings of the file itself. -/
theorem settingsAgain_self (os : OsType) (dic : Dictionary) (policy : Bytes) :
    settingsAgain os dic policy (dictPathSetting dic)
      (intValue dic .validateRequired (defaultConf os).validateRequired) =
        settings os dic policy := rfl

/-- **The settings of an updated file**, if the dictionary path does not go on: they are the ones
that were written, with another policy, the dictionary path as the INI library reads it, and the
default of the edition where the policy takes the required number of groups in. -/
theorem settings_newDictionary_eq (ini : LineParser) (os os' : OsType)
    (hpath : continues (dictPathSetting dic) = false) (policy policy' : Bytes) :
    settings os' (newDictionary ini os dic policy) policy' =
      settingsAgain os dic policy' (value ini.quoted (strip (joinedPath dic)))
        (if continues policy then (defaultConf os').validateRequired
          else intValue dic .validateRequired (defaultConf os).validateRequired) := by
  have hbool : ∀ key ∈ Key.truths, boolSetting (newDictionary ini os dic policy) key
      (defaultTruth key) = boolSetting dic key (defaultTruth key) := by
    intro key hkey
    refine boolSetting_newDictionary hkey ?_
    simp only [Key.truths, List.mem_cons, List.not_mem_nil, or_false] at hkey
    rcases hkey with rfl | rfl <;> simp [isTakenIn, hpath]
  have hint : ∀ key ∈ Key.numbers, key ≠ .validateRequired →
      intSetting (newDictionary ini os dic policy) key (defaultNumber os' key) =
        intSetting dic key (defaultNumber os key) := by
    intro key hkey hne
    have hkept : isTakenIn dic policy key = false := by simp [isTakenIn, hpath, hne]
    rw [intSetting, intValue_newDictionary hkey, hkept, if_neg Bool.false_ne_true]
    rfl
  have hrequired : intSetting (newDictionary ini os dic policy) .validateRequired
      (defaultConf os').validateRequired = (Key.text .validateRequired, decimal
        (if continues policy then (defaultConf os').validateRequired
          else intValue dic .validateRequired (defaultConf os).validateRequired)) := by
    have hvalue : intValue (newDictionary ini os dic policy) .validateRequired
        (defaultNumber os' .validateRequired) = _ := intValue_newDictionary (by decide) os'
    simp only [defaultNumber] at hvalue
    rw [intSetting, hvalue]
    simp [isTakenIn]
  have hdict : dictPathSetting (newDictionary ini os dic policy) = _ :=
    dictPathSetting_newDictionary
  have h₀ := hbool .strongPassword (by decide)
  have h₁ := hint .passwordMinLength (by decide) (by decide)
  have h₂ := hint .passwordMaxLength (by decide) (by decide)
  have h₃ := hint .palindromeNum (by decide) (by decide)
  have h₄ := hint .wordCheck (by decide) (by decide)
  have h₅ := hint .monotoneCharacterNum (by decide) (by decide)
  have h₆ := hint .consecutiveSameCharacterNum (by decide) (by decide)
  have h₇ := hbool .firstLetterUppercase (by decide)
  simp only [defaultNumber, defaultTruth] at h₀ h₁ h₂ h₃ h₄ h₅ h₆ h₇
  rw [settings, settingsAgain, hdict, h₀, h₁, h₂, h₃, h₄, h₅, h₆, h₇, hrequired]

/-- A number of type `int` is known from its digits. Two texts of the tool are equal only if their
numbers are. -/
theorem decimal_injective {y z : ℤ} (hy : IsInt32 y) (hz : IsInt32 z)
    (h : decimal y = decimal z) : y = z := by
  rw [← toInt32_strtol_decimal hy, ← toInt32_strtol_decimal hz, h]

/-- The required number of groups is known from the text. It turns an unchanged file into an
unchanged number. -/
theorem required_of_settingsAgain {path : Bytes} {y z : ℤ} (hy : IsInt32 y) (hz : IsInt32 z)
    (h : sectionText (bytes "[Password]") (settingsAgain os dic policy path y) =
      sectionText (bytes "[Password]") (settingsAgain os dic policy path z)) : y = z := by
  apply decimal_injective hy hz
  simpa [sectionText, unlines, settingsAgain, settingLine] using h

/-- **Updating twice.** The readers find the written policy and path again, and a second update
leaves the file unchanged, exactly if the policy begins with no space and has at most 493
bytes, the path is plain, fits on its line and does not go on, and a policy that goes on has
nothing behind it but the required number of groups that is the default of the edition. -/
theorem readsBack_iff (u : Updated ini os old new dic policy) :
    ReadsBack ini os new policy (dictPathSetting dic) ↔
      (policy.head? ≠ some space ∧ policy.length ≤ 493) ∧ PathFits ini dic ∧
        (PlainPath ini.quoted (dictPathSetting dic) ∧
          continues (dictPathSetting dic) = false) ∧
        (continues policy = true →
          intValue dic .validateRequired (defaultConf os).validateRequired =
            (defaultConf os).validateRequired) := by
  have hdefault : IsInt32 (defaultConf os).validateRequired := (isInt32_defaults os).2.2.1
  have hint := isInt32_intValue dic .validateRequired hdefault
  constructor
  · intro h
    obtain ⟨d, hload, hpath⟩ := h.path
    have hnew := hload
    rw [u.load_new] at hload
    split_ifs at hload with hfits
    obtain rfl := Option.some.inj hload
    rw [getstring_newDictionary] at hpath
    have hplain := (value_joinedPath_eq_iff ini dic).mp hpath
    refine ⟨u.getValidatePolicy_new_eq_iff.mp h.policy, hfits, hplain, ?_⟩
    intro hgoes
    obtain ⟨dic', policy', u'⟩ := exists_updated h.again
    obtain rfl := Option.some.inj (u'.load.symm.trans hnew)
    have hpolicyAgain := u'.policy_eq
    rw [policySetting_newDictionary, h.policy] at hpolicyAgain
    obtain rfl : policy = policy' := Except.ok.inj hpolicyAgain
    have htext := u.new_eq.symm.trans u'.new_eq
    rw [appendString, appendString, settings_newDictionary_eq ini os os hplain.2, hpath,
      ← settingsAgain_self, if_pos hgoes] at htext
    exact required_of_settingsAgain hint hdefault htext
  · rintro ⟨hpolicy, hfits, hplain, hrequired⟩
    have hread := u.getValidatePolicy_new_eq_iff.mpr hpolicy
    have hpath := (value_joinedPath_eq_iff ini dic).mpr hplain
    have hload : ini.load new = some (newDictionary ini os dic policy) := by
      rw [u.load_new, if_pos hfits]
    refine ⟨hread, ⟨_, hload, getstring_newDictionary.trans hpath⟩, ?_⟩
    have hpolicyAgain : policySetting os (newDictionary ini os dic policy) (some new) =
        .ok policy := by
      rw [policySetting_newDictionary, hread]
      rfl
    have hsame : (if continues policy then (defaultConf os).validateRequired
        else intValue dic .validateRequired (defaultConf os).validateRequired) =
          intValue dic .validateRequired (defaultConf os).validateRequired := by
      split_ifs with hgoes
      · exact (hrequired hgoes).symm
      · rfl
    have htextAgain : appendString os (newDictionary ini os dic policy) policy = new := by
      rw [appendString, settings_newDictionary_eq ini os os hplain.2, hpath, hsame,
        settingsAgain_self, u.new_eq, appendString]
    have hrun := updateConf_of_load hload hpolicyAgain (by rw [htextAgain]; exact u.length)
    rwa [htextAgain] at hrun

end

/-- An update of a file without settings is undone by its readers. -/
theorem readsBack_iff_emptySection :
    ReadsBack iniparser .professional (appendString .professional [] defaultPolicy) defaultPolicy
      (dictPathSetting []) :=
  (readsBack_iff emptySection_updated).mpr
    ⟨⟨by decide, by decide +kernel⟩, by decide, ⟨⟨rfl, by simp [dictPathSetting, findEntry,
      Dictionary.get], by simp [dictPathSetting, findEntry, Dictionary.get]⟩, rfl⟩, by decide⟩

/-- A file with a quoted policy that begins with a space, and a quoted path with a hash. -/
def quotedFile : Bytes :=
  bytes "[Password]\nVALIDATE_POLICY = \" abc;123\"\nDICT_PATH = \"/dict#1\"\n"

/-- The dictionary of that file. -/
def quotedDictionary : Dictionary :=
  [(bytes "password:dict_path", bytes "/dict#1"),
    (bytes "password:validate_policy", bytes " abc;123")]

/-- The update of that file. -/
theorem quotedFile_updated :
    Updated iniparser .professional quotedFile
      (appendString .professional quotedDictionary (bytes " abc;123")) quotedDictionary
      (bytes " abc;123") :=
  updated_of_load (by decide +kernel) (by decide +kernel) (by decide +kernel)

/-- Without its quotes the policy loses its space, and the path ends before the hash. -/
theorem quotedFile_not_readsBack :
    getValidatePolicy (some quotedFile) = .written (bytes " abc;123") ∧
      getstring quotedDictionary (Key.name .dictPath) [] = bytes "/dict#1" ∧
      getValidatePolicy (some (appendString .professional quotedDictionary (bytes " abc;123"))) =
        .written (bytes "abc;123") ∧
      iniparser.load (appendString .professional quotedDictionary (bytes " abc;123")) =
        some (newDictionary iniparser .professional quotedDictionary (bytes " abc;123")) ∧
      getstring (newDictionary iniparser .professional quotedDictionary (bytes " abc;123"))
        (Key.name .dictPath) [] = bytes "/dict" ∧
      ¬ ReadsBack iniparser .professional
        (appendString .professional quotedDictionary (bytes " abc;123")) (bytes " abc;123")
        (bytes "/dict#1") := by
  have u := quotedFile_updated
  have hread : getValidatePolicy
      (some (appendString .professional quotedDictionary (bytes " abc;123"))) =
        .written (bytes "abc;123") := by
    rw [u.getValidatePolicy_new]
    decide
  have hfits : PathFits iniparser quotedDictionary := by decide +kernel
  have hload : iniparser.load (appendString .professional quotedDictionary (bytes " abc;123")) =
      some (newDictionary iniparser .professional quotedDictionary (bytes " abc;123")) := by
    rw [u.load_new, if_pos hfits]
  have hpath : getstring
      (newDictionary iniparser .professional quotedDictionary (bytes " abc;123"))
      (Key.name .dictPath) [] = bytes "/dict" := by
    rw [getstring_newDictionary]
    decide +kernel
  refine ⟨by decide +kernel, by decide, hread, hload, hpath, ?_⟩
  · intro h
    have hpolicy := h.policy
    rw [hread] at hpolicy
    exact absurd hpolicy (by decide)

end DeepinPwCheck
