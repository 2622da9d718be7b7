import DeepinPwCheck.Tool.UpdateConf

/-!
# Reading the updated file

What the library and the tool find in a file that `update_conf` has written completely. The
file can be read unless its `DICT_PATH` line is too long, and each managed key has the value that
its text stands for. But a policy that ends in a backslash takes in the line of
`VALIDATE_REQUIRED`, and a dictionary path that does the line of `FIRST_LETTER_UPPERCASE`.
-/

namespace DeepinPwCheck

open CText Ini

/-- A completed update of an existing file, with the dictionary of the old file and the policy
that the tool writes. -/
structure Updated (ini : LineParser) (os : OsType) (old new : Bytes) (dic : Dictionary)
    (policy : Bytes) : Prop where
  run : updateConf ini allSucceed os (some old) = .ok (0, some new)
  load : ini.load old = some dic
  policy_eq : policySetting os dic (some old) = .ok policy
  new_eq : new = appendString os dic policy
  length : new.length < 2048

/-- The text of the policy as the INI library reads it: one that goes on takes in the next line. -/
def joinedPolicy (os : OsType) (dic : Dictionary) (policy : Bytes) : Bytes :=
  if continues policy then
    carryOver policy ++
      settingLine (intSetting dic .validateRequired (defaultConf os).validateRequired)
  else policy

/-- The text of the dictionary path as the INI library reads it. -/
def joinedPath (dic : Dictionary) : Bytes :=
  if continues (dictPathSetting dic) then
    carryOver (dictPathSetting dic) ++ settingLine (boolSetting dic .firstLetterUppercase false)
  else dictPathSetting dic

/-- The line of the dictionary path is short enough to be read again, also with the line that it
takes in. -/
def PathFits (ini : LineParser) (dic : Dictionary) : Prop :=
  (settingLine (Key.text .dictPath, dictPathSetting dic)).length < ini.lineLimit ∧
    (settingLine (Key.text .dictPath, joinedPath dic)).length < ini.lineLimit

instance (ini : LineParser) (dic : Dictionary) : Decidable (PathFits ini dic) :=
  inferInstanceAs (Decidable (_ ∧ _))

/-- The settings of an updated file as the INI library reads them. -/
def readSettings (os : OsType) (dic : Dictionary) (policy : Bytes) : List (Bytes × Bytes) :=
  joinSettings none (settings os dic policy)

/-- The line of the key is taken in by the line in front of it. -/
def isTakenIn (dic : Dictionary) (policy : Bytes) (key : Key) : Bool :=
  (key == .validateRequired && continues policy) ||
    (key == .firstLetterUppercase && continues (dictPathSetting dic))

/-- The dictionary of an updated file. -/
def newDictionary (ini : LineParser) (os : OsType) (dic : Dictionary) (policy : Bytes) :
    Dictionary :=
  ((readSettings os dic policy).map (settingEntry ini.quoted (bytes "password"))).reverse

section

variable {ini : LineParser} {os : OsType} {old new policy : Bytes} {dic : Dictionary}

/-- A text that fits into `append_string` is written completely. The 2048 bytes of the buffer are
also what `allSucceed` lets through. -/
theorem writeText_allSucceed {text : Bytes} (hne : text ≠ []) (hlength : text.length < 2048) :
    writeText allSucceed text old = (0, some text) := by
  have hpos : text.length ≠ 0 := fun h => hne (List.length_eq_zero_iff.mp h)
  have hwritten : allSucceed.written = 2048 := rfl
  have hstored : allSucceed.stored = 2048 := rfl
  have htake : text.take allSucceed.stored = text := List.take_of_length_le (by omega)
  unfold writeText
  rw [if_neg hpos, if_neg (by decide), if_neg (by omega), if_neg (by decide), htake]

/-- An update of a readable file writes the text that it renders. All operations on the file
succeed here. -/
theorem updateConf_of_load (hload : ini.load old = some dic)
    (hpolicy : policySetting os dic (some old) = .ok policy)
    (hlength : (appendString os dic policy).length < 2048) :
    updateConf ini allSucceed os (some old) = .ok (0, some (appendString os dic policy)) := by
  have htext : renderedText allSucceed os dic old = .ok (appendString os dic policy) := by
    have hopen : (if allSucceed.policyOpen then some old else none) = some old := rfl
    unfold renderedText
    rw [hopen, hpolicy]
    exact if_pos hlength
  have hopen : (if allSucceed.loadOpen then ini.load old else none) = some dic := hload
  unfold updateConf ensureFile
  dsimp only
  rw [hopen]
  dsimp only
  rw [htext]
  dsimp only
  rw [writeText_allSucceed (appendString_ne_nil os dic policy) hlength]

/-- The update of a readable file, with the text that it renders. It is how the examples come to
their new files. -/
theorem updated_of_load (hload : ini.load old = some dic)
    (hpolicy : policySetting os dic (some old) = .ok policy)
    (hlength : (appendString os dic policy).length < 2048) :
    Updated ini os old (appendString os dic policy) dic policy :=
  ⟨updateConf_of_load hload hpolicy hlength, hload, hpolicy, rfl, hlength⟩

/-- A complete update has rendered the old file. Runs of updates are taken apart by it. -/
theorem exists_updated (h : updateConf ini allSucceed os (some old) = .ok (0, some new)) :
    ∃ dic policy, Updated ini os old new dic policy := by
  rcases updateConf_cases h with ⟨-, hresult⟩ | ⟨text, -, ⟨dic, hload, htext⟩, hresult⟩
  · cases hresult
  · obtain ⟨policy, hpolicy, rfl, hlength⟩ := renderedText_eq_ok htext
    rw [writeText_allSucceed (appendString_ne_nil os dic policy) hlength] at hresult
    obtain rfl := Option.some.inj (Prod.mk.inj hresult).2
    exact ⟨dic, policy, h, hload, hpolicy, rfl, hlength⟩

/-- The policy that the tool writes is the default, or a string of the private reader. In the
second case its bytes have passed through a buffer of 512 bytes. -/
theorem policySetting_cases {file : Option Bytes} (h : policySetting os dic file = .ok policy) :
    policy = defaultPolicy ∧ findEntry dic (Key.name .validatePolicy) = false ∨
      getValidatePolicy file = .written policy ∧
        findEntry dic (Key.name .validatePolicy) = true := by
  unfold policySetting at h
  split_ifs at h with hfind
  · right
    refine ⟨?_, hfind⟩
    cases hread : getValidatePolicy file with
    | unwritten =>
        rw [hread] at h
        cases h
    | overrun =>
        rw [hread] at h
        cases h
    | written q =>
        rw [hread] at h
        rw [Except.ok.inj h]
  · left
    refine ⟨?_, by simpa using hfind⟩
    have hdefault : (defaultConf os).validatePolicy = defaultPolicy := by cases os <;> rfl
    rw [← Except.ok.inj h, hdefault]

/-- The policy that the tool writes has no newline, no NUL byte and no quote in front, and at
most 495 bytes. -/
theorem policySetting_range {file : Option Bytes} (h : policySetting os dic file = .ok policy) :
    newline ∉ policy ∧ 0 ∉ policy ∧ policy.head? ≠ some quote ∧ policy.length ≤ 495 := by
  rcases policySetting_cases h with ⟨rfl, -⟩ | ⟨hread, -⟩
  · exact ⟨by decide, by decide, by decide, by decide⟩
  · exact getValidatePolicy_written hread

/-- The policy of an update is the default, or a string of the private reader. In both cases it is
free of newlines and NUL bytes. -/
theorem Updated.policy_cases (u : Updated ini os old new dic policy) :
    policy = defaultPolicy ∧ findEntry dic (Key.name .validatePolicy) = false ∨
      getValidatePolicy (some old) = .written policy ∧
        findEntry dic (Key.name .validatePolicy) = true :=
  policySetting_cases u.policy_eq

/-- The policy of an update has no newline, no NUL byte and no quote in front, and at most
495 bytes. -/
theorem Updated.policy_range (u : Updated ini os old new dic policy) :
    newline ∉ policy ∧ 0 ∉ policy ∧ policy.head? ≠ some quote ∧ policy.length ≤ 495 :=
  policySetting_range u.policy_eq

/-- The dictionary path that the tool writes is empty, or the one of the old file. What is known
of values of the INI library carries over to it. -/
theorem dictPathSetting_cases (dic : Dictionary) :
    dictPathSetting dic = [] ∨ dic.get (Key.name .dictPath) = some (dictPathSetting dic) := by
  unfold dictPathSetting getstring
  cases hget : dic.get (Key.name .dictPath) with
  | none => simp
  | some path =>
    split_ifs
    · exact Or.inr rfl
    · exact Or.inl rfl

/-- The dictionary path of an update has no newline and no NUL byte. It is a value that the
library has found on one line. -/
theorem Updated.dictPath_line (u : Updated ini os old new dic policy) :
    newline ∉ dictPathSetting dic ∧ 0 ∉ dictPathSetting dic := by
  rcases dictPathSetting_cases dic with hempty | hpath
  · rw [hempty]
    exact ⟨List.not_mem_nil, List.not_mem_nil⟩
  · exact ini.get_line old dic _ _ u.load hpath

/-- The tool writes numbers of type `int`. `iniparser_getint` returns an `int`, so `%d` and
`strtol` undo each other. -/
theorem isInt32_intValue (dic : Dictionary) (key : Key) {fallback : ℤ} (h : IsInt32 fallback) :
    IsInt32 (intValue dic key fallback) := by
  unfold intValue getint
  split_ifs
  · split
    · exact isInt32_toInt32 _
    · exact h
  · exact h

/-- The defaults of every edition are numbers of type `int`. They are written and read back like
any other number. -/
theorem isInt32_defaults (os : OsType) :
    IsInt32 (defaultConf os).minLength ∧ IsInt32 (defaultConf os).maxLength ∧
      IsInt32 (defaultConf os).validateRequired ∧ IsInt32 (defaultConf os).palindormeNum ∧
      IsInt32 (defaultConf os).wordCheck ∧
      IsInt32 (defaultConf os).monotoneSameCharacterNum ∧
      IsInt32 (defaultConf os).consecutiveSameCharacterNum := by
  cases os <;> decide

/-- The defaults are numbers of type `int`. -/
theorem isInt32_defaultNumber (os : OsType) (key : Key) : IsInt32 (defaultNumber os key) := by
  obtain ⟨h₁, h₂, h₃, h₄, h₅, h₆, h₇⟩ := isInt32_defaults os
  cases key <;> first | assumption | exact (by decide : IsInt32 0)

/-- What the update may write for one setting: a truth value, a number of type `int`, the
policy or the dictionary path. -/
theorem setting_cases {s : Bytes × Bytes} (hs : s ∈ settings os dic policy) :
    (∃ b, s.2 = boolText b) ∨ (∃ z, IsInt32 z ∧ s.2 = decimal z) ∨
      s = (Key.text .validatePolicy, policy) ∨ s = (Key.text .dictPath, dictPathSetting dic) := by
  have hbool : ∀ key absent, ∃ b, (boolSetting dic key absent).2 = boolText b := by
    intro key absent
    unfold boolSetting
    dsimp only
    split_ifs
    · exact ⟨_, rfl⟩
    · exact ⟨_, rfl⟩
  have hint : ∀ key fallback, IsInt32 fallback →
      ∃ z, IsInt32 z ∧ (intSetting dic key fallback).2 = decimal z :=
    fun key fallback h => ⟨_, isInt32_intValue dic key h, rfl⟩
  obtain ⟨h₁, h₂, h₃, h₄, h₅, h₆, h₇⟩ := isInt32_defaults os
  simp only [settings, List.mem_cons, List.not_mem_nil, or_false] at hs
  rcases hs with rfl | rfl | rfl | rfl | rfl | rfl | rfl | rfl | rfl | rfl | rfl
  · exact Or.inl (hbool _ _)
  · exact Or.inr (Or.inl (hint _ _ h₁))
  · exact Or.inr (Or.inl (hint _ _ h₂))
  · exact Or.inr (Or.inr (Or.inl rfl))
  · exact Or.inr (Or.inl (hint _ _ h₃))
  · exact Or.inr (Or.inl (hint _ _ h₄))
  · exact Or.inr (Or.inl (hint _ _ h₅))
  · exact Or.inr (Or.inl (hint _ _ h₆))
  · exact Or.inr (Or.inl (hint _ _ h₇))
  · exact Or.inr (Or.inr (Or.inr rfl))
  · exact Or.inl (hbool _ _)

/-- No rendered text has a newline or a NUL byte. The rendered text therefore has exactly one line
for each setting. -/
theorem Updated.setting_line (u : Updated ini os old new dic policy)
    {s : Bytes × Bytes} (hs : s ∈ settings os dic policy) : newline ∉ s.2 ∧ 0 ∉ s.2 := by
  rcases setting_cases hs with ⟨b, hb⟩ | ⟨z, -, hz⟩ | rfl | rfl
  · rw [hb]
    have hbool : ∀ b, newline ∉ boolText b ∧ 0 ∉ boolText b := by decide
    exact hbool b
  · rw [hz]
    exact ⟨fun h => absurd (decimal_numeral h) (by decide),
      fun h => absurd (decimal_numeral h) (by decide)⟩
  · exact ⟨u.policy_range.1, u.policy_range.2.1⟩
  · exact u.dictPath_line

private theorem length_key_le (key : Key) : key.text.length ≤ 40 := by
  cases key <;> decide

/-- A truth value does not go on. Only the two texts of the file can take a line in. -/
theorem continues_boolSetting (dic : Dictionary) (key : Key) (absent : Bool) :
    continues (boolSetting dic key absent).2 = false := by
  have hbool : ∀ b, continues (boolText b) = false := by decide
  unfold boolSetting
  dsimp only
  split_ifs
  · exact hbool _
  · exact hbool _

/-- A number does not go on. Only the two texts of the file can take a line in. -/
theorem continues_intSetting (dic : Dictionary) (key : Key) (fallback : ℤ) :
    continues (intSetting dic key fallback).2 = false :=
  continues_of_notMem fun h => absurd (decimal_numeral h) (by decide)

/-- A line that is taken in ends the line that takes it in, if it does not go on. Joining stops
after one line, because numbers and truth values do not go on. -/
theorem continues_append_settingLine (front : Bytes) {key : Key} {text : Bytes}
    (htext : continues text = false) :
    continues (front ++ settingLine (key.text, text)) = false := by
  have hmem : equals ∈ settingLine (key.text, text) := by
    have hmiddle : equals ∈ bytes " = " := by decide
    simp [settingLine, hmiddle]
  have hkey : continues (settingLine (key.text, text)) = continues text :=
    continues_settingLine (s := (key.text, text)) key.isKey_text
  rw [continues_append_of_ne_nil front (trimRight_ne_nil hmem (by decide)), hkey, htext]

/-- The policy as it is read ends its line. At most one line is taken in, because that of a number
ends. -/
theorem continues_joinedPolicy (os : OsType) (dic : Dictionary) (policy : Bytes) :
    continues (joinedPolicy os dic policy) = false := by
  unfold joinedPolicy
  split_ifs with hgoes
  · exact continues_append_settingLine _ (continues_intSetting dic .validateRequired _)
  · simpa using hgoes

/-- The dictionary path as it is read ends its line. At most one line is taken in, because that of
a truth value ends. -/
theorem continues_joinedPath (dic : Dictionary) : continues (joinedPath dic) = false := by
  unfold joinedPath
  split_ifs with hgoes
  · exact continues_append_settingLine _ (continues_boolSetting dic .firstLetterUppercase _)
  · simpa using hgoes

/-- **The settings as they are read.** The policy and the dictionary path may each take in the line
behind them. -/
theorem readSettings_eq (os : OsType) (dic : Dictionary) (policy : Bytes) :
    readSettings os dic policy =
      [ boolSetting dic .strongPassword true,
        intSetting dic .passwordMinLength (defaultConf os).minLength,
        intSetting dic .passwordMaxLength (defaultConf os).maxLength,
        (Key.text .validatePolicy, joinedPolicy os dic policy) ] ++
      (if continues policy then []
        else [intSetting dic .validateRequired (defaultConf os).validateRequired]) ++
      [ intSetting dic .palindromeNum (defaultConf os).palindormeNum,
        intSetting dic .wordCheck (defaultConf os).wordCheck,
        intSetting dic .monotoneCharacterNum (defaultConf os).monotoneSameCharacterNum,
        intSetting dic .consecutiveSameCharacterNum (defaultConf os).consecutiveSameCharacterNum,
        (Key.text .dictPath, joinedPath dic) ] ++
      (if continues (dictPathSetting dic) then []
        else [boolSetting dic .firstLetterUppercase false]) := by
  have hpolicy := continues_joinedPolicy os dic policy
  have hpath := continues_joinedPath dic
  unfold joinedPolicy at hpolicy
  unfold joinedPath at hpath
  unfold readSettings settings joinedPolicy joinedPath
  by_cases hgoes : continues policy = true <;>
    by_cases hpathGoes : continues (dictPathSetting dic) = true <;>
    simp_all [joinSettings, joinSetting, continues_boolSetting, continues_intSetting]

/-- The keys that are read are those whose lines are not taken in. It is proved by the four
combinations of a policy and a path that go on or do not. -/
theorem keys_readSettings (os : OsType) (dic : Dictionary) (policy : Bytes) :
    (readSettings os dic policy).map Prod.fst =
      (Key.managed.filter fun key => !isTakenIn dic policy key).map Key.text := by
  rw [readSettings_eq]
  unfold isTakenIn
  cases continues policy <;> cases continues (dictPathSetting dic) <;> rfl

/-- A number is read under its key, unless its line is taken in. The line of `VALIDATE_REQUIRED`
is the only one of a number that can be. -/
theorem mem_readSettings_number {key : Key} (hkey : key ∈ Key.numbers)
    (hkept : isTakenIn dic policy key = false) :
    intSetting dic key (defaultNumber os key) ∈ readSettings os dic policy := by
  rw [readSettings_eq]
  simp only [Key.numbers, List.mem_cons, List.not_mem_nil, or_false] at hkey
  rcases hkey with rfl | rfl | rfl | rfl | rfl | rfl | rfl
  · simp [defaultNumber]
  · simp [defaultNumber]
  · have hends : continues policy = false := by simpa [isTakenIn] using hkept
    simp [defaultNumber, hends]
  · simp [defaultNumber]
  · simp [defaultNumber]
  · simp [defaultNumber]
  · simp [defaultNumber]

/-- A truth value is read under its key, unless its line is taken in. The line of
`FIRST_LETTER_UPPERCASE` is the only one of a truth value that can be. -/
theorem mem_readSettings_truth {key : Key} (hkey : key ∈ Key.truths)
    (hkept : isTakenIn dic policy key = false) :
    boolSetting dic key (defaultTruth key) ∈ readSettings os dic policy := by
  rw [readSettings_eq]
  simp only [Key.truths, List.mem_cons, List.not_mem_nil, or_false] at hkey
  rcases hkey with rfl | rfl
  · simp [defaultTruth]
  · have hends : continues (dictPathSetting dic) = false := by simpa [isTakenIn] using hkept
    simp [defaultTruth, hends]

/-- The policy is read under its key. Its text may include a line that was taken in. -/
theorem mem_readSettings_policy (os : OsType) (dic : Dictionary) (policy : Bytes) :
    (Key.text .validatePolicy, joinedPolicy os dic policy) ∈ readSettings os dic policy := by
  simp [readSettings_eq]

/-- The dictionary path is read under its key. Its text may include a line that was taken in. -/
theorem mem_readSettings_path (os : OsType) (dic : Dictionary) (policy : Bytes) :
    (Key.text .dictPath, joinedPath dic) ∈ readSettings os dic policy := by
  simp [readSettings_eq]

/-- Every rendered line but that of the dictionary path is short. The shortest line limit that is
assumed is 1000 bytes. -/
theorem Updated.length_setting (u : Updated ini os old new dic policy) {s : Bytes × Bytes}
    (hs : s ∈ settings os dic policy) (hpath : s ≠ (Key.text .dictPath, dictPathSetting dic)) :
    (settingLine s).length < 600 := by
  have hkey : s.1.length ≤ 40 := by
    have hmem : s.1 ∈ Key.managed.map Key.text := by
      rw [← map_fst_settings os dic policy]
      exact List.mem_map_of_mem hs
    obtain ⟨key, -, hkey⟩ := List.mem_map.mp hmem
    rw [← hkey]
    exact length_key_le key
  have htext : s.2.length ≤ 495 := by
    rcases setting_cases hs with ⟨b, hb⟩ | ⟨z, hz, hdecimal⟩ | rfl | rfl
    · rw [hb]
      cases b <;> decide
    · rw [hdecimal]
      exact (length_decimal_le hz).trans (by decide)
    · exact u.policy_range.2.2.2
    · exact absurd rfl hpath
  rw [length_settingLine]
  omega

/-- The line of a key that is not the dictionary path is short. Only the path can be too long for
the buffer of the library. -/
theorem Updated.length_setting_of_ne (u : Updated ini os old new dic policy) {key : Key}
    {text : Bytes} (hs : (key.text, text) ∈ settings os dic policy) (hkey : key ≠ .dictPath) :
    (settingLine (key.text, text)).length < 600 :=
  u.length_setting hs fun h =>
    hkey (Key.lower_text_injective (congrArg (fun s : Bytes × Bytes => lower s.1) h))

/-- What stays of a text that goes on is shorter. The sum with the next line can therefore be
bounded. -/
theorem length_carryOver_le (s : Bytes) : (carryOver s).length ≤ s.length :=
  ((List.dropLast_sublist _).trans (List.rdropWhile_prefix _ _).sublist).length_le

/-- The line of the policy is short, also with the line that it takes in. A policy never makes a
file unreadable. -/
theorem Updated.length_joinedPolicy (u : Updated ini os old new dic policy) :
    (settingLine (Key.text .validatePolicy, joinedPolicy os dic policy)).length < 600 := by
  have hkey : (Key.text .validatePolicy).length = 15 := by decide
  have hpolicy := u.policy_range.2.2.2
  rw [length_settingLine]
  dsimp only
  unfold joinedPolicy
  split_ifs
  · have hcarry := length_carryOver_le policy
    have hrequired : (Key.text .validateRequired).length = 17 := by decide
    have hnumber := length_decimal_le (isInt32_intValue dic .validateRequired
      (isInt32_defaults os).2.2.1)
    rw [List.length_append, intSetting, length_settingLine]
    dsimp only
    omega
  · omega

/-- A setting that ends its line and fits makes no difference to the lines behind it. The lines
are checked off one by one with it. -/
theorem linesFit_setting {limit : ℕ} {key : Key} {text : Bytes}
    (hfits : (settingLine (key.text, text)).length < limit) (hends : continues text = false)
    (ls : List Bytes) :
    linesFit limit [] (settingLine (key.text, text) :: ls) = linesFit limit [] ls := by
  have hline : continues (settingLine (key.text, text)) = false := by
    rw [continues_settingLine (s := (key.text, text)) key.isKey_text, hends]
  rw [linesFit_cons_of_ended hline, decide_eq_true hfits, Bool.true_and]

/-- A setting that goes on has to fit, alone and with the line that it takes in. The lines are
checked off two at a time with it. -/
theorem linesFit_joined {limit : ℕ} {key : Key} {text m : Bytes} (hgoes : continues text = true)
    (hends : continues (carryOver text ++ m) = false) (ls : List Bytes) :
    linesFit limit [] (settingLine (key.text, text) :: m :: ls) =
      (decide ((settingLine (key.text, text)).length < limit) &&
        (decide ((settingLine (key.text, carryOver text ++ m)).length < limit) &&
          linesFit limit [] ls)) := by
  have hline : continues (settingLine (key.text, text)) = true := by
    rw [continues_settingLine (s := (key.text, text)) key.isKey_text, hgoes]
  have hcarry : carryOver (settingLine (key.text, text)) ++ m =
      settingLine (key.text, carryOver text ++ m) := by
    rw [carryOver_settingLine (s := (key.text, text)) hgoes]
    simp [settingLine]
  have hjoined : continues (settingLine (key.text, carryOver text ++ m)) = false := by
    rw [continues_settingLine (s := (key.text, carryOver text ++ m)) key.isKey_text, hends]
  rw [linesFit_cons_of_continues hline (by rw [hcarry]; exact hjoined), hcarry]

/-- The line of the policy fits, also with the line that it takes in. The reader thus comes to the
line behind both with an empty buffer. -/
theorem Updated.linesFit_policy (u : Updated ini os old new dic policy) (ls : List Bytes) :
    linesFit ini.lineLimit [] (settingLine (Key.text .validatePolicy, policy) ::
        settingLine (intSetting dic .validateRequired (defaultConf os).validateRequired) :: ls) =
      linesFit ini.lineLimit [] ls := by
  have hlimit := ini.lineLimit_ge
  have hshort : (settingLine (Key.text .validatePolicy, policy)).length < 600 :=
    u.length_setting_of_ne (by simp [settings]) (by decide)
  have hjoinedShort := u.length_joinedPolicy
  have hrequired : (settingLine (intSetting dic .validateRequired
      (defaultConf os).validateRequired)).length < 600 :=
    u.length_setting_of_ne (by simp [settings, intSetting]) (by decide)
  have hjoinedEnds := continues_joinedPolicy os dic policy
  unfold joinedPolicy at hjoinedShort hjoinedEnds
  by_cases hgoes : continues policy = true
  · rw [if_pos hgoes] at hjoinedShort hjoinedEnds
    rw [linesFit_joined hgoes hjoinedEnds, decide_eq_true (by omega), decide_eq_true (by omega)]
    rfl
  · have hends : continues policy = false := by simpa using hgoes
    rw [linesFit_setting (by omega) hends]
    exact linesFit_setting (lt_of_lt_of_le hrequired (by omega))
      (continues_intSetting dic .validateRequired _) ls

/-- The last two lines fit exactly if that of the dictionary path does. A dictionary path can have
as many bytes as a line of the old file. -/
theorem Updated.linesFit_path (u : Updated ini os old new dic policy) :
    linesFit ini.lineLimit [] [settingLine (Key.text .dictPath, dictPathSetting dic),
        settingLine (boolSetting dic .firstLetterUppercase false)] = true ↔ PathFits ini dic := by
  have hlimit := ini.lineLimit_ge
  have hupper : (settingLine (boolSetting dic .firstLetterUppercase false)).length < 600 :=
    u.length_setting_of_ne (by simp [settings, boolSetting]) (by decide)
  have hjoinedEnds := continues_joinedPath dic
  unfold PathFits joinedPath
  unfold joinedPath at hjoinedEnds
  by_cases hgoes : continues (dictPathSetting dic) = true
  · rw [if_pos hgoes] at hjoinedEnds ⊢
    rw [linesFit_joined hgoes hjoinedEnds]
    simp [linesFit]
  · have hends : continues (dictPathSetting dic) = false := by simpa using hgoes
    have hline : continues (settingLine (Key.text .dictPath, dictPathSetting dic)) = false := by
      rw [continues_settingLine (Key.isKey_text .dictPath)]
      exact hends
    have hlast : linesFit ini.lineLimit []
        [settingLine (boolSetting dic .firstLetterUppercase false)] = true :=
      (linesFit_setting (lt_of_lt_of_le hupper (by omega))
        (continues_boolSetting dic .firstLetterUppercase false) []).trans rfl
    rw [if_neg hgoes, linesFit_cons_of_ended hline, hlast]
    simp

/-- The lines of an updated file fit exactly if that of the dictionary path does. This is the
condition `PathFits`. -/
theorem Updated.linesFit_iff (u : Updated ini os old new dic policy) :
    linesFit ini.lineLimit [] ((settings os dic policy).map settingLine) = true ↔
      PathFits ini dic := by
  have hlimit := ini.lineLimit_ge
  have hbool : ∀ key absent, boolSetting dic key absent ∈ settings os dic policy →
      key ≠ .dictPath → ∀ ls, linesFit ini.lineLimit []
        (settingLine (boolSetting dic key absent) :: ls) = linesFit ini.lineLimit [] ls := by
    intro key absent hmem hkey ls
    have hline := u.length_setting_of_ne hmem hkey
    exact linesFit_setting (lt_of_lt_of_le hline (by omega))
      (continues_boolSetting dic key absent) ls
  have hint : ∀ key fallback, intSetting dic key fallback ∈ settings os dic policy →
      key ≠ .dictPath → ∀ ls, linesFit ini.lineLimit []
        (settingLine (intSetting dic key fallback) :: ls) = linesFit ini.lineLimit [] ls := by
    intro key fallback hmem hkey ls
    have hline := u.length_setting_of_ne hmem hkey
    exact linesFit_setting (lt_of_lt_of_le hline (by omega))
      (continues_intSetting dic key fallback) ls
  rw [← u.linesFit_path]
  unfold settings
  simp only [List.map_cons, List.map_nil]
  rw [hbool _ _ (by simp [settings]) (by decide), hint _ _ (by simp [settings]) (by decide),
    hint _ _ (by simp [settings]) (by decide), u.linesFit_policy,
    hint _ _ (by simp [settings]) (by decide), hint _ _ (by simp [settings]) (by decide),
    hint _ _ (by simp [settings]) (by decide), hint _ _ (by simp [settings]) (by decide)]

/-- **Reading an updated file.** It can be read exactly if the dictionary path fits on its
line. -/
theorem Updated.load_new (u : Updated ini os old new dic policy) :
    ini.load new = if PathFits ini dic then some (newDictionary ini os dic policy) else none := by
  have hlimit := ini.lineLimit_ge
  have hheader : readLine (bytes "[Password]") = .header (bytes "password") := by decide
  have hshort : (bytes "[Password]").length < ini.lineLimit := by
    have hlength : (bytes "[Password]").length = 10 := by decide
    omega
  rw [u.new_eq, appendString, ini.load_sectionText hheader (by decide) hshort (by decide)
    (by decide) (by decide) (fun s hs => isKey_of_mem_settings hs) (fun s hs => u.setting_line hs)]
  exact if_congr u.linesFit_iff rfl rfl

/-- The keys that are read are distinct. The value of each is found without regard to the
others. -/
theorem nodup_readSettings (os : OsType) (dic : Dictionary) (policy : Bytes) :
    ((readSettings os dic policy).map fun s => lower s.1).Nodup :=
  nodup_joinSettings (nodup_settings os dic policy)

/-- The value of a key that is read. Every option of the new file is computed from this value. -/
theorem get_newDictionary {key : Key} {text : Bytes}
    (hs : (key.text, text) ∈ readSettings os dic policy) :
    (newDictionary ini os dic policy).get key.name = some (value ini.quoted (strip text)) := by
  unfold Dictionary.get newDictionary
  rw [key.lower_name]
  exact lookup_settings (nodup_readSettings os dic policy) hs

/-- A key that is read is found. The next update keeps it and does not write the default. -/
theorem findEntry_newDictionary {key : Key} {text : Bytes}
    (hs : (key.text, text) ∈ readSettings os dic policy) :
    findEntry (newDictionary ini os dic policy) key.name = true := by
  unfold findEntry
  rw [get_newDictionary hs]
  rfl

/-- A key that is not read has no value. The library then takes its fallback. -/
theorem get_newDictionary_none {key : Key}
    (habsent : key.text ∉ (readSettings os dic policy).map Prod.fst) :
    (newDictionary ini os dic policy).get key.name = none := by
  have hkeys : ((readSettings os dic policy).map Prod.fst).Sublist
      (Key.managed.map Key.text) := by
    have hsub := keys_joinSettings none (settings os dic policy)
    rwa [map_fst_settings] at hsub
  unfold Dictionary.get newDictionary
  rw [key.lower_name]
  refine lookup_settings_none ?_
  intro s hs hlower
  have hmem := List.mem_map_of_mem (f := Prod.fst) hs
  obtain ⟨other, -, htext⟩ := List.mem_map.mp (hkeys.subset hmem)
  rw [← htext] at hlower
  have heq : other = key := Key.lower_text_injective hlower
  rw [← heq, htext] at habsent
  exact habsent hmem

/-- A key that the tool does not render has no value, and neither has one whose line is taken
in. -/
theorem get_newDictionary_eq_none {key : Key}
    (h : key ∉ Key.managed ∨ isTakenIn dic policy key = true) :
    (newDictionary ini os dic policy).get key.name = none := by
  apply get_newDictionary_none
  rw [keys_readSettings]
  intro hmem
  obtain ⟨other, hother, htext⟩ := List.mem_map.mp hmem
  obtain rfl : other = key := Key.lower_text_injective (congrArg lower htext)
  obtain ⟨hmanaged, hkept⟩ := List.mem_filter.mp hother
  rcases h with hnot | htaken
  · exact hnot hmanaged
  · rw [htaken] at hkept
    cases hkept

/-- **Numbers of an updated file.** A number is read back, whatever the fallback, unless its line
is taken in. -/
theorem getint_newDictionary {key : Key} (hkey : key ∈ Key.numbers) (other : ℤ) :
    getint (newDictionary ini os dic policy) key.name other =
      if isTakenIn dic policy key then other else intValue dic key (defaultNumber os key) := by
  split_ifs with htaken
  · unfold getint
    rw [get_newDictionary_eq_none (Or.inr htaken)]
  · have hread : intSetting dic key (defaultNumber os key) ∈ readSettings os dic policy :=
      mem_readSettings_number hkey (by simpa using htaken)
    have hget : (newDictionary ini os dic policy).get key.name =
        some (value ini.quoted (strip (intSetting dic key (defaultNumber os key)).2)) :=
      get_newDictionary hread
    rw [intSetting, value_plain ini.quoted (decimal_plain _)] at hget
    unfold getint
    rw [hget]
    exact toInt32_strtol_decimal (isInt32_intValue dic key (isInt32_defaultNumber os key))

/-- **Truth values of an updated file.** A truth value is read back, whatever the fallback, unless
its line is taken in. -/
theorem getboolean_newDictionary {key : Key} (hkey : key ∈ Key.truths) (other : Bool) :
    getboolean (newDictionary ini os dic policy) key.name other =
      if isTakenIn dic policy key then other
      else if findEntry dic key.name then getboolean dic key.name false
      else defaultTruth key := by
  by_cases htaken : isTakenIn dic policy key = true
  · rw [if_pos htaken]
    unfold getboolean
    rw [get_newDictionary_eq_none (Or.inr htaken)]
  · have hread : boolSetting dic key (defaultTruth key) ∈ readSettings os dic policy :=
      mem_readSettings_truth hkey (by simpa using htaken)
    have htext : (boolSetting dic key (defaultTruth key)).2 = boolText
        (if findEntry dic key.name then getboolean dic key.name false else defaultTruth key) := by
      unfold boolSetting
      split_ifs <;> rfl
    have hget : (newDictionary ini os dic policy).get key.name =
        some (value ini.quoted (strip (boolSetting dic key (defaultTruth key)).2)) :=
      get_newDictionary hread
    rw [htext, value_plain ini.quoted (boolText_plain _)] at hget
    rw [if_neg htaken, getboolean, hget]
    dsimp only
    rw [truth_boolText, Option.getD_some]

end

/-- The update of a file without settings, on the professional edition. -/
theorem emptySection_updated :
    Updated iniparser .professional emptySection (appendString .professional [] defaultPolicy)
      [] defaultPolicy :=
  updated_of_load rfl rfl (by decide +kernel)

end DeepinPwCheck
