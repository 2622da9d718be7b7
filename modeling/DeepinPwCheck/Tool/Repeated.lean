import DeepinPwCheck.Runs.Trace
import DeepinPwCheck.Tool.AppendString
import DeepinPwCheck.Tool.Kept
import DeepinPwCheck.Tool.RoundTrip

/-!
# Updating again and again

The library and the package run the tool whenever they need to, and the edition can change in
between. Once the tool has written a file in which no line goes on, a complete update keeps its
scalar settings and does not look at the edition, and it can only make the policy and the
dictionary path shorter. So a run of updates settles. A policy that ends in a backslash is left out:
it takes in the line of `VALIDATE_REQUIRED`, which then has the default of the edition.
-/

namespace DeepinPwCheck

open CText Ini

/-- No line of the file goes on. -/
def linesEnd (file : Bytes) : Bool := (lines file).all fun ℓ => !continues ℓ

/-- A file that an update has written, in which no line goes on. -/
inductive Rendered (ini : LineParser) (file : Bytes) : Prop where
  | intro (os : OsType) (old : Bytes) (dic : Dictionary) (policy : Bytes)
      (updated : Updated ini os old file dic policy) (ends : linesEnd file = true)

/-- A complete update of the file, if it is one. -/
def updateStep (ini : LineParser) (file : Bytes) (os : OsType) : Option Bytes :=
  match updateConf ini allSucceed os (some file) with
  | .ok (ret, some new) => if ret = 0 then some new else none
  | _ => none

/-- A complete update that leaves no line that goes on. -/
def plainStep (ini : LineParser) (file : Bytes) (os : OsType) : Option Bytes :=
  (updateStep ini file os).filter linesEnd

/-- A run of such updates, each for its edition. -/
abbrev UpdateRun (ini : LineParser) : Bytes → List OsType → Bytes → Prop :=
  Trace.Run (plainStep ini)

/-- The settings with a dictionary path that need not be the one of the file. -/
def settingsWith (os : OsType) (dic : Dictionary) (policy path : Bytes) : List (Bytes × Bytes) :=
  settingsAgain os dic policy path
    (intValue dic .validateRequired (defaultConf os).validateRequired)

/-- Neither the policy nor the dictionary path goes on. -/
def TextsEnd (dic : Dictionary) (policy : Bytes) : Prop :=
  continues policy = false ∧ continues (dictPathSetting dic) = false

/-- The options that a written file stands for, with a policy and a dictionary path. -/
def renderedOptions (os : OsType) (dic : Dictionary) (characterType dictPath : Bytes) :
    Options where
  enabled := if findEntry dic (Key.name .strongPassword) then
    getboolean dic (Key.name .strongPassword) false else true
  minLen := intValue dic .passwordMinLength (defaultConf os).minLength
  maxLen := intValue dic .passwordMaxLength (defaultConf os).maxLength
  characterType := characterType
  characterNumRequired := intValue dic .validateRequired (defaultConf os).validateRequired
  palindromeMinNum := intValue dic .palindromeNum (defaultConf os).palindormeNum
  checkWord := intValue dic .wordCheck (defaultConf os).wordCheck
  dictPath := dictPath
  monotoneCharacterNum :=
    intValue dic .monotoneCharacterNum (defaultConf os).monotoneSameCharacterNum
  consecutiveSameCharacterNum :=
    intValue dic .consecutiveSameCharacterNum (defaultConf os).consecutiveSameCharacterNum
  firstLetterUppercase := if findEntry dic (Key.name .firstLetterUppercase) then
    getboolean dic (Key.name .firstLetterUppercase) false else false
  passwordLengthStandardHigh := 8
  passwordLengthStandardMiddle := 6
  passwordCharacterTypeNumHigh := 3
  passwordCharacterTypeNumMiddle := 2

section

variable {ini : LineParser} {os os' : OsType} {old new next policy policy' : Bytes}
  {dic dic' : Dictionary}

/-- A step of a run is a complete update. The facts about one update apply to every step. -/
theorem updateStep_eq_some_iff :
    updateStep ini old os = some new ↔
      updateConf ini allSucceed os (some old) = .ok (0, some new) := by
  unfold updateStep
  split
  · rename_i ret file heq
    rw [heq]
    split_ifs with hret
    · simp [hret]
    · simp [hret]
  · rename_i hne
    refine iff_of_false (by simp) (fun heq => hne 0 new heq)

/-- A step of a run is a complete update after which no line goes on. Runs are about such updates,
so that no line is lost to the one in front of it. -/
theorem plainStep_eq_some_iff :
    plainStep ini old os = some new ↔ updateStep ini old os = some new ∧ linesEnd new = true := by
  unfold plainStep
  rw [Option.filter_eq_some_iff]

/-- No rendered text goes on. Numbers and truth values never do. -/
theorem TextsEnd.continues_setting (h : TextsEnd dic policy) {s : Bytes × Bytes}
    (hs : s ∈ settings os dic policy) : continues s.2 = false := by
  rcases setting_cases hs with ⟨b, hb⟩ | ⟨z, -, hz⟩ | rfl | rfl
  · rw [hb]
    cases b <;> decide
  · rw [hz]
    exact continues_of_notMem fun h => absurd (decimal_numeral h) (by decide)
  · exact h.1
  · exact h.2

/-- The lines of an updated file end exactly if its policy and its dictionary path do. The
condition on the file becomes one on the two texts that the tool copies. -/
theorem Updated.linesEnd_iff (u : Updated ini os old new dic policy) :
    linesEnd new = true ↔ TextsEnd dic policy := by
  have hlines : lines new = bytes "[Password]" :: (settings os dic policy).map settingLine := by
    rw [u.new_eq, appendString]
    exact lines_sectionText (by decide) (fun s hs => isKey_of_mem_settings hs)
      (fun s hs => (u.setting_line hs).1)
  have hsettings : ∀ s ∈ settings os dic policy, continues (settingLine s) = continues s.2 :=
    fun s hs => continues_settingLine (isKey_of_mem_settings hs)
  have hheader : continues (bytes "[Password]") = false := by decide
  unfold linesEnd TextsEnd
  rw [hlines, List.all_eq_true, List.forall_mem_cons, List.forall_mem_map]
  constructor
  · rintro ⟨-, h⟩
    have hpolicy := h (Key.text .validatePolicy, policy) (by simp [settings])
    have hpath := h (Key.text .dictPath, dictPathSetting dic) (by simp [settings])
    rw [hsettings _ (by simp [settings])] at hpolicy hpath
    exact ⟨by simpa using hpolicy, by simpa using hpath⟩
  · intro hends
    refine ⟨by rw [hheader]; rfl, ?_⟩
    intro s hs
    rw [hsettings s hs, TextsEnd.continues_setting hends hs]
    rfl

/-- No line is taken in. Every key is then read under its own name. -/
theorem TextsEnd.isTakenIn (h : TextsEnd dic policy) (key : Key) :
    isTakenIn dic policy key = false := by
  simp [DeepinPwCheck.isTakenIn, h.1, h.2]

/-- The dictionary path is read without another line. What is written and what is read agree but
for comments and quotes. -/
theorem TextsEnd.joinedPath (h : TextsEnd dic policy) :
    joinedPath dic = dictPathSetting dic := by
  rw [DeepinPwCheck.joinedPath, h.2, if_neg Bool.false_ne_true]

/-- The numbers of a written file, for every edition. They come from the file, so the edition of a
later update has no say. -/
theorem intValues_newDictionary (ini : LineParser) (os os' : OsType)
    (hends : TextsEnd dic policy) :
    let dic' := newDictionary ini os dic policy
    intValue dic' .passwordMinLength (defaultConf os').minLength =
        intValue dic .passwordMinLength (defaultConf os).minLength ∧
      intValue dic' .passwordMaxLength (defaultConf os').maxLength =
        intValue dic .passwordMaxLength (defaultConf os).maxLength ∧
      intValue dic' .validateRequired (defaultConf os').validateRequired =
        intValue dic .validateRequired (defaultConf os).validateRequired ∧
      intValue dic' .palindromeNum (defaultConf os').palindormeNum =
        intValue dic .palindromeNum (defaultConf os).palindormeNum ∧
      intValue dic' .wordCheck (defaultConf os').wordCheck =
        intValue dic .wordCheck (defaultConf os).wordCheck ∧
      intValue dic' .monotoneCharacterNum (defaultConf os').monotoneSameCharacterNum =
        intValue dic .monotoneCharacterNum (defaultConf os).monotoneSameCharacterNum ∧
      intValue dic' .consecutiveSameCharacterNum (defaultConf os').consecutiveSameCharacterNum =
        intValue dic .consecutiveSameCharacterNum
          (defaultConf os).consecutiveSameCharacterNum := by
  have hnumber : ∀ key ∈ Key.numbers, intValue (newDictionary ini os dic policy) key
      (defaultNumber os' key) = intValue dic key (defaultNumber os key) := by
    intro key hkey
    rw [intValue_newDictionary hkey, hends.isTakenIn, if_neg Bool.false_ne_true]
  exact ⟨hnumber .passwordMinLength (by decide), hnumber .passwordMaxLength (by decide),
    hnumber .validateRequired (by decide), hnumber .palindromeNum (by decide),
    hnumber .wordCheck (by decide), hnumber .monotoneCharacterNum (by decide),
    hnumber .consecutiveSameCharacterNum (by decide)⟩

/-- **The settings of a written file** do not depend on the edition: they are the ones that were
written, with another policy, and the dictionary path as the INI library reads it. -/
theorem TextsEnd.settings_eq (hends : TextsEnd dic policy) (ini : LineParser) (os os' : OsType)
    (policy' : Bytes) :
    settings os' (newDictionary ini os dic policy) policy' =
      settingsWith os dic policy' (value ini.quoted (strip (dictPathSetting dic))) := by
  rw [settings_newDictionary_eq ini os os' hends.2, hends.joinedPath, hends.1,
    if_neg Bool.false_ne_true, settingsWith]

/-- The options that a written file stands for do not change when it is written again. This is the
step lemma for the options along a run. -/
theorem renderedOptions_newDictionary (ini : LineParser) (os os' : OsType)
    (hends : TextsEnd dic policy) (characterType dictPath : Bytes) :
    renderedOptions os' (newDictionary ini os dic policy) characterType dictPath =
      renderedOptions os dic characterType dictPath := by
  obtain ⟨h₁, h₂, h₃, h₄, h₅, h₆, h₇⟩ := intValues_newDictionary ini os os' hends
  have htruth : ∀ key ∈ Key.truths,
      (if findEntry (newDictionary ini os dic policy) key.name then
        getboolean (newDictionary ini os dic policy) key.name false else defaultTruth key) =
      if findEntry dic key.name then getboolean dic key.name false else defaultTruth key := by
    intro key hkey
    have hfind : findEntry (newDictionary ini os dic policy) key.name = true :=
      findEntry_newDictionary (mem_readSettings_truth hkey (hends.isTakenIn key))
    rw [if_pos hfind, getboolean_newDictionary hkey, hends.isTakenIn, if_neg Bool.false_ne_true]
  have hstrong := htruth .strongPassword (by decide)
  have hupper := htruth .firstLetterUppercase (by decide)
  simp only [defaultTruth] at hstrong hupper
  simp only [renderedOptions, h₁, h₂, h₃, h₄, h₅, h₆, h₇, hstrong, hupper]

/-- The options of a written file. They are computed from the old dictionary and the two texts. -/
theorem optionsOf_newDictionary (ini : LineParser) (os : OsType) (hends : TextsEnd dic policy)
    (characterType : Bytes) :
    optionsOf (newDictionary ini os dic policy) characterType =
      renderedOptions os dic characterType
        ((value ini.quoted (strip (dictPathSetting dic))).take 255) := by
  have hnumber : ∀ key ∈ Key.numbers, ∀ other,
      getint (newDictionary ini os dic policy) key.name other =
        intValue dic key (defaultNumber os key) := by
    intro key hkey other
    rw [getint_newDictionary hkey, hends.isTakenIn, if_neg Bool.false_ne_true]
  have htruth : ∀ key ∈ Key.truths, ∀ other,
      getboolean (newDictionary ini os dic policy) key.name other =
        if findEntry dic key.name then getboolean dic key.name false else defaultTruth key := by
    intro key hkey other
    rw [getboolean_newDictionary hkey, hends.isTakenIn, if_neg Bool.false_ne_true]
  simp only [optionsOf]
  rw [hnumber .passwordMinLength (by decide), hnumber .passwordMaxLength (by decide),
    hnumber .validateRequired (by decide), hnumber .palindromeNum (by decide),
    hnumber .wordCheck (by decide), hnumber .monotoneCharacterNum (by decide),
    hnumber .consecutiveSameCharacterNum (by decide), htruth .strongPassword (by decide),
    htruth .firstLetterUppercase (by decide), getstring_newDictionary, hends.joinedPath,
    getint_newDictionary_none (by decide), getint_newDictionary_none (by decide),
    getint_newDictionary_none (by decide), getint_newDictionary_none (by decide)]
  rfl

/-- The length of a written file: the policy and the path are on top of the rest. The two are the
only parts that a later update can shorten. -/
theorem length_settingsWith (os : OsType) (dic : Dictionary) (policy path : Bytes) :
    (sectionText (bytes "[Password]") (settingsWith os dic policy path)).length =
      (sectionText (bytes "[Password]") (settingsWith os dic [] [])).length +
        (policy.length + path.length) := by
  rw [length_sectionText, length_sectionText]
  simp only [settingsWith, settingsAgain, List.map_cons, List.map_nil, List.sum_cons, List.sum_nil,
    List.length_nil]
  omega

/-- **The next update.** It reads the policy of a written file back with the private reader, and
the dictionary path with the INI library. -/
theorem Updated.next_spec (u : Updated ini os old new dic policy) (hends : TextsEnd dic policy)
    (u' : Updated ini os' new next dic' policy') :
    dic' = newDictionary ini os dic policy ∧ policy' = valueText (policy.take 493) ∧
      next = sectionText (bytes "[Password]")
        (settingsWith os dic policy' (value ini.quoted (strip (dictPathSetting dic)))) := by
  have hload := u'.load
  rw [u.load_new] at hload
  split_ifs at hload with hfits
  obtain rfl := Option.some.inj hload
  refine ⟨rfl, ?_, ?_⟩
  · rcases u'.policy_cases with ⟨-, hfind⟩ | ⟨hread, -⟩
    · rw [findEntry_newDictionary (mem_readSettings_policy os dic policy)] at hfind
      cases hfind
    · rw [u.getValidatePolicy_new] at hread
      split_ifs at hread
      exact (PolicyRead.written.inj hread).symm
  · rw [u'.new_eq, appendString, hends.settings_eq]

/-- The next update leaves the file as it is or makes it shorter. This is the measure by which a
run of updates settles. -/
theorem Updated.next_eq_or_length_lt (u : Updated ini os old new dic policy)
    (hends : TextsEnd dic policy) (u' : Updated ini os' new next dic' policy') :
    next = new ∨ next.length < new.length := by
  obtain ⟨-, hpolicy, hnext⟩ := u.next_spec hends u'
  have hnew : new = sectionText (bytes "[Password]")
      (settingsWith os dic policy (dictPathSetting dic)) := u.new_eq
  have hpolicySub : policy'.Sublist policy := by
    rw [hpolicy]
    exact (valueText_sublist _).trans (List.take_sublist _ _)
  have hpathSub : (value ini.quoted (strip (dictPathSetting dic))).Sublist (dictPathSetting dic) :=
    (value_sublist ini.quoted_sublist _).trans (strip_sublist _)
  by_cases hsame : policy' = policy ∧ value ini.quoted (strip (dictPathSetting dic)) =
      dictPathSetting dic
  · left
    rw [hnext, hnew, hsame.1, hsame.2]
  · right
    have hle := hpolicySub.length_le
    have hle' := hpathSub.length_le
    have hless : policy'.length ≠ policy.length ∨
        (value ini.quoted (strip (dictPathSetting dic))).length ≠
          (dictPathSetting dic).length := by
      by_contra hboth
      rw [not_or, not_not, not_not] at hboth
      exact hsame ⟨hpolicySub.eq_of_length hboth.1, hpathSub.eq_of_length hboth.2⟩
    rw [hnext, hnew, length_settingsWith, length_settingsWith os dic policy]
    omega

/-- **The edition and a written file.** Once the tool has written the file completely, without a
line that goes on, what a later update does with it does not depend on the edition, whatever becomes
of its file operations. -/
theorem Updated.updateConf_edition (u : Updated ini os old new dic policy)
    (hends : TextsEnd dic policy) (ops : UpdateOps) (os₁ os₂ : OsType) :
    updateConf ini ops os₁ (some new) = updateConf ini ops os₂ (some new) := by
  have hrendered : renderedText ops os₁ (newDictionary ini os dic policy) new =
      renderedText ops os₂ (newDictionary ini os dic policy) new := by
    unfold renderedText appendString
    rw [policySetting_newDictionary, policySetting_newDictionary]
    simp only [hends.settings_eq]
  unfold updateConf ensureFile
  dsimp only
  by_cases hopen : ops.loadOpen = true
  · rw [if_pos hopen, u.load_new]
    split_ifs
    · dsimp only
      rw [hrendered]
    · rfl
  · rw [if_neg hopen]

/-- A written file is left as it is, for every edition, if its policy and its dictionary path
are read back. -/
theorem Updated.updateStep_new (u : Updated ini os old new dic policy)
    (hends : TextsEnd dic policy) (hspace : policy.head? ≠ some space)
    (hlength : policy.length ≤ 493) (hfits : PathFits ini dic)
    (hplain : PlainPath ini.quoted (dictPathSetting dic)) (os' : OsType) :
    updateStep ini new os' = some new := by
  have hload : ini.load new = some (newDictionary ini os dic policy) := by
    rw [u.load_new, if_pos hfits]
  have hpolicy : policySetting os' (newDictionary ini os dic policy) (some new) =
      .ok policy := by
    rw [policySetting_newDictionary, u.getValidatePolicy_new_eq_iff.mpr ⟨hspace, hlength⟩]
    rfl
  have htext : appendString os' (newDictionary ini os dic policy) policy = new := by
    rw [appendString, hends.settings_eq,
      (value_strip_eq_self_iff ini.quoted_sublist).mpr hplain]
    exact u.new_eq.symm
  have hrun := updateConf_of_load hload hpolicy (by rw [htext]; exact u.length)
  rw [updateStep_eq_some_iff, hrun, htext]

/-- What a step of a run has written. From the second step on the file is known to have this
form. -/
theorem rendered_of_plainStep (hstep : plainStep ini old os = some new) : Rendered ini new := by
  obtain ⟨hupdate, hends⟩ := plainStep_eq_some_iff.mp hstep
  obtain ⟨dic, policy, u⟩ := exists_updated (updateStep_eq_some_iff.mp hupdate)
  exact ⟨os, old, dic, policy, u, hends⟩

/-- A step of a run on a written file. The run lemma of `Runs/Trace` needs both parts. -/
theorem Rendered.step (h : Rendered ini old) (hstep : plainStep ini old os = some new) :
    Rendered ini new ∧ (new = old ∨ new.length < old.length) := by
  obtain ⟨os', older, dic, policy, u, hends⟩ := h
  obtain ⟨dic', policy', u'⟩ :=
    exists_updated (updateStep_eq_some_iff.mp (plainStep_eq_some_iff.mp hstep).1)
  exact ⟨rendered_of_plainStep hstep, u.next_eq_or_length_lt (u.linesEnd_iff.mp hends) u'⟩

/-- The steps on a written file do not depend on the edition. Runs of one length therefore lead to
the same file. -/
theorem Rendered.plainStep_edition (h : Rendered ini old) (os₁ os₂ : OsType) :
    plainStep ini old os₁ = plainStep ini old os₂ := by
  obtain ⟨os, older, dic, policy, u, hends⟩ := h
  unfold plainStep updateStep
  rw [u.updateConf_edition (u.linesEnd_iff.mp hends) allSucceed os₁ os₂]

/-- The number of bytes of the default policy. -/
theorem length_defaultPolicy : defaultPolicy.length = 98 := by
  rw [defaultPolicy]
  repeat rw [bytes_ofList]
  rfl

/-- The default policy begins with a digit. -/
theorem head?_defaultPolicy : defaultPolicy.head? = some 49 := by
  rw [defaultPolicy]
  repeat rw [bytes_ofList]
  rfl

/-- The private reader reads the default policy as it is. It has no quotes and no space in front,
and fewer than 493 bytes. -/
theorem valueText_defaultPolicy :
    valueText (defaultPolicy.take 493) = defaultPolicy ∧
      ¬ OnlyQuotes (defaultPolicy.take 493) := by
  have htake : defaultPolicy.take 493 = defaultPolicy :=
    List.take_of_length_le (by rw [length_defaultPolicy]; decide)
  obtain ⟨rest, hrest⟩ : ∃ rest, defaultPolicy = 49 :: rest :=
    List.head?_eq_some_iff.mp head?_defaultPolicy
  have hskip : defaultPolicy.dropWhile (· == space) = defaultPolicy := by
    rw [hrest]
    exact List.dropWhile_cons_of_neg (by decide)
  have hread := valueText_of_head (r := defaultPolicy)
    (by rw [hskip, head?_defaultPolicy]; decide)
  rwa [hskip, ← htake] at hread

/-- A file that begins a section and has no settings can be read. The tool creates this file where
there is none. -/
theorem load_emptySection (ini : LineParser) : ini.load emptySection = some [] := by
  have hlimit := ini.lineLimit_ge
  have hlength : (bytes "[Password]").length = 10 := by decide
  have hheader : readLine (bytes "[Password]") = .header (bytes "password") := by decide
  have hkeys : ∀ s ∈ ([] : List (Bytes × Bytes)), IsKey s.1 := fun _ hs => by cases hs
  exact ini.load_sectionText hheader (by decide) (by omega) (by decide) (by decide) (by decide)
    hkeys (fun _ hs => by cases hs)

/-- The file with the defaults of an edition. -/
def defaultFile (os : OsType) : Bytes := appendString os [] defaultPolicy

/-- The defaults are written over a file without settings. A fresh installation is this update. -/
theorem defaultFile_updated (ini : LineParser) (os : OsType) :
    Updated ini os emptySection (defaultFile os) [] defaultPolicy := by
  have hpolicy : policySetting os [] (some emptySection) = .ok defaultPolicy := by
    cases os <;> rfl
  have hlength : (appendString os [] defaultPolicy).length < 2048 := by
    have hbound := length_appendString_le os [] defaultPolicy
    have hpath : (dictPathSetting []).length = 0 := rfl
    rw [length_defaultPolicy] at hbound
    omega
  exact updated_of_load (load_emptySection ini) hpolicy hlength

/-- The path of the defaults fits. -/
theorem pathFits_nil (ini : LineParser) : PathFits ini [] := by
  have hlimit := ini.lineLimit_ge
  have hlength : (settingLine (Key.text .dictPath, dictPathSetting [])).length = 12 := by decide
  have hjoined : joinedPath [] = dictPathSetting [] := rfl
  unfold PathFits
  rw [hjoined]
  omega

/-- The default policy does not end in a backslash. -/
theorem textsEnd_defaultPolicy : TextsEnd [] defaultPolicy := by
  refine ⟨?_, rfl⟩
  rw [defaultPolicy]
  repeat rw [bytes_ofList]
  rfl

/-- The defaults of an edition are settled, also for another edition. A system therefore keeps the
defaults of the edition that it was installed as. -/
theorem updateStep_defaultFile (ini : LineParser) (os os' : OsType) :
    updateStep ini (defaultFile os) os' = some (defaultFile os) := by
  have hplain : PlainPath ini.quoted (dictPathSetting []) :=
    ⟨rfl, (fun _ _ h => by cases h), (fun _ _ hc => by cases hc)⟩
  have hspace : defaultPolicy.head? ≠ some space := by
    rw [head?_defaultPolicy]
    decide
  have hlength : defaultPolicy.length ≤ 493 := by
    rw [length_defaultPolicy]
    decide
  exact (defaultFile_updated ini os).updateStep_new textsEnd_defaultPolicy hspace hlength
    (pathFits_nil ini) hplain os'

/-- A complete update that leaves the defaults is a step of a run. The runs on concrete files are
made of such steps. -/
theorem plainStep_of_defaultFile {ini : LineParser} {os os' : OsType} {old : Bytes}
    (h : updateStep ini old os' = some (defaultFile os)) :
    plainStep ini old os' = some (defaultFile os) :=
  plainStep_eq_some_iff.mpr
    ⟨h, (defaultFile_updated ini os).linesEnd_iff.mpr textsEnd_defaultPolicy⟩

/-- Updates of a file without settings, for any number of editions. The second update and all
later ones change nothing. -/
theorem updateRun_defaultFile (ini : LineParser) (os : OsType) (editions : List OsType) :
    UpdateRun ini emptySection (os :: editions) (defaultFile os) := by
  have hfirst : plainStep ini emptySection os = some (defaultFile os) :=
    plainStep_of_defaultFile (updateStep_eq_some_iff.mpr (defaultFile_updated ini os).run)
  refine Trace.run_of_exec ?_
  rw [Trace.exec, hfirst, Option.bind_some]
  exact Trace.exec_of_fixed
    (fun os' => plainStep_of_defaultFile (updateStep_defaultFile ini os os')) editions

/-- **Editions along a run.** Only the edition of the first update counts: the complete updates
that follow it lead to the same file for any other editions. -/
theorem updateRun_editions_iff {first : OsType} {editions editions' : List OsType}
    (hlength : editions.length = editions'.length) :
    UpdateRun ini old (first :: editions) new ↔ UpdateRun ini old (first :: editions') new := by
  have hexec : Trace.exec (plainStep ini) old (first :: editions) =
      Trace.exec (plainStep ini) old (first :: editions') := by
    rw [Trace.exec, Trace.exec]
    cases hfirst : plainStep ini old first with
    | none => rfl
    | some file =>
      exact Trace.exec_eq_of_length_eq (Rendered ini) (fun s os s' hs hs' => (hs.step hs').1)
        (fun s os₁ os₂ hs => hs.plainStep_edition os₁ os₂) (rendered_of_plainStep hfirst) hlength
  constructor
  · intro h
    exact Trace.run_of_exec (hexec ▸ h.exec_eq)
  · intro h
    exact Trace.run_of_exec (hexec.symm ▸ h.exec_eq)

/-- Two updates for the server edition do what updates for two other editions do. -/
theorem updateRun_editions_iff_defaultFile :
    UpdateRun iniparser emptySection [.professional, .server, .server] (defaultFile .professional) ↔
      UpdateRun iniparser emptySection [.professional, .home, .professional]
        (defaultFile .professional) :=
  updateRun_editions_iff rfl

/-- **Settling.** After more than 2048 complete updates that leave no line that goes on, for
whatever editions, every further complete update leaves the file as it is. -/
theorem updateRun_settles {editions : List OsType} (h : UpdateRun ini old editions new)
    (hlong : 2048 < editions.length) (os : OsType) : updateStep ini new os = some new := by
  rcases editions with _ | ⟨first, rest⟩
  · exact absurd hlong (by decide)
  · obtain ⟨file, hfirst, hrest⟩ := h.of_cons
    obtain ⟨dic, policy, u⟩ :=
      exists_updated (updateStep_eq_some_iff.mp (plainStep_eq_some_iff.mp hfirst).1)
    have hlength := u.length
    rw [List.length_cons] at hlong
    have hfixed := hrest.settles (Rendered ini) List.length (rendered_of_plainStep hfirst)
      (fun s os' s' hs hs' => hs.step hs') (fun s os₁ os₂ hs => hs.plainStep_edition os₁ os₂)
      (by omega) os
    exact (plainStep_eq_some_iff.mp hfixed).1

/-- After 2049 updates, all but one for the server edition, nothing changes. -/
theorem updateRun_settles_defaultFile :
    updateStep iniparser (defaultFile .professional) .euler = some (defaultFile .professional) :=
  updateRun_settles (updateRun_defaultFile iniparser .professional (List.replicate 2048 .server))
    (by rw [List.length_cons, List.length_replicate]; decide) .euler

/-- **Scalar options along a run.** The numbers, flags and thresholds that the library reads
after any further complete updates, for whatever editions, are those that it read after the
first one, as long as no line goes on. -/
theorem updateRun_options {editions : List OsType} {file : Bytes} {options options' : Options}
    (hfirst : plainStep ini old os = some file) (hrun : UpdateRun ini file editions new)
    (hoptions : loadPwdConf ini (some file) (some file) = .ok options)
    (hoptions' : loadPwdConf ini (some new) (some new) = .ok options') :
    options' = { options with
      characterType := options'.characterType, dictPath := options'.dictPath } := by
  obtain ⟨hupdate, hfileEnds⟩ := plainStep_eq_some_iff.mp hfirst
  obtain ⟨dic, policy, u⟩ := exists_updated (updateStep_eq_some_iff.mp hupdate)
  have hends := u.linesEnd_iff.mp hfileEnds
  obtain ⟨osNew, older, dicNew, policyNew, uNew, hendsNew, hsame⟩ : ∃ osNew older dicNew policyNew,
      Updated ini osNew older new dicNew policyNew ∧ TextsEnd dicNew policyNew ∧
        ∀ characterType dictPath, renderedOptions osNew dicNew characterType dictPath =
          renderedOptions os dic characterType dictPath := by
    apply Trace.Run.invariant (P := fun _ new => ∃ osNew older dicNew policyNew,
      Updated ini osNew older new dicNew policyNew ∧ TextsEnd dicNew policyNew ∧
        ∀ characterType dictPath, renderedOptions osNew dicNew characterType dictPath =
          renderedOptions os dic characterType dictPath) _ _ hrun
    · exact ⟨os, old, dic, policy, u, hends, fun _ _ => rfl⟩
    · rintro - s os' s' - ⟨osNew, older, dicNew, policyNew, uNew, hendsNew, hsame⟩ hstep
      obtain ⟨hupdate', hends'⟩ := plainStep_eq_some_iff.mp hstep
      obtain ⟨dic', policy', u'⟩ := exists_updated (updateStep_eq_some_iff.mp hupdate')
      obtain ⟨rfl, -, -⟩ := uNew.next_spec hendsNew u'
      refine ⟨os', s, _, policy', u', u'.linesEnd_iff.mp hends', fun characterType dictPath => ?_⟩
      rw [renderedOptions_newDictionary ini osNew os' hendsNew, hsame]
  obtain ⟨-, -, rfl⟩ := (u.loadPwdConf_new options).mp hoptions
  obtain ⟨-, -, rfl⟩ := (uNew.loadPwdConf_new options').mp hoptions'
  rw [optionsOf_newDictionary ini os hends, optionsOf_newDictionary ini osNew hendsNew, hsame]
  rfl

/-- The options of the professional edition survive an update for the server edition. -/
theorem updateRun_options_defaultFile : ∃ options,
    loadPwdConf iniparser (some (defaultFile .professional)) (some (defaultFile .professional)) =
        .ok options ∧
      options = { options with
        characterType := options.characterType, dictPath := options.dictPath } := by
  have hdefaults := defaultFile_updated iniparser .professional
  have hoptions := (hdefaults.loadPwdConf_new _).mpr
    ⟨pathFits_nil iniparser, valueText_defaultPolicy.2, rfl⟩
  have hrun : UpdateRun iniparser (defaultFile .professional) [.server]
      (defaultFile .professional) := by
    have hfixed : ∀ os', plainStep iniparser (defaultFile .professional) os' =
        some (defaultFile .professional) :=
      fun os' => plainStep_of_defaultFile (updateStep_defaultFile iniparser .professional os')
    exact Trace.run_of_exec (Trace.exec_of_fixed hfixed [.server])
  have hfirst : plainStep iniparser emptySection .professional =
      some (defaultFile .professional) :=
    plainStep_of_defaultFile (updateStep_eq_some_iff.mpr hdefaults.run)
  exact ⟨_, hoptions, updateRun_options hfirst hrun hoptions hoptions⟩

end

end DeepinPwCheck
