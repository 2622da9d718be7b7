import DeepinPwCheck.Ini.Truncated
import DeepinPwCheck.Tool.Lifecycle

/-!
# Short writes

`update_conf` empties the file before it writes, and does not look at what becomes of the bytes
that `fwrite` has buffered. This file says what becomes of a system whose disk was full: where the
cut falls into a name, the file cannot be read again and the tool never repairs it. Elsewhere the
number at the cut loses its last digits, and the next update keeps what is left of it. All of this
is about files in which no line goes on in the next one.
-/

namespace DeepinPwCheck

open CText Ini

/-- Everything succeeds, but only the first `n` bytes are stored. -/
def storing (n : ℕ) : UpdateOps := { allSucceed with stored := n }

/-- The number that `load_pwd_conf` takes where a key is missing. -/
def loadNumber : Key → ℤ
  | .passwordMinLength => 1
  | .passwordMaxLength => 512
  | .validateRequired => 1
  | _ => 0

/-- What is read of a number when the last bytes of its line are lost: it loses as many digits,
and where the equals sign is lost too there is a fallback. -/
def cutNumber (z : ℤ) (lost : ℕ) (absent : ℤ) : ℤ :=
  if lost ≤ (decimal z).length + 1 then z.tdiv (10 ^ lost) else absent

/-- What is read of a truth value when the last bytes of its line are lost: one letter is enough,
and there is one fallback for an empty text and one for a missing line. -/
def cutTruth (b : Bool) (lost : ℕ) (empty absent : Bool) : Bool :=
  if lost < (boolText b).length then b
  else if lost ≤ (boolText b).length + 1 then empty else absent

section

variable {ini : LineParser} {lib : CrackLib} {os : OsType} {old new policy : Bytes}
  {dic : Dictionary} {sys sys' : System} {n : ℕ}

/-- An updated file is a section that can be read, if no line goes on. The facts about sections
that were cut off apply to it. -/
theorem Updated.isSection (u : Updated ini os old new dic policy) (hfits : PathFits ini dic)
    (hends : TextsEnd dic policy) :
    IsSection ini (bytes "[Password]") (bytes "password") (settings os dic policy) where
  header_eq := by decide
  header_take := by
    have hlength : (bytes "[Password]").length = 10 := by decide
    have hcuts : ∀ n < 10, 0 < n → readLine ((bytes "[Password]").take n) = .malformed := by
      rw [bytes_ofList]
      decide
    rw [hlength]
    exact fun n hpos hn => hcuts n hn hpos
  header_plain := by decide
  header_length := by
    have hlimit := ini.lineLimit_ge
    have hlength : (bytes "[Password]").length = 10 := by decide
    omega
  header_line := by decide
  isKey := fun s hs => isKey_of_mem_settings hs
  line := fun s hs => u.setting_line hs
  ends := fun s hs => hends.continues_setting hs
  length_line := by
    intro s hs
    by_cases hpath : s = (Key.text .dictPath, dictPathSetting dic)
    · rw [hpath]
      exact hfits.1
    · have hlimit := ini.lineLimit_ge
      have hline := u.length_setting hs hpath
      omega
  nodup := nodup_settings os dic policy

/-- A short write is taken for a complete one: the bytes that are lost were in the buffer of
`fwrite`. -/
theorem Updated.updateConf_storing (u : Updated ini os old new dic policy) (n : ℕ) :
    updateConf ini (storing n) os (some old) = .ok (0, some (new.take n)) := by
  have htext : renderedText (storing n) os dic old = .ok new := by
    have hopen : (if (storing n).policyOpen then some old else none) = some old := rfl
    unfold renderedText
    rw [hopen, u.policy_eq]
    dsimp only
    rw [← u.new_eq, if_pos u.length]
  have hopen : (if (storing n).loadOpen then ini.load old else none) = some dic := u.load
  have hne : new.length ≠ 0 := by
    rw [u.new_eq]
    exact fun h => appendString_ne_nil os dic policy (List.length_eq_zero_iff.mp h)
  have hwritten : (storing n).written = 2048 := rfl
  unfold updateConf ensureFile
  dsimp only
  rw [hopen]
  dsimp only
  rw [htext]
  dsimp only
  unfold writeText
  rw [if_neg hne, if_neg (by simp [storing, allSucceed]), hwritten, if_neg (by omega),
    if_neg (by simp [storing, allSucceed])]
  rfl

/-- The tool leaves a file that it cannot read as it is, whatever becomes of its operations. It
gives up before it opens the file for writing. -/
theorem updateConf_of_unreadable {ini : Parser} {ops : UpdateOps} {file : Bytes}
    (hload : ini.load file = none) :
    updateConf ini ops os (some file) = .ok (-1, some file) := by
  have hnone : (if ops.loadOpen then ini.load file else none) = none := by
    rw [hload, ite_self]
  unfold updateConf ensureFile
  dsimp only
  rw [hnone]

/-- The tool does not repair the configuration file. The file is there, so it is not created anew
either. -/
theorem conf_of_toolMain {ini : Parser} {ops : UpdateOps} {file : Bytes}
    (hconf : sys.conf = some file) (hload : ini.load file = none)
    (h : toolMain ini ops sys = .ok sys') : sys'.conf = some file := by
  cases hos : getCurrentOsType ini sys.osVersion with
  | none =>
    rw [toolMain, hos] at h
    rw [← Except.ok.inj h, hconf]
  | some os =>
    rw [toolMain_of_edition hos, hconf, updateConf_of_unreadable hload] at h
    rw [← Except.ok.inj h]

/-- **A configuration file that cannot be read.** No run changes it, whatever becomes of the
operations of the tool, and every check of the run ends with `PW_ERR_PARA`. -/
theorem systemRun_unreadable {ini : Parser} {init : System} {trace : List SystemEvent}
    {file : Bytes} (hconf : init.conf = some file) (hload : ini.load file = none)
    (h : SystemRun ini lib init trace sys) :
    sys.conf = some file ∧ ∀ exec user pw dictPath verdict,
      .check .dde exec user pw dictPath verdict ∈ trace → verdict = .para := by
  refine systemRun_of_keeps (show init.file .dde = some file from hconf) ?_ ?_ h
  · simp [loadFile, hload]
  · intro sys e sys' hkept hstep
    cases e with
    | check which exec user pw dictPath verdict =>
      rcases retried_cases (systemStep_check_iff.mp hstep).1 with rfl | ⟨ops, -, htool⟩
      · exact hkept
      · exact conf_of_toolMain hkept hload htool
    | tool ops => exact conf_of_toolMain hkept hload (systemStep_tool_iff.mp hstep)
    | upgrade osVersion => rwa [← Option.some.inj hstep]

/-- **A short write that cuts a name.** The tool reports success and leaves a file that cannot
be read. From then on no run changes the file, and every check against it ends with
`PW_ERR_PARA`. -/
theorem systemRun_shortWrite (hos : getCurrentOsType ini sys.osVersion = some os)
    (hconf : sys.conf = some old) (u : Updated ini os old new dic policy)
    (hfits : PathFits ini dic) (hends : TextsEnd dic policy)
    (hcuts : CutsName (bytes "[Password]") (settings os dic policy) n) :
    updateConf ini (storing n) os (some old) = .ok (0, some (new.take n)) ∧
      systemStep ini lib sys (.tool (storing n)) = some { sys with conf := some (new.take n) } ∧
      ∀ trace sys', SystemRun ini lib { sys with conf := some (new.take n) } trace sys' →
        sys'.conf = some (new.take n) ∧ ∀ exec user pw dictPath verdict,
          .check .dde exec user pw dictPath verdict ∈ trace → verdict = .para := by
  have hupdate := u.updateConf_storing n
  have hload : ini.load (new.take n) = none := by
    rw [u.new_eq]
    exact (u.isSection hfits hends).load_take_eq_none hcuts
  refine ⟨hupdate, ?_, fun trace sys' h => systemRun_unreadable rfl hload h⟩
  rw [systemStep_tool_iff, toolMain_of_edition hos, hconf, hupdate]
  rfl

/-- Of the defaults, only the header and four letters of the first key are stored. -/
theorem systemRun_shortWrite_defaultFile :
    updateConf iniparser (storing 15) .professional (some emptySection) =
        .ok (0, some ((defaultFile .professional).take 15)) ∧
      systemStep iniparser noDictionary ⟨some emptySection, none, none⟩ (.tool (storing 15)) =
        some ⟨some ((defaultFile .professional).take 15), none, none⟩ ∧
      ∀ trace sys', SystemRun iniparser noDictionary
          ⟨some ((defaultFile .professional).take 15), none, none⟩ trace sys' →
        sys'.conf = some ((defaultFile .professional).take 15) ∧
          ∀ exec user pw dictPath verdict,
            .check .dde exec user pw dictPath verdict ∈ trace → verdict = .para := by
  have hcuts : CutsName (bytes "[Password]") (settings .professional [] defaultPolicy) 15 :=
    Or.inr ⟨[], _, _, rfl, by decide, by decide⟩
  exact systemRun_shortWrite rfl rfl (defaultFile_updated iniparser .professional)
    (pathFits_nil iniparser) textsEnd_defaultPolicy hcuts

/-- The options of numbers are what `iniparser_getint` finds. -/
theorem scalar_of_mem_numbers {key : Key} (hkey : key ∈ Key.numbers) (dic : Dictionary)
    (characterType : Bytes) : (optionsOf dic characterType).scalar key =
      some (.inr (getint dic key.name (loadNumber key))) := by
  simp only [Key.numbers, List.mem_cons, List.not_mem_nil, or_false] at hkey
  rcases hkey with rfl | rfl | rfl | rfl | rfl | rfl | rfl <;> rfl

/-- The options of truth values are what `iniparser_getboolean` finds. -/
theorem scalar_of_mem_truths {key : Key} (hkey : key ∈ Key.truths) (dic : Dictionary)
    (characterType : Bytes) : (optionsOf dic characterType).scalar key =
      some (.inl (getboolean dic key.name (defaultTruth key))) := by
  simp only [Key.truths, List.mem_cons, List.not_mem_nil, or_false] at hkey
  rcases hkey with rfl | rfl <;> rfl

/-- The number that the tool writes is the one that `iniparser_getint` finds. What is left of a
number is thus written again as it was read. -/
theorem intValue_eq_getint (dic : Dictionary) (key : Key) (fallback : ℤ) :
    intValue dic key fallback = getint dic key.name fallback := by
  unfold intValue findEntry getint
  cases dic.get key.name <;> rfl

/-- The value of a key after a short write, if no part of its text goes on. The options after a
short write are computed from it, for every position of the cut. -/
theorem Updated.get_take (u : Updated ini os old new dic policy) (hfits : PathFits ini dic)
    (hends : TextsEnd dic policy) {d : Dictionary} (hload : ini.load (new.take n) = some d)
    {key : Key} {text : Bytes} {before after : List (Bytes × Bytes)}
    (hsplit : settings os dic policy = before ++ (key.text, text) :: after)
    (hs : ∀ k, continues (text.take k) = false) :
    let lost := missing (bytes "[Password]") before (key.text, text) n
    d.get key.name = if lost ≤ text.length + 1 then
      some (value ini.quoted (strip (text.take (text.length - lost)))) else none := by
  unfold Dictionary.get
  rw [key.lower_name]
  rw [u.new_eq] at hload
  exact (u.isSection hfits hends).lookup_take hsplit hs hload

/-- A key is there after a short write if its equals sign is. The tool asks for the key before it
reads a truth value. -/
theorem Updated.findEntry_take_iff (u : Updated ini os old new dic policy)
    (hfits : PathFits ini dic) (hends : TextsEnd dic policy) {d : Dictionary}
    (hload : ini.load (new.take n) = some d) {key : Key} {text : Bytes}
    {before after : List (Bytes × Bytes)}
    (hsplit : settings os dic policy = before ++ (key.text, text) :: after)
    (hs : ∀ k, continues (text.take k) = false) :
    findEntry d key.name = true ↔
      missing (bytes "[Password]") before (key.text, text) n ≤ text.length + 1 := by
  have hget := u.get_take hfits hends hload hsplit hs
  dsimp only at hget
  unfold findEntry
  rw [hget]
  split_ifs with hlost <;> simp [hlost]

/-- No part of a number goes on. -/
theorem continues_take_decimal (z : ℤ) (k : ℕ) : continues ((decimal z).take k) = false :=
  continues_of_notMem fun h => absurd (decimal_numeral (List.mem_of_mem_take h)) (by decide)

/-- No part of a truth value goes on. -/
theorem continues_take_boolText (b : Bool) (k : ℕ) : continues ((boolText b).take k) = false := by
  have hbool : ∀ b, backslash ∉ boolText b := by decide
  exact continues_of_notMem fun h => hbool b (List.mem_of_mem_take h)

/-- The number of a key after a short write. -/
theorem Updated.getint_take (u : Updated ini os old new dic policy) (hfits : PathFits ini dic)
    (hends : TextsEnd dic policy) {d : Dictionary} (hload : ini.load (new.take n) = some d)
    {key : Key} {fallback : ℤ} (hfallback : IsInt32 fallback) {before after : List (Bytes × Bytes)}
    (hsplit : settings os dic policy = before ++ intSetting dic key fallback :: after)
    (other : ℤ) :
    getint d key.name other = cutNumber (intValue dic key fallback)
      (missing (bytes "[Password]") before (intSetting dic key fallback) n) other := by
  have hget := u.get_take hfits hends hload hsplit (continues_take_decimal _)
  have hint := isInt32_intValue dic key hfallback
  dsimp only at hget
  unfold getint cutNumber
  rw [hget]
  unfold intSetting
  split_ifs with hlost
  · have hplain : ∀ c ∈ (decimal (intValue dic key fallback)).take
        ((decimal (intValue dic key fallback)).length - missing (bytes "[Password]") before
          (key.text, decimal (intValue dic key fallback)) n), isPlainByte c = true :=
      fun c hc => decimal_plain _ c (List.mem_of_mem_take hc)
    dsimp only
    rw [value_plain ini.quoted hplain, toInt32_strtol_take_decimal hint]
  · rfl

/-- The first letters of a truth value stand for it. The library looks at the first one only. -/
theorem truth_take_boolText (b : Bool) {k : ℕ} (hk : 0 < k) :
    truth ((boolText b).take k) = some b := by
  obtain ⟨k, rfl⟩ : ∃ j, k = j + 1 := ⟨k - 1, by omega⟩
  cases b <;> rfl

/-- The truth value of a key after a short write. -/
theorem Updated.getboolean_take (u : Updated ini os old new dic policy)
    (hfits : PathFits ini dic) (hends : TextsEnd dic policy) {d : Dictionary}
    (hload : ini.load (new.take n) = some d) {key : Key} {b : Bool}
    {before after : List (Bytes × Bytes)}
    (hsplit : settings os dic policy = before ++ (key.text, boolText b) :: after)
    (other : Bool) :
    getboolean d key.name other =
      cutTruth b (missing (bytes "[Password]") before (key.text, boolText b) n) other other := by
  have hget := u.get_take hfits hends hload hsplit (continues_take_boolText b)
  dsimp only at hget
  unfold getboolean cutTruth
  rw [hget]
  generalize missing (bytes "[Password]") before (key.text, boolText b) n = lost
  have hplain : ∀ c ∈ (boolText b).take ((boolText b).length - lost), isPlainByte c = true :=
    fun c hc => boolText_plain b c (List.mem_of_mem_take hc)
  split_ifs with hempty hkept hkept
  · dsimp only
    rw [value_plain ini.quoted hplain, truth_take_boolText b (by omega), Option.getD_some]
  · have hzero : (boolText b).length - lost = 0 := by omega
    rw [hzero, List.take_zero]
    rfl
  · omega
  · rfl

/-- Options that were loaded belong to the dictionary of the file. The policy of that file has no
influence on its scalars. -/
theorem exists_of_loadPwdConf {file : Bytes} {options : Options}
    (h : loadPwdConf ini (some file) (some file) = .ok options) :
    ∃ d characterType, ini.load file = some d ∧ options = optionsOf d characterType := by
  cases hload : ini.load file with
  | none => simp [loadPwdConf, loadFile, hload] at h
  | some d =>
    rw [loadPwdConf_of_load hload] at h
    cases hread : characterTypeOf file d with
    | error e => simp [hread, Except.map] at h
    | ok characterType =>
      rw [hread] at h
      exact ⟨d, characterType, rfl, (Except.ok.inj h).symm⟩

/-- **Numbers after a short write.** The library reads a number without the digits that were
lost, and its own default where the line was lost. The next complete update keeps what is left
of the number, and writes the default of its edition where the line was lost, as long as neither
update leaves a line that goes on. -/
theorem numbers_shortWrite (u : Updated ini os old new dic policy) (hfits : PathFits ini dic)
    (hends : TextsEnd dic policy) {key : Key} (hkey : key ∈ Key.numbers)
    {before after : List (Bytes × Bytes)}
    (hsplit : settings os dic policy =
      before ++ intSetting dic key (defaultNumber os key) :: after) (n : ℕ) :
    let z := intValue dic key (defaultNumber os key)
    let lost := missing (bytes "[Password]") before (intSetting dic key (defaultNumber os key)) n
    (∀ options, loadPwdConf ini (some (new.take n)) (some (new.take n)) = .ok options →
      options.scalar key = some (.inr (cutNumber z lost (loadNumber key)))) ∧
    ∀ os' next options, plainStep ini (new.take n) os' = some next →
      loadPwdConf ini (some next) (some next) = .ok options →
        options.scalar key = some (.inr (cutNumber z lost (defaultNumber os' key))) := by
  have hdefault := isInt32_defaultNumber os key
  dsimp only
  constructor
  · intro options hoptions
    obtain ⟨d, characterType, hload, rfl⟩ := exists_of_loadPwdConf hoptions
    rw [scalar_of_mem_numbers hkey, u.getint_take hfits hends hload hdefault hsplit]
  · intro os' next options hstep hoptions
    obtain ⟨hupdate, hnextEnds⟩ := plainStep_eq_some_iff.mp hstep
    obtain ⟨d, policy', u'⟩ := exists_updated (updateStep_eq_some_iff.mp hupdate)
    obtain ⟨-, -, rfl⟩ := (u'.loadPwdConf_new options).mp hoptions
    rw [scalar_of_mem_numbers hkey, getint_newDictionary hkey,
      (u'.linesEnd_iff.mp hnextEnds).isTakenIn, if_neg Bool.false_ne_true,
      intValue_eq_getint d, u.getint_take hfits hends u'.load hdefault hsplit]

/-- **Truth values after a short write.** The library reads a truth value as long as a letter of
it is left. Where only the equals sign is left it takes its own default, and the next complete
update writes `false`, as long as neither update leaves a line that goes on. -/
theorem truths_shortWrite (u : Updated ini os old new dic policy) (hfits : PathFits ini dic)
    (hends : TextsEnd dic policy) {key : Key} (hkey : key ∈ Key.truths)
    {before after : List (Bytes × Bytes)} {b : Bool}
    (hsplit : settings os dic policy = before ++ (key.text, boolText b) :: after) (n : ℕ) :
    let lost := missing (bytes "[Password]") before (key.text, boolText b) n
    (∀ options, loadPwdConf ini (some (new.take n)) (some (new.take n)) = .ok options →
      options.scalar key =
        some (.inl (cutTruth b lost (defaultTruth key) (defaultTruth key)))) ∧
    ∀ os' next options, plainStep ini (new.take n) os' = some next →
      loadPwdConf ini (some next) (some next) = .ok options →
        options.scalar key = some (.inl (cutTruth b lost false (defaultTruth key))) := by
  dsimp only
  constructor
  · intro options hoptions
    obtain ⟨d, characterType, hload, rfl⟩ := exists_of_loadPwdConf hoptions
    rw [scalar_of_mem_truths hkey, u.getboolean_take hfits hends hload hsplit]
  · intro os' next options hstep hoptions
    obtain ⟨hupdate, hnextEnds⟩ := plainStep_eq_some_iff.mp hstep
    obtain ⟨d, policy', u'⟩ := exists_updated (updateStep_eq_some_iff.mp hupdate)
    obtain ⟨-, -, rfl⟩ := (u'.loadPwdConf_new options).mp hoptions
    rw [scalar_of_mem_truths hkey, getboolean_newDictionary hkey,
      (u'.linesEnd_iff.mp hnextEnds).isTakenIn, if_neg Bool.false_ne_true,
      u.getboolean_take hfits hends u'.load hsplit]
    have hfind := u.findEntry_take_iff hfits hends u'.load hsplit (continues_take_boolText b)
    unfold cutTruth
    split_ifs with hentry hletter hempty hletter hempty
    · rfl
    · rfl
    · exact absurd (hfind.mp hentry) hempty
    · exact absurd (hfind.mpr (by omega)) hentry
    · exact absurd (hfind.mpr hempty) hentry
    · rfl

/-- The part of the defaults of an edition that comes before the policy. The next update writes
the policy and the dictionary path anew. -/
theorem defaultFile_take_updated (ini : LineParser) {stored : List (Bytes × Bytes)}
    (hstored : storedSection (bytes "[Password]") (settings os [] defaultPolicy) n = some stored)
    (hlost : ∀ key ∈ [Key.validatePolicy, .dictPath], ∀ s ∈ stored, lower s.1 ≠ lower key.text)
    (os' : OsType) :
    ∃ d next, PathFits ini d ∧ TextsEnd d defaultPolicy ∧
      Updated ini os' ((defaultFile os).take n) next d defaultPolicy := by
  have hload : ini.load ((defaultFile os).take n) =
      some (stored.map (settingEntry ini.quoted (bytes "password"))).reverse := by
    have hsection := (defaultFile_updated ini os).isSection (pathFits_nil ini)
      textsEnd_defaultPolicy
    have hread := hsection.load_take n
    rwa [hstored] at hread
  have hnone : ∀ key ∈ [Key.validatePolicy, .dictPath], findEntry
      (stored.map (settingEntry ini.quoted (bytes "password"))).reverse key.name = false := by
    intro key hkey
    unfold findEntry Dictionary.get
    rw [key.lower_name, lookup_settings_none (hlost key hkey)]
    rfl
  generalize (stored.map (settingEntry ini.quoted (bytes "password"))).reverse = d at hload hnone
  have hpolicy : policySetting os' d (some ((defaultFile os).take n)) = .ok defaultPolicy := by
    rw [policySetting, hnone .validatePolicy (by decide)]
    cases os' <;> rfl
  have hpath : dictPathSetting d = [] := by
    rw [dictPathSetting, hnone .dictPath (by decide)]
    rfl
  have hlength : (appendString os' d defaultPolicy).length < 2048 := by
    have hbound := length_appendString_le os' d defaultPolicy
    rw [length_defaultPolicy, hpath, List.length_nil] at hbound
    omega
  have hends : TextsEnd d defaultPolicy := by
    refine ⟨textsEnd_defaultPolicy.1, ?_⟩
    rw [hpath]
    rfl
  have hfits : PathFits ini d := by
    unfold PathFits
    rw [hends.joinedPath, hpath]
    exact pathFits_nil ini
  exact ⟨d, _, hfits, hends, updated_of_load hload hpolicy hlength⟩

end

/-- Of the maximal length 510 of the defaults, the first digit is stored. The library accepts at
most 5 characters, and so it does after the next update. -/
theorem numbers_shortWrite_defaultFile : ∃ options next options',
    loadPwdConf iniparser (some ((defaultFile .professional).take 81))
        (some ((defaultFile .professional).take 81)) = .ok options ∧
      options.scalar .passwordMaxLength = some (.inr 5) ∧
      plainStep iniparser ((defaultFile .professional).take 81) .server = some next ∧
      loadPwdConf iniparser (some next) (some next) = .ok options' ∧
      options'.scalar .passwordMaxLength = some (.inr 5) := by
  have hstored : storedSection (bytes "[Password]") (settings .professional [] defaultPolicy) 81 =
      some [(Key.text .strongPassword, boolText true), (Key.text .passwordMinLength, decimal 1),
        (Key.text .passwordMaxLength, (decimal 510).take 1)] := rfl
  have hsplit : settings .professional [] defaultPolicy =
      [(Key.text .strongPassword, boolText true), (Key.text .passwordMinLength, decimal 1)] ++
        intSetting [] .passwordMaxLength (defaultNumber .professional .passwordMaxLength) ::
          (settings .professional [] defaultPolicy).drop 3 := rfl
  obtain ⟨d, next, hfits, hends, u⟩ :=
    defaultFile_take_updated iniparser hstored (by decide) .server
  have hnext := (u.loadPwdConf_new _).mpr ⟨hfits, valueText_defaultPolicy.2, rfl⟩
  have hstep := plainStep_eq_some_iff.mpr
    ⟨updateStep_eq_some_iff.mpr u.run, u.linesEnd_iff.mpr hends⟩
  obtain ⟨hnow, hthen⟩ := numbers_shortWrite (defaultFile_updated iniparser .professional)
    (pathFits_nil iniparser) textsEnd_defaultPolicy (by decide) hsplit 81
  exact ⟨_, next, _, u.loadPwdConf_old, hnow _ u.loadPwdConf_old, hstep, hnext,
    hthen .server next _ hstep hnext⟩

/-- Of `STRONG_PASSWORD` in the defaults, the equals sign is stored and no letter of the value.
The library goes on to check, and after the next update it does not. -/
theorem truths_shortWrite_defaultFile : ∃ options next options',
    loadPwdConf iniparser (some ((defaultFile .professional).take 28))
        (some ((defaultFile .professional).take 28)) = .ok options ∧
      options.scalar .strongPassword = some (.inl true) ∧
      plainStep iniparser ((defaultFile .professional).take 28) .professional = some next ∧
      loadPwdConf iniparser (some next) (some next) = .ok options' ∧
      options'.scalar .strongPassword = some (.inl false) := by
  have hstored : storedSection (bytes "[Password]") (settings .professional [] defaultPolicy) 28 =
      some [(Key.text .strongPassword, [])] := rfl
  have hsplit : settings .professional [] defaultPolicy =
      [] ++ (Key.text .strongPassword, boolText true) ::
        (settings .professional [] defaultPolicy).drop 1 := rfl
  obtain ⟨d, next, hfits, hends, u⟩ :=
    defaultFile_take_updated iniparser hstored (by decide) .professional
  have hnext := (u.loadPwdConf_new _).mpr ⟨hfits, valueText_defaultPolicy.2, rfl⟩
  have hstep := plainStep_eq_some_iff.mpr
    ⟨updateStep_eq_some_iff.mpr u.run, u.linesEnd_iff.mpr hends⟩
  obtain ⟨hnow, hthen⟩ := truths_shortWrite (defaultFile_updated iniparser .professional)
    (pathFits_nil iniparser) textsEnd_defaultPolicy (by decide) hsplit 28
  exact ⟨_, next, _, u.loadPwdConf_old, hnow _ u.loadPwdConf_old, hstep, hnext,
    hthen .professional next _ hstep hnext⟩

end DeepinPwCheck
