import DeepinPwCheck.Strictness
import DeepinPwCheck.Tool.Repeated

/-!
# The files over their lifetime

The configuration file, the one for the boot loader and the version file, and what happens to
them: the library checks passwords and starts the tool where it cannot read a file, the package
runs the tool, and the system is upgraded to another edition. A system that starts without a
configuration file installs the defaults of one edition and keeps them.
-/

namespace DeepinPwCheck

open CText Ini Trace

/-- The files that the library and the tool know; a missing file has no content. -/
structure System where
  conf : Option Bytes
  grub2 : Option Bytes
  osVersion : Option Bytes
  deriving DecidableEq

/-- `PASSWD_CONF_FILE` and `PASSWD_CONF_FILE_GRUB2`. -/
inductive ConfFile where
  | dde
  | grub2
  deriving DecidableEq, Repr

/-- The content of a configuration file. -/
def System.file (sys : System) : ConfFile → Option Bytes
  | .dde => sys.conf
  | .grub2 => sys.grub2

/-- `main` of the tool. Without an answer about the edition it leaves the file alone. -/
def toolMain (ini : Parser) (ops : UpdateOps) (sys : System) : Except LoadError System :=
  match getCurrentOsType ini sys.osVersion with
  | none => .ok sys
  | some os => (updateConf ini ops os sys.conf).map fun result => { sys with conf := result.2 }

/-- The files after the library has tried to read one of them. The tool is started, with these
outcomes of its operations, only if that failed; there are none if it cannot be started. -/
def retried (ini : Parser) (exec : Option UpdateOps) (which : ConfFile) (sys : System) :
    Except LoadError System :=
  match loadFile ini (sys.file which), exec with
  | none, some ops => toolMain ini ops sys
  | _, _ => .ok sys

/-- `deepin_pw_check` and `deepin_pw_check_grub2`: the verdict and the files afterwards. -/
def runCheck (ini : Parser) (lib : CrackLib) (exec : Option UpdateOps) (which : ConfFile)
    (user pw : Bytes) (dictPath : Option Bytes) (sys : System) :
    Except LoadError (PwErrorType × System) :=
  match retried ini exec which sys with
  | .error e => .error e
  | .ok sys' =>
      (deepinPwCheckByConf ini lib user pw dictPath (sys.file which) (sys'.file which)).map
        fun verdict => (verdict, sys')

/-- What can happen: a check with its verdict, a run of the tool, a new version file. -/
inductive SystemEvent where
  | check (which : ConfFile) (exec : Option UpdateOps) (user pw : Bytes)
      (dictPath : Option Bytes) (verdict : PwErrorType)
  | tool (ops : UpdateOps)
  | upgrade (osVersion : Option Bytes)

/-- The files after an event. A check has the verdict that the event says. -/
def systemStep (ini : Parser) (lib : CrackLib) (sys : System) : SystemEvent → Option System
  | .check which exec user pw dictPath verdict =>
      match runCheck ini lib exec which user pw dictPath sys with
      | .ok (verdict', sys') => if verdict' = verdict then some sys' else none
      | .error _ => none
  | .tool ops =>
      match toolMain ini ops sys with
      | .ok sys' => some sys'
      | .error _ => none
  | .upgrade osVersion => some { sys with osVersion := osVersion }

/-- A run of the system. -/
abbrev SystemRun (ini : Parser) (lib : CrackLib) : System → List SystemEvent → System → Prop :=
  Trace.Run (systemStep ini lib)

/-- The operations of the tool go through, where it is started. -/
def SystemEvent.Complete : SystemEvent → Prop
  | check _ exec _ _ _ _ => exec = none ∨ exec = some allSucceed
  | tool ops => ops = allSucceed
  | upgrade _ => True

/-- The options that the defaults of an edition stand for. -/
def defaultOptions (os : OsType) : Options where
  enabled := true
  minLen := (defaultConf os).minLength
  maxLen := (defaultConf os).maxLength
  characterType := (defaultConf os).validatePolicy
  characterNumRequired := (defaultConf os).validateRequired
  palindromeMinNum := (defaultConf os).palindormeNum
  checkWord := (defaultConf os).wordCheck
  dictPath := []
  monotoneCharacterNum := (defaultConf os).monotoneSameCharacterNum
  consecutiveSameCharacterNum := (defaultConf os).consecutiveSameCharacterNum
  firstLetterUppercase := false
  passwordLengthStandardHigh := 8
  passwordLengthStandardMiddle := 6
  passwordCharacterTypeNumHigh := 3
  passwordCharacterTypeNumMiddle := 2

/-- The editions that a version file can name. -/
def OsType.detected : List OsType := [.professional, .server, .euler]

section

variable {ini : Parser} {lib : CrackLib} {os : OsType} {sys sys' : System}

/-- The tool takes a system for one of three editions. The two editions that `main` handles and
never detects install nothing. -/
theorem getCurrentOsType_mem {versionFile : Option Bytes}
    (h : getCurrentOsType ini versionFile = some os) : os ∈ OsType.detected := by
  unfold getCurrentOsType at h
  cases versionFile with
  | none =>
    obtain rfl := Option.some.inj h
    decide
  | some text =>
    dsimp only at h
    cases hload : ini.load text with
    | none =>
      rw [hload] at h
      cases h
    | some dic =>
      rw [hload] at h
      dsimp only at h
      split_ifs at h <;>
        · obtain rfl := Option.some.inj h
          decide

/-- A file that does not exist is created with the defaults. The created file has a section and no
settings, and the update goes on with it. -/
theorem updateConf_none (ini : LineParser) (os : OsType) :
    updateConf ini allSucceed os none = .ok (0, some (defaultFile os)) := by
  have hcreated : ensureFile allSucceed none = ensureFile allSucceed (some emptySection) := rfl
  have hrun := (defaultFile_updated ini os).run
  unfold updateConf at hrun ⊢
  rwa [hcreated]

/-- The defaults can be read. No check on a fresh system ends for want of a file. -/
theorem loadFile_defaultFile (ini : LineParser) (os : OsType) :
    loadFile ini (some (defaultFile os)) =
      some (defaultFile os, newDictionary ini os [] defaultPolicy) := by
  simp [loadFile, (defaultFile_updated ini os).load_new, pathFits_nil]

/-- The options of the defaults, whether the file was there or the tool has created it. A
dictionary path of the caller is not used. -/
theorem getDefaultOptions_defaultFile {ini : LineParser} (os : OsType) (dictPath : Option Bytes)
    {file updated : Option Bytes} (h : (loadFile ini file).or (loadFile ini updated) =
      loadFile ini (some (defaultFile os))) :
    getDefaultOptions ini dictPath file updated = .ok (defaultOptions os) := by
  have hread : characterTypeOf (defaultFile os) (newDictionary ini os [] defaultPolicy) =
      .ok defaultPolicy := by
    rw [(defaultFile_updated ini os).characterTypeOf_new, if_neg valueText_defaultPolicy.2,
      valueText_defaultPolicy.1]
  have hoptions : optionsOf (newDictionary ini os [] defaultPolicy) defaultPolicy =
      defaultOptions os := by
    have hpolicy : (defaultConf os).validatePolicy = defaultPolicy := by cases os <;> rfl
    rw [optionsOf_newDictionary ini os textsEnd_defaultPolicy, defaultOptions, hpolicy]
    rfl
  have hload : loadPwdConf ini file updated = .ok (defaultOptions os) := by
    rw [loadPwdConf, h, loadFile_defaultFile]
    dsimp only
    rw [hread, ← hoptions]
    rfl
  rw [getDefaultOptions, hload]
  cases dictPath with
  | none => rfl
  | some path => exact congrArg Except.ok (if_pos (Or.inr rfl))

/-- The verdict by options that were read. It cuts the verdict off from the way in which the
options were found. -/
theorem deepinPwCheckByConf_of_options {user pw : Bytes} {dictPath file updated : Option Bytes}
    {options : Options} (h : getDefaultOptions ini dictPath file updated = .ok options) :
    deepinPwCheckByConf ini lib user pw dictPath file updated =
      checkWithOptions lib user pw options := by
  rw [deepinPwCheckByConf, h]

/-- A system whose configuration file is missing or has the defaults of an edition. -/
def System.Installed (sys : System) : Prop :=
  sys.conf = none ∨ ∃ os ∈ OsType.detected, sys.conf = some (defaultFile os)

/-- The files do not change, except that a missing configuration file is created with the
defaults of an edition. -/
structure Creates (sys sys' : System) : Prop where
  grub2 : sys'.grub2 = sys.grub2
  conf : sys'.conf = sys.conf ∨
    sys.conf = none ∧ ∃ os ∈ OsType.detected, sys'.conf = some (defaultFile os)

/-- Such changes can follow one another: a file that is there is not created again. A run of the
system is put together from its steps by it. -/
theorem Creates.trans {sys'' : System} (h : Creates sys sys') (h' : Creates sys' sys'') :
    Creates sys sys'' := by
  refine ⟨h'.grub2.trans h.grub2, ?_⟩
  rcases h'.conf with hsame | ⟨hnone, hcreated⟩
  · rw [hsame]
    exact h.conf
  · rcases h.conf with hsame | ⟨-, os, -, hfile⟩
    · exact Or.inr ⟨hsame ▸ hnone, hcreated⟩
    · rw [hnone] at hfile
      cases hfile

/-- A file that is there is kept. The defaults that a check has found are still there at the end
of the run. -/
theorem Creates.conf_of_ne_none (h : Creates sys sys') (hconf : sys.conf ≠ none) :
    sys'.conf = sys.conf :=
  h.conf.resolve_right fun hcreated => hconf hcreated.1

/-- What such a change makes of a system. It is kept along a run. -/
theorem Creates.installed (h : Creates sys sys') (hsys : sys.Installed) : sys'.Installed := by
  rcases h.conf with hconf | ⟨-, hconf⟩
  · unfold System.Installed at hsys ⊢
    rwa [hconf]
  · exact Or.inr hconf

/-- The tool on a system of a known edition. It lets the proofs skip the version file. -/
theorem toolMain_of_edition {ops : UpdateOps} (h : getCurrentOsType ini sys.osVersion = some os) :
    toolMain ini ops sys =
      (updateConf ini ops os sys.conf).map fun result => { sys with conf := result.2 } := by
  rw [toolMain, h]

/-- A complete run of the tool creates the file or leaves it as it is. On a file with defaults the
update is settled, and where there is none it creates it. -/
theorem toolMain_creates {ini : LineParser} (hsys : sys.Installed)
    (h : toolMain ini allSucceed sys = .ok sys') : Creates sys sys' := by
  cases hos : getCurrentOsType ini sys.osVersion with
  | none =>
    rw [toolMain, hos] at h
    obtain rfl := Except.ok.inj h
    exact ⟨rfl, Or.inl rfl⟩
  | some os =>
    rw [toolMain_of_edition hos] at h
    rcases hsys with hnone | ⟨os', -, hfile⟩
    · rw [hnone, updateConf_none] at h
      obtain rfl := Except.ok.inj h
      exact ⟨rfl, Or.inr ⟨hnone, os, getCurrentOsType_mem hos, rfl⟩⟩
    · rw [hfile, updateStep_eq_some_iff.mp (updateStep_defaultFile ini os' os)] at h
      obtain rfl := Except.ok.inj h
      exact ⟨rfl, Or.inl hfile.symm⟩

/-- The library starts the tool or leaves the files as they are. The second case covers a tool
that could not be started. -/
theorem retried_cases {exec : Option UpdateOps} {which : ConfFile}
    (h : retried ini exec which sys = .ok sys') :
    sys' = sys ∨ ∃ ops, exec = some ops ∧ toolMain ini ops sys = .ok sys' := by
  unfold retried at h
  split at h
  · exact Or.inr ⟨_, rfl, h⟩
  · exact Or.inl (Except.ok.inj h).symm

/-- A file that cannot be read makes the library start the tool. The file that the tool writes
need not be the one that was asked for. -/
theorem retried_of_unreadable {ops : UpdateOps} {which : ConfFile}
    (h : loadFile ini (sys.file which) = none) :
    retried ini (some ops) which sys = toolMain ini ops sys := by
  unfold retried
  rw [h]

/-- **What a check does.** The files afterwards are those after the attempt to read them, and the
verdict is the one of the two contents. -/
theorem systemStep_check_iff {which : ConfFile} {exec : Option UpdateOps} {user pw : Bytes}
    {dictPath : Option Bytes} {verdict : PwErrorType} :
    systemStep ini lib sys (.check which exec user pw dictPath verdict) = some sys' ↔
      retried ini exec which sys = .ok sys' ∧
        deepinPwCheckByConf ini lib user pw dictPath (sys.file which) (sys'.file which) =
          .ok verdict := by
  simp only [systemStep, runCheck]
  cases hretried : retried ini exec which sys with
  | error e => simp
  | ok after =>
    dsimp only
    cases hverdict : deepinPwCheckByConf ini lib user pw dictPath (sys.file which)
        (after.file which) with
    | error e =>
      simp only [Except.map, reduceCtorEq, false_iff]
      rintro ⟨hafter, h⟩
      rw [← Except.ok.inj hafter, hverdict] at h
      cases h
    | ok verdict' =>
      simp only [Except.map, Except.ok.injEq, Option.ite_none_right_eq_some, Option.some.injEq]
      constructor
      · rintro ⟨rfl, rfl⟩
        exact ⟨rfl, hverdict⟩
      · rintro ⟨rfl, h⟩
        exact ⟨Except.ok.inj (hverdict.symm.trans h), rfl⟩

/-- A run of the tool as an event. What one update does is carried over to runs by it. -/
theorem systemStep_tool_iff {ops : UpdateOps} :
    systemStep ini lib sys (.tool ops) = some sys' ↔ toolMain ini ops sys = .ok sys' := by
  cases htool : toolMain ini ops sys with
  | error e => simp [systemStep, htool]
  | ok after => simp [systemStep, htool]

/-- A complete event creates the file or leaves it as it is. It is the step of the run lemma
below. -/
theorem systemStep_creates {ini : LineParser} {e : SystemEvent} (he : e.Complete)
    (hsys : sys.Installed)
    (h : systemStep ini lib sys e = some sys') : Creates sys sys' := by
  cases e with
  | check which exec user pw dictPath verdict =>
    rcases retried_cases (systemStep_check_iff.mp h).1 with rfl | ⟨ops, rfl, htool⟩
    · exact ⟨rfl, Or.inl rfl⟩
    · rcases he with hexec | hexec
      · cases hexec
      · obtain rfl := Option.some.inj hexec
        exact toolMain_creates hsys htool
  | tool ops =>
    obtain rfl : ops = allSucceed := he
    exact toolMain_creates hsys (systemStep_tool_iff.mp h)
  | upgrade osVersion =>
    obtain rfl := Option.some.inj h
    exact ⟨rfl, Or.inl rfl⟩

/-- Complete events create the file once, or leave it as it is. It is the invariant of every run
from an installation on. -/
theorem systemRun_creates {ini : LineParser} {init : System} {trace : List SystemEvent}
    (hinit : init.Installed) (hcomplete : ∀ e ∈ trace, e.Complete)
    (h : SystemRun ini lib init trace sys) : Creates init sys := by
  revert hcomplete
  apply Trace.Run.invariant
    (P := fun trace sys => (∀ e ∈ trace, e.Complete) → Creates init sys) _ _ h
  · exact fun _ => ⟨rfl, Or.inl rfl⟩
  · intro trace sys e sys' _ hinv hstep hcomplete
    have hbefore := hinv fun e' he' => hcomplete e' (List.mem_append_left _ he')
    exact hbefore.trans
      (systemStep_creates (hcomplete e (by simp)) (hbefore.installed hinit) hstep)

/-- The verdict of a check depends on the defaults that it finds or installs. No other content
comes before a check. -/
theorem verdict_of_creates {ini : LineParser} {user pw : Bytes} {dictPath : Option Bytes}
    {verdict : PwErrorType} (hcreates : Creates sys sys') (hsys : sys.Installed)
    (h : deepinPwCheckByConf ini lib user pw dictPath sys.conf sys'.conf = .ok verdict) :
    if sys'.conf = none then verdict = .para
    else ∃ os, sys'.conf = some (defaultFile os) ∧
      checkWithOptions lib user pw (defaultOptions os) = .ok verdict := by
  rcases hcreates.installed hsys with hnone | ⟨os, -, hfile⟩
  · rw [if_pos hnone]
    have hbefore : sys.conf = none := by
      rcases hcreates.conf with hsame | ⟨hbefore, -⟩
      · rw [← hsame, hnone]
      · exact hbefore
    rw [hnone, hbefore] at h
    exact (Except.ok.inj h).symm
  · rw [if_neg (by simp [hfile])]
    have hload : (loadFile ini sys.conf).or (loadFile ini sys'.conf) =
        loadFile ini (some (defaultFile os)) := by
      rcases hcreates.conf with hsame | ⟨hbefore, -⟩
      · rw [← hsame, hfile, Option.or_self]
      · rw [hbefore, hfile]
        rfl
    have hoptions := getDefaultOptions_defaultFile os dictPath hload
    rw [deepinPwCheckByConf_of_options hoptions] at h
    exact ⟨os, hfile, h⟩

/-- The tool leaves the file for the boot loader alone. `update_conf` has the path of the other
configuration file built in. -/
theorem grub2_of_toolMain {ops : UpdateOps} (h : toolMain ini ops sys = .ok sys') :
    sys'.grub2 = sys.grub2 := by
  cases hos : getCurrentOsType ini sys.osVersion with
  | none =>
    rw [toolMain, hos] at h
    rw [← Except.ok.inj h]
  | some os =>
    rw [toolMain_of_edition hos] at h
    cases hupdate : updateConf ini ops os sys.conf with
    | error e =>
      rw [hupdate] at h
      cases h
    | ok result =>
      rw [hupdate] at h
      rw [← Except.ok.inj h]

/-- No event changes the file for the boot loader. The tool writes the other file only. -/
theorem grub2_of_systemStep {e : SystemEvent} (h : systemStep ini lib sys e = some sys') :
    sys'.grub2 = sys.grub2 := by
  cases e with
  | check which exec user pw dictPath verdict =>
    rcases retried_cases (systemStep_check_iff.mp h).1 with rfl | ⟨ops, -, htool⟩
    · rfl
    · exact grub2_of_toolMain htool
  | tool ops => exact grub2_of_toolMain (systemStep_tool_iff.mp h)
  | upgrade osVersion => rw [← Option.some.inj h]

/-- A check of the run against the configuration file: the files after it, and its verdict. With
no file it is `PW_ERR_PARA`; a file that is there has the defaults of an edition, the check judges
by them, and the file is still there in the end. -/
theorem verdict_of_happenedIn {ini : LineParser} {init before : System}
    {trace : List SystemEvent} {exec : Option UpdateOps} {user pw : Bytes}
    {dictPath : Option Bytes} {verdict : PwErrorType}
    (hinit : init.Installed) (hcomplete : ∀ e ∈ trace, e.Complete)
    (h : SystemRun ini lib init trace sys)
    (hcheck : HappenedIn (systemStep ini lib) init trace
      (.check .dde exec user pw dictPath verdict) before) :
    ∃ after, systemStep ini lib before (.check .dde exec user pw dictPath verdict) = some after ∧
      if after.conf = none then verdict = .para
      else ∃ os, after.conf = some (defaultFile os) ∧ sys.conf = some (defaultFile os) ∧
        checkWithOptions lib user pw (defaultOptions os) = .ok verdict := by
  obtain ⟨earlier, later, rfl, hearlier⟩ := hcheck
  obtain ⟨mid, hmid, hrest⟩ := h.of_append
  obtain rfl : before = mid := Option.some.inj (hearlier.exec_eq.symm.trans hmid.exec_eq)
  obtain ⟨after, hstep, hlater⟩ := hrest.of_cons
  have hbefore := systemRun_creates hinit
    (fun e he => hcomplete e (List.mem_append_left _ he)) hearlier
  have hinstalled := hbefore.installed hinit
  have hcreates := systemStep_creates (hcomplete _ (by simp)) hinstalled hstep
  have hkept := systemRun_creates (hcreates.installed hinstalled)
    (fun e he => hcomplete e (by simp [he])) hlater
  have hverdict := verdict_of_creates hcreates hinstalled (systemStep_check_iff.mp hstep).2
  refine ⟨after, hstep, ?_⟩
  split_ifs at hverdict ⊢ with hnone
  · exact hverdict
  · obtain ⟨os, hfile, hchecked⟩ := hverdict
    exact ⟨os, hfile, (hkept.conf_of_ne_none hnone).trans hfile, hchecked⟩

/-- No run changes the file for the boot loader, and a check of the run against it has the verdict
that the file gives in the beginning. -/
theorem systemRun_grub2_kept {init : System} {trace : List SystemEvent}
    (h : SystemRun ini lib init trace sys) :
    sys.grub2 = init.grub2 ∧ ∀ exec user pw dictPath verdict,
      .check .grub2 exec user pw dictPath verdict ∈ trace →
        deepinPwCheckByConf ini lib user pw dictPath init.grub2 init.grub2 = .ok verdict := by
  apply Trace.Run.invariant (P := fun trace sys => sys.grub2 = init.grub2 ∧
    ∀ exec user pw dictPath verdict,
      SystemEvent.check .grub2 exec user pw dictPath verdict ∈ trace →
        deepinPwCheckByConf ini lib user pw dictPath init.grub2 init.grub2 = .ok verdict) _ _ h
  · exact ⟨rfl, fun _ _ _ _ _ hmem => by cases hmem⟩
  · rintro trace sys e sys' - ⟨hkept, hverdicts⟩ hstep
    have hkept' := (grub2_of_systemStep hstep).trans hkept
    refine ⟨hkept', ?_⟩
    intro exec user pw dictPath verdict hmem
    rcases List.mem_append.mp hmem with hold | hnew
    · exact hverdicts exec user pw dictPath verdict hold
    · obtain rfl := List.mem_singleton.mp hnew
      have hverdict := (systemStep_check_iff.mp hstep).2
      unfold System.file at hverdict
      dsimp only at hverdict
      rwa [hkept, hkept'] at hverdict

/-- **A system from its installation on.** It starts without a configuration file, and whenever
the tool is started its operations go through. Then the file is missing or has the defaults of
one of three editions in the end. Each check of the run against it ended with `PW_ERR_PARA` if
there was no file after it, and judged by the defaults that the file has in the end if there was
one. The file for the boot loader is left alone, and each check against it has the verdict that
this file gives. -/
theorem systemRun_fresh {ini : LineParser} {init : System} {trace : List SystemEvent}
    (hfresh : init.conf = none) (hcomplete : ∀ e ∈ trace, e.Complete)
    (h : SystemRun ini lib init trace sys) :
    sys.Installed ∧
      (∀ exec user pw dictPath verdict before,
        HappenedIn (systemStep ini lib) init trace
            (.check .dde exec user pw dictPath verdict) before →
          ∃ after, systemStep ini lib before (.check .dde exec user pw dictPath verdict) =
              some after ∧
            if after.conf = none then verdict = .para
            else ∃ os, after.conf = some (defaultFile os) ∧ sys.conf = some (defaultFile os) ∧
              checkWithOptions lib user pw (defaultOptions os) = .ok verdict) ∧
      sys.grub2 = init.grub2 ∧ ∀ exec user pw dictPath verdict,
        .check .grub2 exec user pw dictPath verdict ∈ trace →
          deepinPwCheckByConf ini lib user pw dictPath init.grub2 init.grub2 = .ok verdict := by
  have hinit : init.Installed := Or.inl hfresh
  refine ⟨(systemRun_creates hinit hcomplete h).installed hinit, ?_, systemRun_grub2_kept h⟩
  intro exec user pw dictPath verdict before hcheck
  exact verdict_of_happenedIn hinit hcomplete h hcheck

/-- A check against a file that cannot be read, before and after the tool was started. The library
does not fall back on any options of its own. -/
theorem deepinPwCheckByConf_of_unreadable {file updated : Option Bytes}
    (hfile : loadFile ini file = none) (hupdated : loadFile ini updated = none) (user pw : Bytes)
    (dictPath : Option Bytes) :
    deepinPwCheckByConf ini lib user pw dictPath file updated = .ok .para := by
  unfold deepinPwCheckByConf getDefaultOptions loadPwdConf
  rw [hfile, hupdated]
  rfl

/-- **A file that stays unreadable.** If no step changes a file that cannot be read, no run does,
and every check of the run against it ends with `PW_ERR_PARA`. -/
theorem systemRun_of_keeps {which : ConfFile} {file : Option Bytes} {init : System}
    {trace : List SystemEvent} (hfile : init.file which = file) (hload : loadFile ini file = none)
    (hkeeps : ∀ sys e sys', sys.file which = file → systemStep ini lib sys e = some sys' →
      sys'.file which = file) (h : SystemRun ini lib init trace sys) :
    sys.file which = file ∧ ∀ exec user pw dictPath verdict,
      .check which exec user pw dictPath verdict ∈ trace → verdict = .para := by
  apply Trace.Run.invariant (P := fun trace sys => sys.file which = file ∧
    ∀ exec user pw dictPath verdict,
      SystemEvent.check which exec user pw dictPath verdict ∈ trace → verdict = .para) _ _ h
  · exact ⟨hfile, fun _ _ _ _ _ hmem => by cases hmem⟩
  · rintro trace sys e sys' - ⟨hkept, hverdicts⟩ hstep
    have hkept' := hkeeps sys e sys' hkept hstep
    refine ⟨hkept', ?_⟩
    intro exec user pw dictPath verdict hmem
    rcases List.mem_append.mp hmem with hold | hnew
    · exact hverdicts exec user pw dictPath verdict hold
    · obtain rfl := List.mem_singleton.mp hnew
      have hverdict := (systemStep_check_iff.mp hstep).2
      have hpara : deepinPwCheckByConf ini lib user pw dictPath (sys.file which)
          (sys'.file which) = .ok .para :=
        deepinPwCheckByConf_of_unreadable (by rwa [hkept]) (by rwa [hkept']) user pw dictPath
      exact Except.ok.inj (hverdict.symm.trans hpara)

/-- **The check for the boot loader.** While its file is missing or cannot be read, no run
changes that, whatever becomes of the operations of the tool: every check against it ends with
`PW_ERR_PARA`, and each one that starts the tool does to the files what a run of the tool does,
to the configuration file that it was not asked about. -/
theorem systemRun_grub2 {init : System} {trace : List SystemEvent}
    (hgrub2 : loadFile ini init.grub2 = none) (h : SystemRun ini lib init trace sys) :
    sys.grub2 = init.grub2 ∧
      (∀ exec user pw dictPath verdict,
        .check .grub2 exec user pw dictPath verdict ∈ trace → verdict = .para) ∧
      ∀ ops user pw dictPath, systemStep ini lib sys
        (.check .grub2 (some ops) user pw dictPath .para) = systemStep ini lib sys (.tool ops) := by
  obtain ⟨hkept, hverdicts⟩ := systemRun_of_keeps (rfl : init.file .grub2 = init.grub2) hgrub2
    (fun sys e sys' hfile hstep => (grub2_of_systemStep hstep).trans hfile) h
  refine ⟨hkept, hverdicts, ?_⟩
  intro ops user pw dictPath
  have hunreadable : loadFile ini sys.grub2 = none :=
    (congrArg (loadFile ini) hkept).trans hgrub2
  apply Option.ext
  intro after
  rw [systemStep_check_iff, systemStep_tool_iff, retried_of_unreadable hunreadable]
  apply and_iff_left_of_imp
  intro htool
  have hafter : loadFile ini after.grub2 = none := by rwa [grub2_of_toolMain htool]
  exact deepinPwCheckByConf_of_unreadable hunreadable hafter user pw dictPath

end

/-- The tool on a system without any of the files. Both runs on an empty system begin with this
step, and evaluating it would render the whole file. -/
theorem toolMain_empty (ini : LineParser) : toolMain ini allSucceed ⟨none, none, none⟩ =
    .ok ⟨some (defaultFile .professional), none, none⟩ := by
  rw [toolMain_of_edition rfl, updateConf_none]
  rfl

/-- The version file of a server edition. -/
def serverVersion : Bytes := bytes "[Version]\nOsBuild = 12018.100\n"

/-- A check before the tool can be started, a check that starts it, and an upgrade. -/
def installation : List SystemEvent :=
  [.check .dde none (bytes "user") (bytes "abc") none .para,
    .check .dde (some allSucceed) (bytes "user") [] none .passwordEmpty,
    .upgrade (some serverVersion), .tool allSucceed]

/-- After the upgrade to the server edition the defaults of the professional one are kept. -/
theorem systemRun_fresh_installation : ∃ sys,
    SystemRun iniparser noDictionary ⟨none, none, none⟩ installation sys ∧
      sys.Installed ∧
      (∀ exec user pw dictPath verdict before,
        HappenedIn (systemStep iniparser noDictionary) ⟨none, none, none⟩ installation
            (.check .dde exec user pw dictPath verdict) before →
          ∃ after, systemStep iniparser noDictionary before
              (.check .dde exec user pw dictPath verdict) = some after ∧
            if after.conf = none then verdict = .para
            else ∃ os, after.conf = some (defaultFile os) ∧ sys.conf = some (defaultFile os) ∧
              checkWithOptions noDictionary user pw (defaultOptions os) = .ok verdict) ∧
      sys.grub2 = none ∧ ∀ exec user pw dictPath verdict,
        .check .grub2 exec user pw dictPath verdict ∈ installation →
          deepinPwCheckByConf iniparser noDictionary user pw dictPath none none =
            .ok verdict := by
  have hlate : systemStep iniparser noDictionary ⟨none, none, none⟩
      (.check .dde none (bytes "user") (bytes "abc") none .para) = some ⟨none, none, none⟩ :=
    systemStep_check_iff.mpr ⟨rfl, deepinPwCheckByConf_of_unreadable rfl rfl _ _ _⟩
  have hload : (loadFile iniparser none).or (loadFile iniparser _) =
      loadFile iniparser (some (defaultFile .professional)) := Option.none_or
  have hoptions := getDefaultOptions_defaultFile .professional none hload
  have hcreated : systemStep iniparser noDictionary ⟨none, none, none⟩
      (.check .dde (some allSucceed) (bytes "user") [] none .passwordEmpty) =
        some ⟨some (defaultFile .professional), none, none⟩ :=
    systemStep_check_iff.mpr
      ⟨toolMain_empty iniparser, deepinPwCheckByConf_of_options hoptions⟩
  have hserver : getCurrentOsType iniparser (some serverVersion) = some .server := by
    rw [serverVersion, bytes_ofList]
    rfl
  have hkept : systemStep iniparser noDictionary
      ⟨some (defaultFile .professional), none, some serverVersion⟩ (.tool allSucceed) =
        some ⟨some (defaultFile .professional), none, some serverVersion⟩ := by
    have hupdate := updateStep_eq_some_iff.mp
      (updateStep_defaultFile iniparser .professional .server)
    rw [systemStep_tool_iff, toolMain_of_edition hserver, hupdate]
    rfl
  have hrun : SystemRun iniparser noDictionary ⟨none, none, none⟩ installation
      ⟨some (defaultFile .professional), none, some serverVersion⟩ := by
    apply Trace.run_of_exec
    rw [installation, Trace.exec, hlate, Option.bind_some, Trace.exec, hcreated, Option.bind_some]
    rw [Trace.exec, systemStep, Option.bind_some, Trace.exec, hkept, Option.bind_some, Trace.exec]
  have hcomplete : ∀ e ∈ installation, e.Complete := by
    simp [installation, SystemEvent.Complete]
  exact ⟨_, hrun, systemRun_fresh rfl hcomplete hrun⟩

/-- A check for the boot loader on a system without its file. -/
def bootLoaderCheck : List SystemEvent :=
  [.check .grub2 (some allSucceed) (bytes "user") (bytes "abc") none .para]

/-- The check creates the configuration file. -/
theorem systemRun_grub2_bootLoaderCheck : ∃ sys,
    SystemRun iniparser noDictionary ⟨none, none, none⟩ bootLoaderCheck sys ∧
      sys.grub2 = none ∧
      (∀ exec user pw dictPath verdict,
        .check .grub2 exec user pw dictPath verdict ∈ bootLoaderCheck → verdict = .para) ∧
      ∀ ops user pw dictPath, systemStep iniparser noDictionary sys
          (.check .grub2 (some ops) user pw dictPath .para) =
        systemStep iniparser noDictionary sys (.tool ops) := by
  have hstep : systemStep iniparser noDictionary ⟨none, none, none⟩
      (.check .grub2 (some allSucceed) (bytes "user") (bytes "abc") none .para) =
        some ⟨some (defaultFile .professional), none, none⟩ :=
    systemStep_check_iff.mpr
      ⟨toolMain_empty iniparser, deepinPwCheckByConf_of_unreadable rfl rfl _ _ _⟩
  have hrun : SystemRun iniparser noDictionary ⟨none, none, none⟩ bootLoaderCheck
      ⟨some (defaultFile .professional), none, none⟩ := by
    apply Trace.run_of_exec
    rw [bootLoaderCheck, Trace.exec, hstep, Option.bind_some, Trace.exec]
  exact ⟨_, hrun, systemRun_grub2 rfl hrun⟩

end DeepinPwCheck
