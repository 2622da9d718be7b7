import DeepinPwCheck.DictionaryHit

/-!
# The arguments of the PAM module

`parse_argv` reads the options of the module's line in a PAM stack. One of them names
a dictionary, which then passes through the library to `word_check`. This file follows
the name through all steps that may replace it.
-/

namespace DeepinPwCheck

open CText Ini

/-- `atoi`: `strtol` with base 10, converted to `int`. -/
def atoi (s : Bytes) : ℤ :=
  match s.dropWhile isSpace with
  | [] => 0
  | sign :: rest =>
      if sign = 45 then toInt32 (max (-(magnitude 10 rest : ℤ)) (-2 ^ 63))
      else if sign = 43 then toInt32 (min (magnitude 10 rest : ℤ) (2 ^ 63 - 1))
      else toInt32 (min (magnitude 10 (sign :: rest) : ℤ) (2 ^ 63 - 1))

/-- `struct pam_paras`. -/
structure PamParas where
  level : ℤ
  dictPath : Option Bytes
  retryCnt : ℤ
  debug : ℤ
  deriving DecidableEq

/-- The initial values in `pam_sm_chauthtok`. -/
def PamParas.init : PamParas := ⟨0, none, 0, 0⟩

/-- The loop body of `parse_argv`. -/
def PamParas.parseArg (paras : PamParas) (arg : Bytes) : PamParas :=
  if bytes "level=" <+: arg then { paras with level := atoi (arg.drop 6) }
  else if bytes "dict_path=" <+: arg then { paras with dictPath := some (arg.drop 10) }
  else if bytes "retry=" <+: arg then { paras with retryCnt := atoi (arg.drop 6) }
  else if arg = bytes "debug" then { paras with debug := 1 }
  else paras

/-- `parse_argv`. -/
def parseArgv (argv : List Bytes) : PamParas := argv.foldl PamParas.parseArg PamParas.init

/-- The value of an argument that names a dictionary. -/
def dictPathValue (arg : Bytes) : Option Bytes :=
  if bytes "dict_path=" <+: arg then some (arg.drop 10) else none

/-- The value of the last argument that names a dictionary. -/
def lastDictPath (argv : List Bytes) : Option Bytes := (argv.filterMap dictPathValue).getLast?

/-- The dictionary that the administrator names: by the last argument, else by the
configuration, else not at all. -/
def namedPath (lib : CrackLib) (argv : List Bytes) (configured : Bytes) : Bytes :=
  let argument := (lastDictPath argv).getD []
  if argument ≠ [] then argument
  else if configured ≠ [] then configured
  else lib.getDefaultCracklibDict

/-- One argument changes the path exactly if it names one. The loop over the arguments is folded
with it. -/
theorem PamParas.parseArg_dictPath (paras : PamParas) (arg : Bytes) :
    (paras.parseArg arg).dictPath = (dictPathValue arg).or paras.dictPath := by
  unfold PamParas.parseArg dictPathValue
  by_cases hpath : bytes "dict_path=" <+: arg
  · have hlevel : ¬bytes "level=" <+: arg := by
      intro hlevel
      have hprefix := List.prefix_of_prefix_length_le hlevel hpath (by decide)
      exact absurd hprefix (by decide)
    rw [if_neg hlevel, if_pos hpath, if_pos hpath]
    rfl
  · rw [if_neg hpath, if_neg hpath]
    split_ifs <;> rfl

/-- The loop keeps the last path. The induction is on the arguments from the front, as the loop
goes. -/
theorem foldl_parseArg_dictPath (argv : List Bytes) (paras : PamParas) :
    (argv.foldl PamParas.parseArg paras).dictPath = (lastDictPath argv).or paras.dictPath := by
  unfold lastDictPath
  induction argv generalizing paras with
  | nil => rfl
  | cons arg argv ih =>
    rw [List.foldl_cons, ih, PamParas.parseArg_dictPath]
    cases hvalue : dictPathValue arg with
    | none => simp [hvalue]
    | some value =>
      rw [List.filterMap_cons_some hvalue, List.getLast?_cons]
      cases (argv.filterMap dictPathValue).getLast? <;> rfl

/-- `parse_argv` finds the last path. An earlier argument of the same name has no effect. -/
theorem parseArgv_dictPath (argv : List Bytes) : (parseArgv argv).dictPath = lastDictPath argv := by
  unfold parseArgv
  rw [foldl_parseArg_dictPath]
  exact Option.or_none

/-- The options of the library hold the configured path, or the path of the caller in its place.
The opened path is compared with the named one through it. -/
theorem getDefaultOptions_dictPath {ini : Parser} {argument file updated : Option Bytes}
    {text : Bytes} {dic : Dictionary} {options : Options}
    (hload : (loadFile ini file).or (loadFile ini updated) = some (text, dic))
    (hoptions : getDefaultOptions ini argument file updated = .ok options) :
    options.dictPath =
      if argument.getD [] = [] ∨ (getstring dic (Key.name .dictPath) []).take 255 = [] then
        (getstring dic (Key.name .dictPath) []).take 255
      else (argument.getD []).take 255 := by
  unfold getDefaultOptions loadPwdConf at hoptions
  rw [hload] at hoptions
  dsimp only at hoptions
  cases hpolicy : characterTypeOf text dic with
  | error e =>
    rw [hpolicy] at hoptions
    simp [Except.map] at hoptions
  | ok characterType =>
    rw [hpolicy] at hoptions
    simp only [Except.map, Except.ok.injEq] at hoptions
    subst hoptions
    cases argument with
    | none => simp [optionsOf]
    | some path =>
      rw [apply_ite Options.dictPath]
      rfl

/-- **The named dictionary.** `word_check` opens the dictionary that the administrator names,
except when an argument names another one than the default and no path is configured. -/
theorem openedPath_eq_namedPath_iff {ini : Parser} {lib : CrackLib} {argv : List Bytes}
    {file updated : Option Bytes} {text : Bytes} {dic : Dictionary} {options : Options}
    (hload : (loadFile ini file).or (loadFile ini updated) = some (text, dic))
    (hoptions : getDefaultOptions ini (parseArgv argv).dictPath file updated = .ok options)
    (hargv : ∀ path, lastDictPath argv = some path → path.length < 256)
    (hconfigured : (getstring dic (Key.name .dictPath) []).length < 256) :
    openedPath lib (some options.dictPath) =
        namedPath lib argv (getstring dic (Key.name .dictPath) []) ↔
      (lastDictPath argv).getD [] = [] ∨ getstring dic (Key.name .dictPath) [] ≠ [] ∨
        lastDictPath argv = some lib.getDefaultCracklibDict := by
  have hpath := getDefaultOptions_dictPath hload hoptions
  set configured := getstring dic (Key.name .dictPath) [] with hconfiguredDef
  have hopened (path : Bytes) : openedPath lib (some path) =
      if path = [] then lib.getDefaultCracklibDict else path := by
    cases path <;> rfl
  rw [parseArgv_dictPath, List.take_of_length_le (by omega : configured.length ≤ 255)] at hpath
  rw [hpath, hopened]
  unfold namedPath
  cases hlast : lastDictPath argv with
  | none => by_cases hempty : configured = [] <;> simp [hempty]
  | some path =>
    have hshort := hargv path hlast
    rw [Option.getD_some, List.take_of_length_le (by omega : path.length ≤ 255)]
    by_cases hnamed : path = []
    · by_cases hempty : configured = [] <;> simp [hnamed, hempty]
    · by_cases hempty : configured = []
      · simp [hnamed, hempty, eq_comm]
      · simp [hnamed, hempty]

/-- A file with a dictionary path. -/
def dictPathFile : Bytes := bytes "[Password]\nDICT_PATH = /usr/share/words\n"

/-- The arguments of a module with retries and a dictionary. -/
def dictPathArgv : List Bytes := [bytes "retry=3", bytes "dict_path=/opt/words"]

/-- The equivalence for an argument that replaces the configured path. -/
theorem openedPath_eq_namedPath_iff_dictPathFile :
    ∃ dic options, iniparser.load dictPathFile = some dic ∧
      getDefaultOptions iniparser (parseArgv dictPathArgv).dictPath (some dictPathFile) none =
        .ok options ∧
      (openedPath noDictionary (some options.dictPath) =
          namedPath noDictionary dictPathArgv (getstring dic (Key.name .dictPath) []) ↔
        (lastDictPath dictPathArgv).getD [] = [] ∨ getstring dic (Key.name .dictPath) [] ≠ [] ∨
          lastDictPath dictPathArgv = some noDictionary.getDefaultCracklibDict) := by
  refine ⟨_, _, rfl, rfl, @openedPath_eq_namedPath_iff iniparser noDictionary dictPathArgv
    (some dictPathFile) none dictPathFile _ _ rfl rfl ?_ (by decide)⟩
  intro path hpath
  have hlast : lastDictPath dictPathArgv = some (bytes "/opt/words") := by decide
  obtain rfl : bytes "/opt/words" = path := by simpa [hlast] using hpath
  decide

/-- Without a configured path the argument is dropped, and the default is opened. -/
theorem openedPath_ne_namedPath :
    ¬∀ (ini : Parser) (lib : CrackLib) (argv : List Bytes) (file updated : Option Bytes)
        (text : Bytes) (dic : Dictionary) (options : Options),
      (loadFile ini file).or (loadFile ini updated) = some (text, dic) →
      getDefaultOptions ini (parseArgv argv).dictPath file updated = .ok options →
      (∀ path, lastDictPath argv = some path → path.length < 256) →
      (getstring dic (Key.name .dictPath) []).length < 256 →
        openedPath lib (some options.dictPath) =
          namedPath lib argv (getstring dic (Key.name .dictPath) []) := by
  intro h
  have hlast : lastDictPath dictPathArgv = some (bytes "/opt/words") := by decide
  have hsame := h iniparser noDictionary dictPathArgv (some wordCheckFile) none _ _ _ rfl rfl
    (fun path hpath => by
      obtain rfl : bytes "/opt/words" = path := by simpa [hlast] using hpath
      decide) (by decide)
  exact absurd hsame (by decide)

end DeepinPwCheck
