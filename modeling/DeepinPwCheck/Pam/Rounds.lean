import DeepinPwCheck.Pam.Chauthtok
import Mathlib.Data.List.Forall2

/-!
# The rounds of a password change

How many rounds `pam_sm_chauthtok` makes, what each of them checks, and how the call ends, for
configurations that change from round to round. While the configuration stays the same, the
call asks until a token is accepted.
-/

namespace DeepinPwCheck

open CText Ini

/-- The value of an argument that gives the number of rounds. -/
def retryValue (arg : Bytes) : Option ℤ :=
  if bytes "retry=" <+: arg then some (atoi (arg.drop 6)) else none

/-- The value of the last argument that gives the number of rounds. -/
def lastRetry (argv : List Bytes) : Option ℤ := (argv.filterMap retryValue).getLast?

/-- Two options with different names. An argument is therefore matched by one comparison at
most. -/
private theorem not_prefix_of_prefix {name other arg : Bytes} (h : name <+: arg)
    (hdiff : ¬ name <+: other) (hdiff' : ¬ other <+: name) : ¬ other <+: arg := by
  intro hother
  rcases List.prefix_or_prefix_of_prefix h hother with hprefix | hprefix
  · exact hdiff hprefix
  · exact hdiff' hprefix

/-- One argument changes the number of rounds exactly if it gives one. All other arguments leave
it alone. -/
theorem PamParas.parseArg_retryCnt (paras : PamParas) (arg : Bytes) :
    (paras.parseArg arg).retryCnt = (retryValue arg).getD paras.retryCnt := by
  unfold PamParas.parseArg retryValue
  by_cases hretry : bytes "retry=" <+: arg
  · have hlevel : ¬ bytes "level=" <+: arg :=
      not_prefix_of_prefix hretry (by decide) (by decide)
    have hpath : ¬ bytes "dict_path=" <+: arg :=
      not_prefix_of_prefix hretry (by decide) (by decide)
    rw [if_neg hlevel, if_neg hpath, if_pos hretry, if_pos hretry]
    rfl
  · rw [if_neg hretry, if_neg hretry]
    split_ifs <;> rfl

/-- The loop keeps the last number of rounds. The induction is on the arguments from the front, as
the loop goes. -/
theorem foldl_parseArg_retryCnt (argv : List Bytes) (paras : PamParas) :
    (argv.foldl PamParas.parseArg paras).retryCnt = (lastRetry argv).getD paras.retryCnt := by
  unfold lastRetry
  induction argv generalizing paras with
  | nil => rfl
  | cons arg argv ih =>
    rw [List.foldl_cons, ih, PamParas.parseArg_retryCnt]
    cases hvalue : retryValue arg with
    | none => simp [hvalue]
    | some value =>
      rw [List.filterMap_cons_some hvalue, List.getLast?_cons]
      cases (argv.filterMap retryValue).getLast? <;> rfl

/-- The loop makes as many rounds as the last `retry=` says, and one if it says less. The loop is
entered once before its condition is tested. -/
theorem retryRounds_eq (argv : List Bytes) (attempts : ℕ → Attempt) :
    retryRounds argv attempts =
      (List.range (max 1 ((lastRetry argv).getD 0).toNat)).map attempts := by
  have hcount : (parseArgv argv).retryCnt = (lastRetry argv).getD 0 :=
    foldl_parseArg_retryCnt argv PamParas.init
  have hrounds : (if (lastRetry argv).getD 0 ≤ 0 then 1 else (lastRetry argv).getD 0).toNat =
      max 1 ((lastRetry argv).getD 0).toNat := by
    split_ifs <;> omega
  unfold retryRounds
  rw [hcount, ← hrounds]

/-- An answer after which nobody is asked again: a token that is accepted, or none at all. -/
def settles (verdict : Bytes → PwErrorType) : Except PamFailure Bytes → Bool
  | .ok token => verdict token = .noErr
  | .error _ => true

/-- How the call ends with the answer that settled it: its return value, and the token that it
leaves. -/
def settledResult : Option (Except PamFailure Bytes) → PamResult × Option Bytes
  | none => (.authtokErr, none)
  | some (.error ret) => (ret.1, none)
  | some (.ok token) => (.success, some token)

/-- The check gives every token the same verdict in all rounds. -/
def SameVerdicts (check : TokenCheck) (verdict : Bytes → PwErrorType) (attempts : List Attempt) :
    Prop :=
  ∀ round ∈ attempts, ∀ token, round.verdict check token = .ok (verdict token)

/-- The messages of the verdicts that reject a token fit into `outbuf` in all rounds. -/
def MessagesFit (verdict : Bytes → PwErrorType) (attempts : List Attempt) : Prop :=
  ∀ round ∈ attempts, ∀ token, verdict token ≠ .noErr → round.fitsOutbuf (verdict token) = true

/-- A token that is accepted in every round is kept. With an unchanged configuration the later
rounds check it again and accept it again. -/
theorem retryLoop_of_held {check : TokenCheck} {s : PamSession} {token : Bytes}
    {attempts : List Attempt} (hauthtok : s.authtok = some token) (hresult : s.finallyResult = true)
    (hverdicts : ∀ round ∈ attempts, round.verdict check token = .ok .noErr) :
    ∃ outcome, retryLoop check s attempts = .ok outcome ∧ outcome.ret = .success ∧
      outcome.session.authtok = some token := by
  induction attempts generalizing s with
  | nil =>
    refine ⟨_, rfl, ?_, hauthtok⟩
    rw [hresult]
    rfl
  | cons attempt attempts ih =>
    have hstored : s.getAuthtok attempt = .ok token := by simp [PamSession.getAuthtok, hauthtok]
    obtain ⟨hverdict, hrest⟩ := List.forall_mem_cons.mp hverdicts
    rw [retryLoop, hstored]
    dsimp only
    rw [hverdict]
    exact ih rfl rfl hrest

/-- While every round gives the same verdicts, the loop asks until an answer settles it. What
comes after this answer changes neither the token nor the result. -/
theorem retryLoop_of_asking {check : TokenCheck} {verdict : Bytes → PwErrorType}
    {s : PamSession} {attempts : List Attempt} (hverdicts : SameVerdicts check verdict attempts)
    (hmessages : MessagesFit verdict attempts)
    (hresult : s.finallyResult = false) (hrounds : s.authtok = none ∨ attempts ≠ []) :
    ∃ outcome, retryLoop check s attempts = .ok outcome ∧
      (outcome.ret, outcome.session.authtok) =
        settledResult (((withStored s.authtok attempts).map Attempt.answer).find?
          (settles verdict)) := by
  induction attempts generalizing s with
  | nil =>
    have hnone : s.authtok = none := hrounds.resolve_right (by simp)
    refine ⟨_, rfl, ?_⟩
    rw [hresult, hnone]
    rfl
  | cons attempt attempts ih =>
    obtain ⟨hverdict, hrest⟩ := List.forall_mem_cons.mp hverdicts
    obtain ⟨hmessage, hmessages⟩ := List.forall_mem_cons.mp hmessages
    have hoffers : (withStored s.authtok (attempt :: attempts)).map Attempt.answer =
        s.getAuthtok attempt :: attempts.map Attempt.answer := rfl
    rw [hoffers, List.find?_cons, retryLoop]
    cases htoken : s.getAuthtok attempt with
    | error ret =>
      have hnone : s.authtok = none := by
        unfold PamSession.getAuthtok at htoken
        cases hauthtok : s.authtok with
        | none => rfl
        | some token => simp [hauthtok] at htoken
      refine ⟨_, rfl, ?_⟩
      rw [hnone]
      rfl
    | ok token =>
      dsimp only
      rw [hverdict token]
      dsimp only
      by_cases haccept : verdict token = .noErr
      · have hsettles : settles verdict (.ok token) = true := by simp [settles, haccept]
        rw [if_neg (not_not.mpr haccept), hsettles]
        have hheld : ∀ round ∈ attempts, round.verdict check token = .ok .noErr := by
          intro round hround
          rw [hrest round hround token, haccept]
        obtain ⟨outcome, hrun, hret, hauthtok⟩ :=
          retryLoop_of_held (s := s.accept token) rfl rfl hheld
        exact ⟨outcome, hrun, by rw [hret, hauthtok]; rfl⟩
      · have hsettles : settles verdict (.ok token) = false := by simp [settles, haccept]
        rw [if_pos haccept, if_pos (hmessage token haccept), hsettles]
        have hnone : (s.reject token (verdict token)).authtok = none := rfl
        have hasks :=
          ih (s := s.reject token (verdict token)) hrest hmessages hresult (Or.inl hnone)
        rwa [hnone, withStored_none] at hasks

/-- The first round offers the stored token, the others what they are told. The stored token is
thus treated as one more answer. -/
theorem map_answer_withStored (stored : Option Bytes) (attempts : ℕ → Attempt) (n : ℕ) :
    (withStored stored ((List.range (n + 1)).map attempts)).map Attempt.answer =
      (List.range (n + 1)).map fun k =>
        if k = 0 then stored.elim (attempts 0).answer .ok else (attempts k).answer := by
  rw [List.range_succ_eq_map, List.map_cons, List.map_cons, withStored, List.map_cons, if_pos rfl]
  congr 1
  · cases stored <;> rfl
  · simp only [List.map_map]
    rfl

/-- **An unchanged configuration.** Where the messages of the rejections fit into `outbuf`, the call
asks for tokens until one is accepted, as often as the last `retry=` says. It then leaves this
token; the answers that would follow decide nothing. The first answer is the stored token, if
there is one. -/
theorem pamSmChauthtok_unchanged {ini : Parser} {lib : CrackLib} {name : Bytes}
    {stored : Option Bytes} {flags : BitVec 32} {argv : List Bytes} {file updated : Option Bytes}
    {verdict : Bytes → PwErrorType} {message : PwErrorType → Option Bytes}
    (answers : ℕ → Except PamFailure Bytes)
    (hprelim : flags &&& pamPrelimCheck = 0) (hupdate : flags &&& pamUpdateAuthtok ≠ 0)
    (hcheck : ∀ token, deepinPwCheckByConf ini lib name token (parseArgv argv).dictPath file
      updated = .ok (verdict token))
    (hmessage : ∀ token, verdict token ≠ .noErr →
      ∃ text, message (verdict token) = some text ∧ text.length ≤ outbufLimit) :
    ∃ outcome, pamSmChauthtok ini lib (some name) stored flags argv
        (fun k => ⟨answers k, file, updated, message⟩) = .ok outcome ∧
      (outcome.ret, outcome.session.authtok) =
        settledResult (((List.range (max 1 ((lastRetry argv).getD 0).toNat)).map fun k =>
          if k = 0 then stored.elim (answers 0) .ok else answers k).find? (settles verdict)) := by
  have hverdicts : SameVerdicts (pamCheck ini lib name argv) verdict
      (retryRounds argv fun k => ⟨answers k, file, updated, message⟩) := by
    intro round hround token
    rw [retryRounds_eq] at hround
    obtain ⟨k, -, rfl⟩ := List.mem_map.mp hround
    exact hcheck token
  have hmessages : MessagesFit verdict
      (retryRounds argv fun k => ⟨answers k, file, updated, message⟩) := by
    intro round hround token hreject
    rw [retryRounds_eq] at hround
    obtain ⟨k, -, rfl⟩ := List.mem_map.mp hround
    obtain ⟨text, htext, hlength⟩ := hmessage token hreject
    simp [Attempt.fitsOutbuf, htext, hlength]
  have hrounds : retryRounds argv (fun k => ⟨answers k, file, updated, message⟩) ≠ [] := by
    rw [retryRounds_eq]
    simp
  obtain ⟨outcome, hrun, hsettled⟩ :=
    retryLoop_of_asking (s := .start stored) hverdicts hmessages rfl (Or.inr hrounds)
  refine ⟨outcome, ?_, ?_⟩
  · unfold pamSmChauthtok
    rw [if_neg (not_not.mpr hprelim), if_pos hupdate]
    exact hrun
  · rw [hsettled, retryRounds_eq]
    obtain ⟨n, hn⟩ : ∃ n, max 1 ((lastRetry argv).getD 0).toNat = n + 1 :=
      ⟨max 1 ((lastRetry argv).getD 0).toNat - 1, by omega⟩
    rw [hn]
    exact congrArg (fun offers => settledResult (offers.find? (settles verdict)))
      (map_answer_withStored stored _ n)

/-- The answers of a user who is rejected once. -/
def shortThenLong : ℕ → Except PamFailure Bytes
  | 0 => .ok (bytes "abc")
  | _ => .ok (bytes "abcdefgh")

/-- The options of a file that asks for eight bytes. -/
def eightByteOptions : Options where
  enabled := true
  minLen := 8
  maxLen := 512
  characterType := defaultPolicy
  characterNumRequired := 1
  palindromeMinNum := 0
  checkWord := 0
  dictPath := []
  monotoneCharacterNum := 0
  consecutiveSameCharacterNum := 0
  firstLetterUppercase := false
  passwordLengthStandardHigh := 8
  passwordLengthStandardMiddle := 6
  passwordCharacterTypeNumHigh := 3
  passwordCharacterTypeNumMiddle := 2

/-- The verdict of a check with a result. -/
def verdictOf : Except LoadError PwErrorType → PwErrorType
  | .ok verdict => verdict
  | .error _ => .internal

/-- Without translations every message of such a file fits. The run below needs it, because a
message that does not fit ends the program. -/
theorem fitsOutbuf_minLengthAttempt (answer : Except PamFailure Bytes) (err : PwErrorType) :
    ∃ text, (minLengthAttempt answer 8).message err = some text ∧ text.length ≤ outbufLimit := by
  have hfits : (errToStringByConf plainPlatform noCatalogue iniparser (some err)
      (some (minLengthFile 8))).any (fun message => message.length ≤ outbufLimit) = true := by
    cases err <;> decide +kernel
  obtain ⟨text, htext, hlength⟩ := (Option.any_eq_true _ _).mp hfits
  exact ⟨text, htext, of_decide_eq_true hlength⟩

/-- The user's second answer is accepted. -/
theorem pamSmChauthtok_unchanged_shortThenLong : ∃ outcome,
    pamSmChauthtok iniparser noDictionary (some (bytes "user")) none pamUpdateAuthtok
      retryTwiceArgv (fun k => minLengthAttempt (shortThenLong k) 8) = .ok outcome ∧
      (outcome.ret, outcome.session.authtok) = (.success, some (bytes "abcdefgh")) := by
  have hoptions : getDefaultOptions iniparser (parseArgv retryTwiceArgv).dictPath
      (some (minLengthFile 8)) none = .ok eightByteOptions := by
    decide
  have hcheck : ∀ token, deepinPwCheckByConf iniparser noDictionary (bytes "user") token
      (parseArgv retryTwiceArgv).dictPath (some (minLengthFile 8)) none =
        .ok (verdictOf (checkWithOptions noDictionary (bytes "user") token eightByteOptions)) := by
    intro token
    obtain ⟨verdict, hverdict⟩ := @exists_checkWithOptions_eq_ok eightByteOptions (by decide)
      noDictionary (bytes "user") token
    unfold deepinPwCheckByConf
    rw [hoptions]
    dsimp only
    rw [hverdict]
    rfl
  have hprelim : pamUpdateAuthtok &&& pamPrelimCheck = 0 := by decide
  have hupdate : pamUpdateAuthtok &&& pamUpdateAuthtok ≠ 0 := by decide
  obtain ⟨outcome, hrun, hsettled⟩ :=
    pamSmChauthtok_unchanged shortThenLong hprelim hupdate hcheck
      fun token _ => fitsOutbuf_minLengthAttempt (shortThenLong 0) _
  refine ⟨outcome, hrun, hsettled.trans ?_⟩
  decide +kernel

end DeepinPwCheck
