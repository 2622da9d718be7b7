import DeepinPwCheck.Messages
import DeepinPwCheck.Pam.Arguments

/-!
# Changing a password

`pam_sm_chauthtok` asks for a new token, checks it under the configuration of that moment, and
forgets a token that is rejected, after it has printed the message of the verdict into `outbuf`.
It does so once for every retry, also after a token has been accepted. Between two rounds the
configuration may change.
-/

namespace DeepinPwCheck

open CText Ini

/-- The return values of a PAM call. -/
inductive PamResult where
  | success
  | userUnknown
  | authtokErr
  | serviceErr
  | other (code : ℕ)
  deriving DecidableEq

/-- A return value other than `PAM_SUCCESS`. -/
abbrev PamFailure := {ret : PamResult // ret ≠ .success}

/-- `PAM_PRELIM_CHECK`. -/
def pamPrelimCheck : BitVec 32 := 0x4000

/-- `PAM_UPDATE_AUTHTOK`. -/
def pamUpdateAuthtok : BitVec 32 := 0x2000

/-- What one round of the loop meets: the answer of the conversation in case it is asked, the
configuration file, as it is and as the update tool leaves it, and the message that `err_to_string`
gives for a verdict, if it returns. -/
structure Attempt where
  answer : Except PamFailure Bytes
  file : Option Bytes
  updated : Option Bytes
  message : PwErrorType → Option Bytes

/-- What the loop does to a token. -/
inductive PamEvent where
  | checked (token : Bytes) (verdict : PwErrorType)
  | cleared
  deriving DecidableEq

/-- The item `PAM_AUTHTOK`, the flag of the loop, and what has happened so far. -/
structure PamSession where
  authtok : Option Bytes
  finallyResult : Bool
  events : List PamEvent
  deriving DecidableEq

/-- How `pam_sm_chauthtok` ends. -/
structure PamOutcome where
  ret : PamResult
  session : PamSession
  deriving DecidableEq

/-- `pam_get_authtok`: the stored token, else the answer of the conversation. -/
def PamSession.getAuthtok (s : PamSession) (attempt : Attempt) : Except PamFailure Bytes :=
  match s.authtok with
  | some token => .ok token
  | none => attempt.answer

/-- `deepin_pw_check` with all its arguments but the file and the token. -/
abbrev TokenCheck := Option Bytes → Option Bytes → Bytes → Except LoadError PwErrorType

/-- The check of a token in one round. -/
def Attempt.verdict (attempt : Attempt) (check : TokenCheck) (token : Bytes) :
    Except LoadError PwErrorType :=
  check attempt.file attempt.updated token

/-- There is a message for the verdict, and `outbuf` has room for it and its terminator. -/
def Attempt.fitsOutbuf (attempt : Attempt) (verdict : PwErrorType) : Bool :=
  (attempt.message verdict).any fun message => message.length ≤ outbufLimit

/-- The state after a token has been rejected. -/
def PamSession.reject (s : PamSession) (token : Bytes) (verdict : PwErrorType) : PamSession :=
  { s with authtok := none, events := s.events ++ [.checked token verdict, .cleared] }

/-- The state after a token has been accepted. -/
def PamSession.accept (s : PamSession) (token : Bytes) : PamSession where
  authtok := some token
  finallyResult := true
  events := s.events ++ [.checked token .noErr]

/-- The loop of `pam_sm_chauthtok`. The `sprintf` of a message that is too long writes past the end
of `outbuf`. -/
def retryLoop (check : TokenCheck) (s : PamSession) : List Attempt → Except LoadError PamOutcome
  | [] => .ok ⟨if s.finallyResult then .success else .authtokErr, s⟩
  | attempt :: attempts =>
      match s.getAuthtok attempt with
      | .error ret => .ok ⟨ret.1, s⟩
      | .ok token =>
          match attempt.verdict check token with
          | .error e => .error e
          | .ok verdict =>
              if verdict ≠ .noErr then
                if attempt.fitsOutbuf verdict then retryLoop check (s.reject token verdict) attempts
                else .error .overrun
              else retryLoop check (s.accept token) attempts

/-- The state before the first round. -/
def PamSession.start (stored : Option Bytes) : PamSession := ⟨stored, false, []⟩

/-- The check that `pam_sm_chauthtok` calls. -/
def pamCheck (ini : Parser) (lib : CrackLib) (user : Bytes) (argv : List Bytes) : TokenCheck :=
  fun file updated token =>
    deepinPwCheckByConf ini lib user token (parseArgv argv).dictPath file updated

/-- The rounds of the loop. -/
def retryRounds (argv : List Bytes) (attempts : ℕ → Attempt) : List Attempt :=
  let retryCnt := (parseArgv argv).retryCnt
  (List.range (if retryCnt ≤ 0 then 1 else retryCnt).toNat).map attempts

/-- `pam_sm_chauthtok`. `stored` is the item `PAM_AUTHTOK` at its call. -/
def pamSmChauthtok (ini : Parser) (lib : CrackLib) (user stored : Option Bytes)
    (flags : BitVec 32) (argv : List Bytes) (attempts : ℕ → Attempt) :
    Except LoadError PamOutcome :=
  if flags &&& pamPrelimCheck ≠ 0 then .ok ⟨.success, .start stored⟩
  else if flags &&& pamUpdateAuthtok ≠ 0 then
    match user with
    | none => .ok ⟨.userUnknown, .start stored⟩
    | some user =>
        retryLoop (pamCheck ini lib user argv) (.start stored) (retryRounds argv attempts)
  else .ok ⟨.serviceErr, .start stored⟩

/-- The token and the verdict of a check. -/
def PamEvent.check? : PamEvent → Option (Bytes × PwErrorType)
  | checked token verdict => some (token, verdict)
  | cleared => none

/-- The last check. -/
def lastCheck (events : List PamEvent) : Option (Bytes × PwErrorType) :=
  (events.filterMap PamEvent.check?).getLast?

/-- A check that accepts. -/
def PamEvent.Accepts (e : PamEvent) : Prop := ∃ token, e = .checked token .noErr

/-- No token is cleared after one has been accepted. -/
def Unbroken (events : List PamEvent) : Prop :=
  events.Pairwise fun earlier later => earlier.Accepts → later ≠ .cleared

/-- Success means that the token left behind has passed the last check; and an accepted
token is neither cleared nor followed by an error. -/
structure PamOutcome.IsGood (outcome : PamOutcome) : Prop where
  success : outcome.ret = .success → ∃ token, outcome.session.authtok = some token ∧
    lastCheck outcome.session.events = some (token, .noErr)
  unbroken : Unbroken outcome.session.events
  result : ∀ e ∈ outcome.session.events, e.Accepts → outcome.ret = .success

/-- The rounds with the token that each offers as long as none has been accepted: the first
one offers the stored token. -/
def withStored (stored : Option Bytes) : List Attempt → List Attempt
  | [] => []
  | attempt :: attempts =>
      { attempt with answer := (PamSession.start stored).getAuthtok attempt } :: attempts

/-- The token of a round is rejected. -/
def Attempt.Rejects (attempt : Attempt) (check : TokenCheck) : Prop :=
  ∃ token verdict, attempt.answer = .ok token ∧ attempt.verdict check token = .ok verdict ∧
    verdict ≠ .noErr

/-- The first token that is accepted is accepted in all later rounds. -/
def StaysAccepted (check : TokenCheck) (rounds : List Attempt) : Prop :=
  ∀ before round after token, rounds = before ++ round :: after →
    (∀ earlier ∈ before, earlier.Rejects check) → round.answer = .ok token →
      round.verdict check token = .ok .noErr →
        ∀ later ∈ after, later.verdict check token = .ok .noErr

/-- A round that ends the run, rejects its token or accepts it. The inductions over the rounds
split on these three cases. -/
theorem retryLoop_cons_cases {check : TokenCheck} {s : PamSession} {attempt : Attempt}
    {attempts : List Attempt} {outcome : PamOutcome}
    (h : retryLoop check s (attempt :: attempts) = .ok outcome) :
    (∃ ret, s.getAuthtok attempt = .error ret ∧ outcome = ⟨ret.1, s⟩) ∨
      (∃ token verdict, s.getAuthtok attempt = .ok token ∧
        attempt.verdict check token = .ok verdict ∧ verdict ≠ .noErr ∧
        attempt.fitsOutbuf verdict = true ∧
        retryLoop check (s.reject token verdict) attempts = .ok outcome) ∨
      ∃ token, s.getAuthtok attempt = .ok token ∧ attempt.verdict check token = .ok .noErr ∧
        retryLoop check (s.accept token) attempts = .ok outcome := by
  rw [retryLoop] at h
  cases htoken : s.getAuthtok attempt with
  | error ret =>
    rw [htoken] at h
    exact Or.inl ⟨ret, rfl, (Except.ok.inj h).symm⟩
  | ok token =>
    rw [htoken] at h
    dsimp only at h
    cases hverdict : attempt.verdict check token with
    | error e =>
      rw [hverdict] at h
      cases h
    | ok verdict =>
      rw [hverdict] at h
      dsimp only at h
      by_cases hreject : verdict = .noErr
      · subst hreject
        exact Or.inr (Or.inr ⟨token, rfl, hverdict, h⟩)
      · rw [if_pos hreject] at h
        split_ifs at h with hfits
        exact Or.inr (Or.inl ⟨token, verdict, rfl, hverdict, hreject, hfits, h⟩)

/-- The loop only adds events. What has been checked stays on record. -/
theorem prefix_events_of_retryLoop {check : TokenCheck} {s : PamSession} {attempts : List Attempt}
    {outcome : PamOutcome} (h : retryLoop check s attempts = .ok outcome) :
    s.events <+: outcome.session.events := by
  induction attempts generalizing s with
  | nil =>
    obtain rfl := Except.ok.inj h
    exact List.prefix_rfl
  | cons attempt attempts ih =>
    rcases retryLoop_cons_cases h with ⟨ret, -, rfl⟩ | ⟨token, verdict, -, -, -, -, hrest⟩ |
      ⟨token, -, -, hrest⟩
    · exact List.prefix_rfl
    · exact (List.prefix_append _ _).trans (ih hrest)
    · exact (List.prefix_append _ _).trans (ih hrest)

/-- A check adds itself to the last checks. The token that is left at the end is compared with the
last check. -/
theorem lastCheck_concat (events : List PamEvent) (token : Bytes) (verdict : PwErrorType) :
    lastCheck (events ++ [.checked token verdict]) = some (token, verdict) := by
  simp [lastCheck, PamEvent.check?]

/-- A further check breaks nothing. Only clearing a token after an acceptance does. -/
theorem Unbroken.concat_checked {events : List PamEvent} (h : Unbroken events) (token : Bytes)
    (verdict : PwErrorType) : Unbroken (events ++ [.checked token verdict]) := by
  refine List.pairwise_append.mpr ⟨h, List.pairwise_singleton _ _, ?_⟩
  intro earlier _ later hlater _
  rw [List.mem_singleton.mp hlater]
  exact PamEvent.noConfusion

/-- Without an accepted token nothing is broken. -/
theorem unbroken_of_forall_not {events : List PamEvent} (h : ∀ e ∈ events, ¬e.Accepts) :
    Unbroken events :=
  List.pairwise_iff_forall_sublist.mpr fun hsub haccepts =>
    absurd haccepts (h _ (hsub.subset List.mem_cons_self))

/-- The state of the loop while a token is accepted: it is stored, and it passed the last check. -/
structure PamSession.Holds (s : PamSession) (token : Bytes) : Prop where
  authtok : s.authtok = some token
  finallyResult : s.finallyResult = true
  last : lastCheck s.events = some (token, .noErr)
  unbroken : Unbroken s.events
  accepted : ∃ e ∈ s.events, e.Accepts

/-- The state of the loop while no token has been accepted. -/
structure PamSession.Asks (s : PamSession) : Prop where
  finallyResult : s.finallyResult = false
  accepted : ∀ e ∈ s.events, ¬e.Accepts

/-- An accepted token is held. The loop enters this state at the first acceptance. -/
theorem PamSession.holds_accept {s : PamSession} (h : Unbroken s.events) (token : Bytes) :
    (s.accept token).Holds token where
  authtok := rfl
  finallyResult := rfl
  last := lastCheck_concat s.events token .noErr
  unbroken := h.concat_checked token .noErr
  accepted := ⟨.checked token .noErr, by simp [PamSession.accept], token, rfl⟩

/-- A rejected token leaves the loop asking. Together with `PamSession.holds_accept` these are the
two states of the loop. -/
theorem PamSession.Asks.reject {s : PamSession} (h : s.Asks) (token : Bytes)
    {verdict : PwErrorType} (hverdict : verdict ≠ .noErr) : (s.reject token verdict).Asks where
  finallyResult := h.finallyResult
  accepted := by
    intro e he haccepts
    rcases List.mem_append.mp he with hold | hnew
    · exact h.accepted e hold haccepts
    · obtain ⟨token', rfl⟩ := haccepts
      have hsame : token' = token ∧ .noErr = verdict := by simpa using hnew
      exact hverdict hsame.2.symm

/-- A run that ends while a token is held is good. -/
theorem PamSession.Holds.isGood {s : PamSession} {token : Bytes} (h : s.Holds token) :
    (PamOutcome.mk .success s).IsGood where
  success := fun _ => ⟨token, h.authtok, h.last⟩
  unbroken := h.unbroken
  result := fun _ _ _ => rfl

/-- A run that ends with an error before a token has been accepted is good. -/
theorem PamSession.Asks.isGood {s : PamSession} (h : s.Asks) {ret : PamResult}
    (hret : ret ≠ .success) : (PamOutcome.mk ret s).IsGood where
  success := fun hsuccess => absurd hsuccess hret
  unbroken := unbroken_of_forall_not h.accepted
  result := fun e he haccepts => absurd haccepts (h.accepted e he)

/-- Rejecting a token after one has been accepted breaks the run. This is the run in which the
module takes a token back. -/
theorem PamSession.Holds.not_unbroken {s : PamSession} {held token : Bytes}
    {verdict : PwErrorType} {events : List PamEvent} (h : s.Holds held)
    (hfront : (s.reject token verdict).events <+: events) : ¬Unbroken events := by
  intro hunbroken
  obtain ⟨e, he, haccepts⟩ := h.accepted
  have hreject : Unbroken (s.events ++ [.checked token verdict, .cleared]) :=
    hunbroken.sublist hfront.sublist
  have hcross := (List.pairwise_append.mp hreject).2.2
  exact hcross e he .cleared (by simp) haccepts rfl

/-- From a state with an accepted token the run is good exactly if all rounds accept it. The
induction is on the rounds that are left. -/
theorem PamSession.Holds.isGood_iff {check : TokenCheck} {s : PamSession} {token : Bytes}
    {attempts : List Attempt} {outcome : PamOutcome} (hs : s.Holds token)
    (h : retryLoop check s attempts = .ok outcome) :
    outcome.IsGood ↔ ∀ later ∈ attempts, later.verdict check token = .ok .noErr := by
  induction attempts generalizing s with
  | nil =>
    obtain rfl := Except.ok.inj h
    rw [hs.finallyResult]
    simpa using hs.isGood
  | cons attempt attempts ih =>
    have hstored : s.getAuthtok attempt = .ok token := by simp [PamSession.getAuthtok, hs.authtok]
    rw [List.forall_mem_cons]
    rcases retryLoop_cons_cases h with ⟨ret, hfail, -⟩ |
      ⟨token', verdict, htoken, hverdict, hreject, -, hrest⟩ | ⟨token', htoken, hverdict, hrest⟩
    · rw [hstored] at hfail
      cases hfail
    · obtain rfl := Except.ok.inj (hstored.symm.trans htoken)
      have hbroken := hs.not_unbroken (prefix_events_of_retryLoop hrest)
      refine iff_of_false (fun hgood => hbroken hgood.unbroken) ?_
      rintro ⟨haccept, -⟩
      exact hreject (Except.ok.inj (hverdict.symm.trans haccept))
    · obtain rfl := Except.ok.inj (hstored.symm.trans htoken)
      rw [ih (PamSession.holds_accept hs.unbroken token) hrest]
      exact (and_iff_right hverdict).symm

/-- A round without a token decides nothing. The loop ends there. -/
theorem staysAccepted_cons_of_error {check : TokenCheck} {round : Attempt} {rest : List Attempt}
    {ret : PamFailure} (h : round.answer = .error ret) : StaysAccepted check (round :: rest) := by
  intro before round' after token hrounds hbefore htoken
  rcases List.cons_eq_append_iff.mp hrounds with ⟨rfl, hsame⟩ | ⟨before', rfl, -⟩
  · obtain ⟨rfl, rfl⟩ := List.cons.inj hsame
    rw [h] at htoken
    cases htoken
  · obtain ⟨token', -, htoken', -⟩ := hbefore round List.mem_cons_self
    rw [h] at htoken'
    cases htoken'

/-- After a rejected token the next round decides. The condition passes to the rounds that are
left. -/
theorem staysAccepted_cons_of_rejects {check : TokenCheck} {round : Attempt}
    {rest : List Attempt} (h : round.Rejects check) :
    StaysAccepted check (round :: rest) ↔ StaysAccepted check rest := by
  constructor
  · intro hstays before round' after token hrounds hbefore
    exact hstays (round :: before) round' after token (by rw [hrounds, List.cons_append])
      (List.forall_mem_cons.mpr ⟨h, hbefore⟩)
  · intro hstays before round' after token hrounds hbefore htoken haccept
    rcases List.cons_eq_append_iff.mp hrounds with ⟨rfl, hsame⟩ | ⟨before', rfl, hrest⟩
    · obtain ⟨rfl, rfl⟩ := List.cons.inj hsame
      obtain ⟨token', verdict, htoken', hverdict, hreject⟩ := h
      obtain rfl := Except.ok.inj (htoken'.symm.trans htoken)
      exact absurd (Except.ok.inj (hverdict.symm.trans haccept)) hreject
    · exact hstays before' round' after token hrest (List.forall_mem_cons.mp hbefore).2 htoken
        haccept

/-- An accepted token must be accepted in all rounds that follow. The loop of the module goes on
after the first success. -/
theorem staysAccepted_cons_of_accepts {check : TokenCheck} {round : Attempt}
    {rest : List Attempt} {token : Bytes} (htoken : round.answer = .ok token)
    (haccept : round.verdict check token = .ok .noErr) :
    StaysAccepted check (round :: rest) ↔
      ∀ later ∈ rest, later.verdict check token = .ok .noErr := by
  constructor
  · intro hstays
    exact hstays [] round rest token rfl (by simp) htoken haccept
  · intro hrest before round' after token' hrounds hbefore htoken' _
    rcases List.cons_eq_append_iff.mp hrounds with ⟨rfl, hsame⟩ | ⟨before', rfl, -⟩
    · obtain ⟨rfl, rfl⟩ := List.cons.inj hsame
      obtain rfl := Except.ok.inj (htoken.symm.trans htoken')
      exact hrest
    · obtain ⟨token'', verdict, htoken'', hverdict, hreject⟩ := hbefore round List.mem_cons_self
      obtain rfl := Except.ok.inj (htoken.symm.trans htoken'')
      exact absurd (Except.ok.inj (hverdict.symm.trans haccept)) hreject

/-- Without a stored token every round asks. It is the state after a token has been cleared. -/
theorem withStored_none (attempts : List Attempt) : withStored none attempts = attempts := by
  cases attempts <;> rfl

/-- From a state without an accepted token the run is good exactly if the first token that is
accepted stays so. -/
theorem PamSession.Asks.isGood_iff {check : TokenCheck} {s : PamSession}
    {attempts : List Attempt} {outcome : PamOutcome} (hs : s.Asks)
    (h : retryLoop check s attempts = .ok outcome) :
    outcome.IsGood ↔ StaysAccepted check (withStored s.authtok attempts) := by
  induction attempts generalizing s with
  | nil =>
    obtain rfl := Except.ok.inj h
    rw [hs.finallyResult]
    refine iff_of_true (hs.isGood (by decide)) ?_
    intro before round after token hrounds
    simp [withStored] at hrounds
  | cons attempt attempts ih =>
    set offered : Attempt := { attempt with answer := s.getAuthtok attempt }
    have hrounds : withStored s.authtok (attempt :: attempts) = offered :: attempts := rfl
    rw [hrounds]
    rcases retryLoop_cons_cases h with ⟨ret, hfail, rfl⟩ |
      ⟨token, verdict, htoken, hverdict, hreject, -, hrest⟩ | ⟨token, htoken, haccept, hrest⟩
    · exact iff_of_true (hs.isGood ret.2) (staysAccepted_cons_of_error hfail)
    · have hrejects : offered.Rejects check := ⟨token, verdict, htoken, hverdict, hreject⟩
      have hnone : (s.reject token verdict).authtok = none := rfl
      rw [staysAccepted_cons_of_rejects hrejects, ih (hs.reject token hreject) hrest, hnone,
        withStored_none]
    · have haccepts : offered.verdict check token = .ok .noErr := haccept
      rw [(holds_accept (unbroken_of_forall_not hs.accepted) token).isGood_iff hrest,
        staysAccepted_cons_of_accepts htoken haccepts]

/-- **The token left behind.** A run of `pam_sm_chauthtok` keeps an accepted token and succeeds
with it exactly if the first token that is accepted is accepted again in all later rounds, under
the configuration of each. -/
theorem pamSmChauthtok_isGood_iff {ini : Parser} {lib : CrackLib} {user stored : Option Bytes}
    {flags : BitVec 32} {argv : List Bytes} {attempts : ℕ → Attempt} {outcome : PamOutcome}
    (hprelim : flags &&& pamPrelimCheck = 0) (hupdate : flags &&& pamUpdateAuthtok ≠ 0)
    (hrun : pamSmChauthtok ini lib user stored flags argv attempts = .ok outcome) :
    outcome.IsGood ↔ ∀ name, user = some name →
      StaysAccepted (pamCheck ini lib name argv)
        (withStored stored (retryRounds argv attempts)) := by
  have hasks : (PamSession.start stored).Asks := ⟨rfl, fun _ he => absurd he List.not_mem_nil⟩
  unfold pamSmChauthtok at hrun
  rw [if_neg (not_not.mpr hprelim), if_pos hupdate] at hrun
  cases user with
  | none =>
    obtain rfl := Except.ok.inj hrun
    exact iff_of_true (hasks.isGood (by decide)) (by simp)
  | some name =>
    rw [hasks.isGood_iff hrun]
    simp [PamSession.start]

/-- A file that asks for at least the given number of bytes. -/
def minLengthFile (minLength : ℤ) : Bytes :=
  bytes "[Password]\nPASSWORD_MIN_LENGTH = " ++ decimal minLength ++ bytes "\n"

/-- A round under such a file, with messages that are not translated. -/
def minLengthAttempt (answer : Except PamFailure Bytes) (minLength : ℤ) : Attempt where
  answer := answer
  file := some (minLengthFile minLength)
  updated := none
  message err :=
    errToStringByConf plainPlatform noCatalogue iniparser (some err)
      (some (minLengthFile minLength))

/-- The same token in every round, under a file for each round. -/
def sameToken (token : Bytes) (minLength : ℕ → ℤ) : ℕ → Attempt :=
  fun round => minLengthAttempt (.ok token) (minLength round)

/-- The arguments of a module that tries twice. -/
def retryTwiceArgv : List Bytes := [bytes "retry=2"]

/-- The equivalence for a token that is accepted twice. -/
theorem pamSmChauthtok_isGood_iff_accepted_twice :
    ∃ outcome, pamSmChauthtok iniparser noDictionary (some (bytes "user")) none pamUpdateAuthtok
        retryTwiceArgv (sameToken (bytes "abc") fun _ => 1) = .ok outcome ∧
      (outcome.IsGood ↔ ∀ name, some (bytes "user") = some name →
        StaysAccepted (pamCheck iniparser noDictionary name retryTwiceArgv)
          (withStored none (retryRounds retryTwiceArgv (sameToken (bytes "abc") fun _ => 1)))) := by
  have hrun : pamSmChauthtok iniparser noDictionary (some (bytes "user")) none pamUpdateAuthtok
      retryTwiceArgv (sameToken (bytes "abc") fun _ => 1) =
      .ok ⟨.success, ⟨some (bytes "abc"), true, [.checked (bytes "abc") .noErr,
        .checked (bytes "abc") .noErr]⟩⟩ := by
    decide +kernel
  have hprelim : pamUpdateAuthtok &&& pamPrelimCheck = 0 := by decide
  have hupdate : pamUpdateAuthtok &&& pamUpdateAuthtok ≠ 0 := by decide
  exact ⟨_, hrun, pamSmChauthtok_isGood_iff hprelim hupdate hrun⟩

/-- A configuration that asks for more after the token has been accepted: the second round
clears the token, and the call succeeds. -/
theorem pamSmChauthtok_clears_accepted :
    ¬∀ (ini : Parser) (lib : CrackLib) (user stored : Option Bytes) (flags : BitVec 32)
        (argv : List Bytes) (attempts : ℕ → Attempt) (outcome : PamOutcome),
      flags &&& pamPrelimCheck = 0 → flags &&& pamUpdateAuthtok ≠ 0 →
      pamSmChauthtok ini lib user stored flags argv attempts = .ok outcome → outcome.IsGood := by
  intro h
  have hrun : pamSmChauthtok iniparser noDictionary (some (bytes "user")) none pamUpdateAuthtok
      retryTwiceArgv (sameToken (bytes "abc") fun round => if round = 0 then 1 else 8) =
      .ok ⟨.success, ⟨none, true, [.checked (bytes "abc") .noErr,
        .checked (bytes "abc") .lengthShort, .cleared]⟩⟩ := by
    decide +kernel
  obtain ⟨token, hstored, -⟩ := (h _ _ _ _ _ _ _ _ (by decide) (by decide) hrun).success rfl
  cases hstored

end DeepinPwCheck
