import DeepinPwCheck.Keyboard

/-!
# Monotone runs

`is_monotone_character` is meant to find runs: codes that rise or fall by one, and
walks along a row of the keyboard. Its counters go back to one only when a step breaks
the walk, so what it finds are streaks, which may turn, and which may begin with a key
that characters on no row separate from the next one. A walk to the left from the last
key of a row, in turn, is counted from its second key on.
-/

namespace DeepinPwCheck

open CText PairScan Streaks

/-- The steps between codes that differ by one. The counter named `increase` counts the
falling ones. -/
def CodeStep (c d : Byte) : Direction → Prop
  | .increase => toInt c = toInt d + 1
  | .decrease => toInt d = toInt c + 1

/-- The step that the first two tests of `is_monotone_character` count. -/
def codeStep (c d : Byte) : Option Direction :=
  if toInt c = toInt d + 1 then some .increase
  else if toInt c = toInt d - 1 then some .decrease
  else none

/-- A streak of codes: neighbours differ by one, and enough of the steps go one way. -/
def CodeStreak (pw : Bytes) (n : ℤ) : Prop := HasStreak CodeStep (fun _ => true) n pw

/-- A streak of keys: neighbouring keys, and enough of the steps go one way. -/
def KeyStreak (pw : Bytes) (n : ℤ) : Prop := HasStreak KeyStep onKeyboard n pw

/-- A run: the codes rise or fall by one at each step, or the characters are neighbouring
keys of a row, from left to right or from right to left. -/
def MonotoneRun (t : Bytes) : Prop :=
  t.IsChain (fun c d => toInt d = toInt c + 1) ∨ t.IsChain (fun c d => toInt c = toInt d + 1) ∨
    ∃ row ∈ keyboardCharacter, t <:+: row ∨ t.reverse <:+: row

/-- The password contains a run of `n` characters. -/
def HasRun (pw : Bytes) (n : ℤ) : Prop := ∃ t, t <:+: pw ∧ (t.length : ℤ) = n ∧ MonotoneRun t

/-- A run of which every step is counted: it is no walk to the left from the last key of a row. -/
def CountedRun (t : Bytes) : Prop :=
  t.IsChain (fun c d => toInt d = toInt c + 1) ∨ t.IsChain (fun c d => toInt c = toInt d + 1) ∨
    ∃ row ∈ keyboardCharacter, t <:+: row ∨ t.reverse <:+: row ∧ ¬t.reverse <:+ row

/-- The password contains a run of `n` characters of which every step is counted. -/
def HasCountedRun (pw : Bytes) (n : ℤ) : Prop :=
  ∃ t, t <:+: pw ∧ (t.length : ℤ) = n ∧ CountedRun t

/-- The password contains `n` keys from right to left that begin with the last one of a row. -/
def WalksFromRightEnd (pw : Bytes) (n : ℤ) : Prop :=
  ∃ t, t <:+: pw ∧ (t.length : ℤ) = n ∧ ∃ row ∈ keyboardCharacter, t.reverse <:+ row

/-- A streak that is no run: it turns, or it skips characters on no row. -/
def HasMixedStreak (pw : Bytes) (n : ℤ) : Prop :=
  ∃ key skipped rest steps,
    Streak CodeStep (fun _ => true) n pw key skipped rest steps ∧ Turns steps ∨
      Streak KeyStep onKeyboard n pw key skipped rest steps ∧ (Turns steps ∨ skipped ≠ [])

/-- The tests on the codes. The relation on codes and the tests of the source are the same. -/
theorem codeStep_eq_some_iff {c d : Byte} {x : Direction} :
    codeStep c d = some x ↔ CodeStep c d x := by
  unfold codeStep
  cases x with
  | increase => split_ifs <;> simp_all [CodeStep]
  | decrease =>
    simp only [CodeStep]
    split_ifs with hfall hrise
    · simp only [Option.some.injEq, reduceCtorEq, false_iff]
      omega
    · simp only [true_iff]
      omega
    · simp only [false_iff]
      omega

/-- The counters of the codes. -/
def MonotoneState.codes (s : MonotoneState) : Counters :=
  ⟨s.monotoneIncreaseNum, s.monotoneDecreaseNum⟩

/-- The counters of the keys, and the neighbours of the last key. -/
def MonotoneState.keys (s : MonotoneState) : Counters × Adjacent :=
  (⟨s.keyboardMonotoneIncreaseNum, s.keyboardMonotoneDecreaseNum⟩, s.adjacent)

/-- One pass of the loop as far as it concerns the keys. -/
def stepKeys (s : Counters × Adjacent) (c d : Byte) : Counters × Adjacent :=
  (s.1.count ((getAdjacentCharacter c s.2).stepTo d), getAdjacentCharacter c s.2)

/-- One pass of the loop on the counters of the codes. The counters of the codes do not depend on
those of the keys. -/
theorem MonotoneState.codes_step (s : MonotoneState) (c d : Byte) :
    (s.step c d).codes = s.codes.count (codeStep c d) := by
  unfold MonotoneState.step MonotoneState.stepKeyboard MonotoneState.stepCodes codeStep
  dsimp only
  split_ifs <;> rfl

/-- One pass of the loop on the counters of the keys. The counters of the keys do not depend on
those of the codes. -/
theorem MonotoneState.keys_step (s : MonotoneState) (c d : Byte) :
    (s.step c d).keys = stepKeys s.keys c d := by
  have hadjacent : (s.stepCodes c d).adjacent = s.adjacent := by
    unfold MonotoneState.stepCodes
    split_ifs <;> rfl
  have hincrease :
      (s.stepCodes c d).keyboardMonotoneIncreaseNum = s.keyboardMonotoneIncreaseNum := by
    unfold MonotoneState.stepCodes
    split_ifs <;> rfl
  have hdecrease :
      (s.stepCodes c d).keyboardMonotoneDecreaseNum = s.keyboardMonotoneDecreaseNum := by
    unfold MonotoneState.stepCodes
    split_ifs <;> rfl
  unfold MonotoneState.step MonotoneState.stepKeyboard MonotoneState.keys stepKeys Adjacent.stepTo
  dsimp only
  rw [hadjacent, hincrease, hdecrease]
  split_ifs <;> rfl

/-- The loop over the codes follows the steps between neighbours. The library on streaks speaks of
lists of steps. -/
theorem scanPairs_codes (n : ℤ) (s : Counters) (c : Byte) (rest : Bytes) :
    scanPairs (fun s c d => s.count (codeStep c d)) (Counters.reached n) s (c :: rest) =
      reaches n s (stepsFrom codeStep (fun _ => true) c rest) := by
  induction rest generalizing s c with
  | nil => rfl
  | cons d rest ih =>
    rw [scanPairs, stepsFrom, reaches, ih]
    rfl

/-- The loop over the keys follows the steps from the last key. A character on no row leaves the
last key in place, which is where mixed streaks come from. -/
theorem scanPairs_keys (n : ℤ) (s : Counters) (k c : Byte) (rest : Bytes) :
    scanPairs stepKeys (fun s => s.1.reached n) (s, getAdjacentCharacter k Adjacent.none)
        (c :: rest) =
      reaches n s (stepsFrom keyStep onKeyboard (if onKeyboard c then c else k) rest) := by
  induction rest generalizing s k c with
  | nil => rfl
  | cons d rest ih =>
    rw [scanPairs, stepKeys, stepsFrom, reaches, getAdjacentCharacter_getAdjacentCharacter, ih]
    rfl

/-- The loop stops for the counters of the codes or for those of the keys. The two halves of the
loop are treated apart from here on. -/
theorem monotoneLoop_eq (c : Byte) (rest : Bytes) (n : ℤ) :
    monotoneLoop (c :: rest) n =
      (reaches n Counters.start (stepsFrom codeStep (fun _ => true) c rest) ||
        reaches n Counters.start
          (stepsFrom keyStep onKeyboard (if onKeyboard c then c else 0) rest)) := by
  have hreached : MonotoneState.reached n = fun s => s.codes.reached n || s.keys.1.reached n := rfl
  have hcodes : scanPairs MonotoneState.step (fun s => s.codes.reached n) .init (c :: rest) =
      scanPairs (fun s c d => s.count (codeStep c d)) (Counters.reached n) Counters.start
        (c :: rest) :=
    scanPairs_part MonotoneState.codes MonotoneState.codes_step fun _ => rfl
  have hzero : getAdjacentCharacter 0 Adjacent.none = Adjacent.none :=
    getAdjacentCharacter_of_not_onKeyboard (by decide) _
  have hkeys : scanPairs MonotoneState.step (fun s => s.keys.1.reached n) .init (c :: rest) =
      scanPairs stepKeys (fun s => s.1.reached n)
        (Counters.start, getAdjacentCharacter 0 Adjacent.none) (c :: rest) := by
    rw [hzero]
    have hpart (s : MonotoneState) :
        s.keys.1.reached n = (fun t : Counters × Adjacent => t.1.reached n) s.keys := rfl
    exact scanPairs_part MonotoneState.keys MonotoneState.keys_step hpart
  unfold monotoneLoop
  rw [hreached, scanPairs_or, hcodes, hkeys, scanPairs_codes, scanPairs_keys]

/-- No step leads away from a character on no row. -/
theorem not_keyStep_of_not_onKeyboard {c : Byte} (hc : onKeyboard c = false) (d : Byte)
    (x : Direction) : ¬KeyStep c d x := by
  intro h
  rw [(onKeyboard_of_keyStep h).1] at hc
  exact absurd hc (by decide)

/-- **The monotone check.** The loop answers true exactly if what it reads has a streak of codes
or a streak of keys. -/
theorem monotoneLoop_iff {pw : Bytes} {n : ℤ} (hnul : 0 ∉ pw) (hn : 2 ≤ n) :
    monotoneLoop pw n = true ↔ CodeStreak pw n ∨ KeyStreak pw n := by
  cases pw with
  | nil =>
    have hnone {R : Byte → Byte → Direction → Prop} {keeps : Byte → Bool} :
        ¬HasStreak R keeps n [] := by
      rintro ⟨key, skipped, rest, steps, hinside, -⟩
      simp at hinside
    simp [monotoneLoop, scanPairs, CodeStreak, KeyStreak, hnone]
  | cons c rest =>
    have hrest (d : Byte) (hd : d ∈ rest) : d ≠ 0 := by
      rintro rfl
      exact hnul (List.mem_cons_of_mem c hd)
    have hcodes : reaches n Counters.start (stepsFrom codeStep (fun _ => true) c rest) = true ↔
        CodeStreak (c :: rest) n :=
      reaches_stepsFrom_iff (fun _ _ _ _ => ⟨rfl, rfl⟩) (fun _ _ _ _ => codeStep_eq_some_iff) hn
    have hkeys (k : Byte) : reaches n Counters.start (stepsFrom keyStep onKeyboard k rest) = true ↔
        KeyStreak (k :: rest) n :=
      reaches_stepsFrom_iff (fun _ _ _ h => onKeyboard_of_keyStep h)
        (fun _ d hd _ => keyStep_eq_some_iff (hrest d hd)) hn
    rw [monotoneLoop_eq, Bool.or_eq_true, hcodes, hkeys]
    refine or_congr Iff.rfl ?_
    unfold KeyStreak
    by_cases hc : onKeyboard c = true
    · rw [if_pos hc]
    · rw [if_neg hc, hasStreak_cons_of_forall_not hn, hasStreak_cons_of_forall_not hn]
      · exact not_keyStep_of_not_onKeyboard (by simpa using hc)
      · exact not_keyStep_of_not_onKeyboard (by decide)

instance (t : Bytes) : Decidable (MonotoneRun t) := inferInstanceAs (Decidable (_ ∨ _ ∨ _))

/-- A run is looked for at each offset. A concrete password without a run is recognised by it. -/
theorem hasRun_iff_drop_take {pw : Bytes} {n : ℤ} (hn : 0 ≤ n) :
    HasRun pw n ↔
      ∃ start : ℕ, start + n ≤ pw.length ∧ MonotoneRun ((pw.drop start).take n.toNat) := by
  constructor
  · rintro ⟨t, ⟨u, v, rfl⟩, hlength, hrun⟩
    refine ⟨u.length, ?_, ?_⟩
    · simp only [List.length_append]
      omega
    · have hn' : n.toNat = t.length := by omega
      rwa [List.append_assoc, List.drop_left, hn', List.take_left]
  · rintro ⟨start, hfits, hrun⟩
    refine ⟨_, (List.take_prefix _ _).isInfix.trans (List.drop_suffix start pw).isInfix, ?_, hrun⟩
    rw [List.length_take, List.length_drop]
    omega

/-- A streak of codes that does not turn contains a run. -/
theorem hasCountedRun_of_codeStreak {pw : Bytes} {n : ℤ} {key : Byte} {skipped rest : Bytes}
    {steps : List Direction} (hn : 2 ≤ n)
    (h : Streak CodeStep (fun _ => true) n pw key skipped rest steps) (hturns : ¬Turns steps) :
    HasCountedRun pw n := by
  obtain rfl : skipped = [] := by
    cases skipped with
    | nil => rfl
    | cons c skipped => exact absurd (h.skipped c List.mem_cons_self) (by decide)
  obtain ⟨x, t, hinside, hlength, hchain⟩ := h.exists_isChain hn hturns
  cases x with
  | increase => exact ⟨t, hinside, hlength, Or.inr (Or.inl hchain)⟩
  | decrease => exact ⟨t, hinside, hlength, Or.inl hchain⟩

/-- A streak of keys that neither turns nor skips contains a run. -/
theorem hasCountedRun_of_keyStreak {pw : Bytes} {n : ℤ} {key : Byte} {rest : Bytes}
    {steps : List Direction} (hn : 2 ≤ n)
    (h : Streak KeyStep onKeyboard n pw key [] rest steps) (hturns : ¬Turns steps) :
    HasCountedRun pw n := by
  obtain ⟨x, t, hinside, hlength, hchain⟩ := h.exists_isChain hn hturns
  have htwo : 2 ≤ t.length := by omega
  refine ⟨t, hinside, hlength, Or.inr (Or.inr ?_)⟩
  cases x with
  | increase =>
    obtain ⟨row, hrow, hpiece⟩ := exists_row_of_isChain htwo hchain
    exact ⟨row, hrow, Or.inl hpiece⟩
  | decrease =>
    have hreverse : t.reverse.IsChain RightOf :=
      List.isChain_reverse.mpr (hchain.imp fun _ _ hstep => hstep.1)
    obtain ⟨row, hrow, hpiece⟩ := exists_row_of_isChain (by simpa using htwo) hreverse
    refine ⟨row, hrow, Or.inr ⟨hpiece, ?_⟩⟩
    -- the first step would begin at the last key of the row
    rintro ⟨u, hu⟩
    rcases t with _ | ⟨c, _ | ⟨d, t⟩⟩
    · simp at htwo
    · simp at htwo
    · refine (List.isChain_cons_cons.mp hchain).1.2 ⟨row, hrow, ?_⟩
      rw [← hu]
      simp

/-- Keys from right to left are counted at each step if they leave out the end of their row. That
key has no right neighbour, and the source tests for one first. -/
theorem isChain_keyStep_of_reverse {t row : Bytes} (hrow : row ∈ keyboardCharacter)
    (hpiece : t.reverse <:+: row) (hend : ¬t.reverse <:+ row) :
    t.IsChain fun c d => KeyStep c d .decrease := by
  have hright : t.IsChain fun c d => RightOf d c :=
    List.isChain_reverse.mp (isChain_rightOf hrow hpiece)
  obtain ⟨u, v, huv⟩ := hpiece
  have hv : v ≠ [] := by
    rintro rfl
    exact hend ⟨u, by simpa using huv⟩
  refine hright.imp_of_mem_imp fun c d hc _ hstep => ⟨hstep, ?_⟩
  obtain ⟨p, q, hpq⟩ := List.append_of_mem (List.mem_reverse.mpr hc)
  have hrow' : (u ++ p) ++ c :: (q ++ v) ∈ keyboardCharacter := by
    rw [← huv, hpq] at hrow
    simpa using hrow
  rw [rightEnd_iff hrow']
  simp [hv]

/-- A run whose every step is counted is a streak. The loop reports it in any case. -/
theorem streak_of_hasCountedRun {pw : Bytes} {n : ℤ} (hn : 2 ≤ n) (h : HasCountedRun pw n) :
    CodeStreak pw n ∨ KeyStreak pw n := by
  obtain ⟨t, hinside, hlength, hrise | hfall | ⟨row, hrow, hpiece | ⟨hpiece, hend⟩⟩⟩ := h
  · exact Or.inl (hasStreak_of_isChain (x := .decrease) hn hinside hlength hrise)
  · exact Or.inl (hasStreak_of_isChain (x := .increase) hn hinside hlength hfall)
  · have hchain : t.IsChain fun c d => KeyStep c d .increase := isChain_rightOf hrow hpiece
    exact Or.inr (hasStreak_of_isChain hn hinside hlength hchain)
  · have hchain := isChain_keyStep_of_reverse hrow hpiece hend
    exact Or.inr (hasStreak_of_isChain hn hinside hlength hchain)

/-- What the loop reports is a run of which every step is counted, or a mixed streak. -/
theorem monotoneLoop_iff_run {pw : Bytes} {n : ℤ} (hnul : 0 ∉ pw) (hn : 2 ≤ n) :
    monotoneLoop pw n = true ↔ HasCountedRun pw n ∨ HasMixedStreak pw n := by
  rw [monotoneLoop_iff hnul hn]
  constructor
  · rintro (⟨key, skipped, rest, steps, hstreak⟩ | ⟨key, skipped, rest, steps, hstreak⟩)
    · by_cases hturns : Turns steps
      · exact Or.inr ⟨key, skipped, rest, steps, Or.inl ⟨hstreak, hturns⟩⟩
      · exact Or.inl (hasCountedRun_of_codeStreak hn hstreak hturns)
    · by_cases hturns : Turns steps
      · exact Or.inr ⟨key, skipped, rest, steps, Or.inr ⟨hstreak, Or.inl hturns⟩⟩
      · by_cases hskipped : skipped = []
        · subst hskipped
          exact Or.inl (hasCountedRun_of_keyStreak hn hstreak hturns)
        · exact Or.inr ⟨key, skipped, rest, steps, Or.inr ⟨hstreak, Or.inr hskipped⟩⟩
  · rintro (hrun | ⟨key, skipped, rest, steps, ⟨hstreak, -⟩ | ⟨hstreak, -⟩⟩)
    · exact streak_of_hasCountedRun hn hrun
    · exact Or.inl ⟨key, skipped, rest, steps, hstreak⟩
    · exact Or.inr ⟨key, skipped, rest, steps, hstreak⟩

/-- A run either has only counted steps or goes to the left from the last key of a row. Only the
second kind can be missed. -/
theorem hasRun_iff {pw : Bytes} {n : ℤ} :
    HasRun pw n ↔ HasCountedRun pw n ∨ WalksFromRightEnd pw n := by
  constructor
  · rintro ⟨t, hinside, hlength, hrise | hfall | ⟨row, hrow, hpiece | hpiece⟩⟩
    · exact Or.inl ⟨t, hinside, hlength, Or.inl hrise⟩
    · exact Or.inl ⟨t, hinside, hlength, Or.inr (Or.inl hfall)⟩
    · exact Or.inl ⟨t, hinside, hlength, Or.inr (Or.inr ⟨row, hrow, Or.inl hpiece⟩)⟩
    · by_cases hend : t.reverse <:+ row
      · exact Or.inr ⟨t, hinside, hlength, row, hrow, hend⟩
      · exact Or.inl ⟨t, hinside, hlength, Or.inr (Or.inr ⟨row, hrow, Or.inr ⟨hpiece, hend⟩⟩)⟩
  · rintro (⟨t, hinside, hlength, hrise | hfall | ⟨row, hrow, hpiece⟩⟩ |
      ⟨t, hinside, hlength, row, hrow, hend⟩)
    · exact ⟨t, hinside, hlength, Or.inl hrise⟩
    · exact ⟨t, hinside, hlength, Or.inr (Or.inl hfall)⟩
    · exact ⟨t, hinside, hlength, Or.inr (Or.inr ⟨row, hrow, hpiece.imp id And.left⟩)⟩
    · exact ⟨t, hinside, hlength, Or.inr (Or.inr ⟨row, hrow, Or.inr hend.isInfix⟩)⟩

/-- What the check reports is a run of which every step is counted, or a mixed streak, among the
bytes that it reads. -/
theorem isMonotoneCharacter_iff {pw : Bytes} {n : ℤ} (hnul : 0 ∉ pw) (hn : 2 ≤ n) :
    isMonotoneCharacter pw n = true ↔
      HasCountedRun (seenPairs pw) n ∨ HasMixedStreak (seenPairs pw) n :=
  monotoneLoop_iff_run (fun hmem => hnul ((seenPairs_initial pw).subset hmem)) hn

/-- A run in the bytes that the check reads is a run in the password. What the loop reports is
never invented by the cut. -/
theorem HasRun.of_seenPairs {pw : Bytes} {n : ℤ} (h : HasRun (seenPairs pw) n) : HasRun pw n := by
  obtain ⟨t, hinside, hrun⟩ := h
  exact ⟨t, hinside.trans (seenPairs_initial pw).isInfix, hrun⟩

/-- **No false positives.** What the check reports is a run, except for streaks that turn or
that skip characters on no row, among the bytes that the check reads of a password without a
run. -/
theorem isMonotoneCharacter_sound_iff {pw : Bytes} {n : ℤ} (hnul : 0 ∉ pw) (hn : 2 ≤ n) :
    (isMonotoneCharacter pw n = true → HasRun pw n) ↔
      (HasMixedStreak (seenPairs pw) n → HasRun pw n) := by
  rw [isMonotoneCharacter_iff hnul hn]
  constructor
  · intro hsound hmixed
    exact hsound (Or.inr hmixed)
  · rintro hmixed (hrun | hstreak)
    · exact (hasRun_iff.mpr (Or.inl hrun)).of_seenPairs
    · exact hmixed hstreak

/-- The equivalence for `xabcx`, which has a run of three letters. -/
theorem isMonotoneCharacter_sound_iff_xabcx :
    (isMonotoneCharacter (bytes "xabcx") 3 = true → HasRun (bytes "xabcx") 3) ↔
      (HasMixedStreak (seenPairs (bytes "xabcx")) 3 → HasRun (bytes "xabcx") 3) :=
  isMonotoneCharacter_sound_iff (by decide) (by decide)

private theorem not_hasRun_abab : ¬HasRun (bytes "abab") 3 := by
  rw [hasRun_iff_drop_take (by decide)]
  rintro ⟨start, hfits, hrun⟩
  have hlength : (bytes "abab").length = 4 := rfl
  rcases (by omega : start = 0 ∨ start = 1) with rfl | rfl
  · exact absurd hrun (by decide)
  · exact absurd hrun (by decide)

/-- In `abab` the letters rise and fall in turn, and two rises are counted as a run of three. -/
theorem isMonotoneCharacter_reports_zigzag :
    ¬∀ (pw : Bytes) (n : ℤ), 0 ∉ pw → 2 ≤ n → isMonotoneCharacter pw n = true → HasRun pw n := by
  intro h
  have hreported : isMonotoneCharacter (bytes "abab") 3 = true := by decide
  exact not_hasRun_abab (h (bytes "abab") 3 (by decide) (by decide) hreported)

/-- **No missed runs.** A run is reported, except in two cases: the bytes that the check reads
have neither a run nor a mixed streak, which asks for a password too long for an `int`, or they
have a walk to the left from the last key of a row, no other run and no mixed streak. -/
theorem isMonotoneCharacter_complete_iff {pw : Bytes} {n : ℤ} (hnul : 0 ∉ pw) (hn : 2 ≤ n) :
    (HasRun pw n → isMonotoneCharacter pw n = true) ↔
      (HasRun pw n → HasRun (seenPairs pw) n ∨ HasMixedStreak (seenPairs pw) n) ∧
        (WalksFromRightEnd (seenPairs pw) n →
          HasCountedRun (seenPairs pw) n ∨ HasMixedStreak (seenPairs pw) n) := by
  rw [isMonotoneCharacter_iff hnul hn]
  constructor
  · intro hcomplete
    refine ⟨?_, ?_⟩
    · intro hrun
      exact (hcomplete hrun).imp_left fun hcounted => hasRun_iff.mpr (Or.inl hcounted)
    · intro hwalk
      exact hcomplete (hasRun_iff.mpr (Or.inr hwalk)).of_seenPairs
  · rintro ⟨hread, hwalk⟩ hrun
    rcases hread hrun with hread | hmixed
    · rcases hasRun_iff.mp hread with hcounted | hend
      · exact Or.inl hcounted
      · exact hwalk hend
    · exact Or.inr hmixed

/-- The equivalence for `lkj`, a walk to the left inside a row. -/
theorem isMonotoneCharacter_complete_iff_lkj :
    (HasRun (bytes "lkj") 3 → isMonotoneCharacter (bytes "lkj") 3 = true) ↔
      (HasRun (bytes "lkj") 3 →
          HasRun (seenPairs (bytes "lkj")) 3 ∨ HasMixedStreak (seenPairs (bytes "lkj")) 3) ∧
        (WalksFromRightEnd (seenPairs (bytes "lkj")) 3 →
          HasCountedRun (seenPairs (bytes "lkj")) 3 ∨
            HasMixedStreak (seenPairs (bytes "lkj")) 3) :=
  isMonotoneCharacter_complete_iff (by decide) (by decide)

/-- The walk `+_)` from the end of the first row is not reported: its first step is not counted. -/
theorem isMonotoneCharacter_misses_rightEnd :
    ¬∀ (pw : Bytes) (n : ℤ), 0 ∉ pw → 2 ≤ n → HasRun pw n → isMonotoneCharacter pw n = true := by
  intro h
  have hrun : HasRun (bytes "+_)") 3 :=
    ⟨bytes "+_)", List.infix_rfl, by decide, by decide⟩
  have hreported := h (bytes "+_)") 3 (by decide) (by decide) hrun
  have hmissed : isMonotoneCharacter (bytes "+_)") 3 = false := by decide
  rw [hmissed] at hreported
  exact absurd hreported (by decide)

/-- A key whose neighbour comes only after characters on no row: the password goes on with
such characters, and then with steps between keys that count from `c` on. -/
def LeaksInto (c : Byte) (pw : Bytes) (n : ℤ) : Prop :=
  ∃ skipped rest steps, skipped ≠ [] ∧ skipped ++ rest <+: pw ∧
    (∀ e ∈ skipped, onKeyboard e = false) ∧ Walk KeyStep c rest steps ∧
      Enough n Counters.start steps

/-- A character before a break changes the answer only by leaking into the password. -/
theorem monotoneLoop_cons_iff {c d : Byte} {rest : Bytes} {n : ℤ}
    (hnul : 0 ∉ c :: d :: rest) (hn : 2 ≤ n) (habove : toInt c ≠ toInt d + 1)
    (hbelow : toInt c ≠ toInt d - 1) (hright : ¬RightOf d c) (hleft : ¬RightOf c d) :
    monotoneLoop (c :: d :: rest) n = true ↔
      monotoneLoop (d :: rest) n = true ∨ LeaksInto c (d :: rest) n := by
  have hnul' : 0 ∉ d :: rest := fun h => hnul (List.mem_cons_of_mem c h)
  have hcode (x : Direction) : ¬CodeStep c d x := by
    cases x with
    | increase => exact habove
    | decrease =>
      simp only [CodeStep]
      omega
  have hkey (x : Direction) : ¬KeyStep c d x := by
    cases x with
    | increase => exact hleft
    | decrease => exact fun h => hright h.1
  have hcodes : CodeStreak (c :: d :: rest) n ↔ CodeStreak (d :: rest) n := by
    unfold CodeStreak
    rw [hasStreak_cons_cons_iff hn hcode]
    refine ⟨?_, Or.inl⟩
    rintro (h | ⟨skipped, -, -, hne, -, hskipped, -⟩)
    · exact h
    · obtain ⟨e, skipped, rfl⟩ := List.exists_cons_of_ne_nil hne
      exact absurd (hskipped e List.mem_cons_self) (by decide)
  have hkeys : KeyStreak (c :: d :: rest) n ↔
      KeyStreak (d :: rest) n ∨ LeaksInto c (d :: rest) n := hasStreak_cons_cons_iff hn hkey
  rw [monotoneLoop_iff hnul hn, monotoneLoop_iff hnul' hn, hcodes, hkeys, or_assoc]

/-- One more byte in front: the loop reads it and what it read before, or nothing before and
after, unless the length arrives at `2 ^ 31` and the loop stops reading. -/
theorem seenPairs_cons (c : Byte) (s : Bytes) :
    (0 ≤ intLength s → seenPairs (c :: s) = c :: seenPairs s) ∧
      (intLength s < 0 → seenPairs (c :: s) = []) ∧
      (intLength s < 0 → intLength s ≠ -2 ^ 31 → seenPairs s = []) := by
  obtain ⟨k, hk⟩ := exists_intLength_eq s
  obtain ⟨hlow, hhigh⟩ := intLength_bounds s
  have hnext : (intLength (c :: s) - 1).bmod (2 ^ 32) = intLength s := by
    unfold intLength
    rw [List.length_cons, Int.bmod_sub_bmod, Nat.cast_succ, add_sub_cancel_right]
  have hbefore (hmin : intLength s ≠ -2 ^ 31) :
      (intLength s - 1).bmod (2 ^ 32) = intLength s - 1 :=
    Int.bmod_eq_of_le (by omega) (by omega)
  unfold seenPairs
  rw [hnext]
  refine ⟨?_, ?_, ?_⟩
  · intro hnonneg
    have hone : (intLength s + 1).toNat = (intLength s).toNat + 1 := by omega
    rw [hbefore (by omega), sub_add_cancel, hone, List.take_succ_cons]
  · intro hneg
    rw [Int.toNat_of_nonpos (by omega), List.take_zero]
  · intro hneg hmin
    rw [hbefore hmin, Int.toNat_of_nonpos (by omega), List.take_zero]

/-- **No memory across a break.** A character before a break does not change the answer, except
for a key that leaks into a password which is not reported by itself, and for a password that is
reported and whose length is as great as that of an `int` can be, plus one: with the character
in front the loop does not run. -/
theorem isMonotoneCharacter_break_iff {c d : Byte} {rest : Bytes} {n : ℤ}
    (hnul : 0 ∉ c :: d :: rest) (hn : 2 ≤ n) (habove : toInt c ≠ toInt d + 1)
    (hbelow : toInt c ≠ toInt d - 1) (hright : ¬RightOf d c) (hleft : ¬RightOf c d) :
    isMonotoneCharacter (c :: d :: rest) n = isMonotoneCharacter (d :: rest) n ↔
      if intLength (d :: rest) = -2 ^ 31 then
        ¬(HasCountedRun (seenPairs (d :: rest)) n ∨ HasMixedStreak (seenPairs (d :: rest)) n)
      else
        LeaksInto c (seenPairs (d :: rest)) n →
          HasCountedRun (seenPairs (d :: rest)) n ∨ HasMixedStreak (seenPairs (d :: rest)) n := by
  have hnul' : 0 ∉ d :: rest := fun h => hnul (List.mem_cons_of_mem c h)
  obtain ⟨hboth, hfirst, hsecond⟩ := seenPairs_cons c (d :: rest)
  rw [← isMonotoneCharacter_iff hnul' hn]
  unfold isMonotoneCharacter
  split_ifs with hmin
  · rw [hfirst (by omega), Bool.not_eq_true]
    exact eq_comm
  · rcases lt_or_ge (intLength (d :: rest)) 0 with hneg | hnonneg
    · -- neither password is read
      rw [hfirst hneg, hsecond hneg hmin]
      simp only [true_iff]
      rintro ⟨skipped, after, -, hne, hfront, -⟩
      have hnil := List.append_eq_nil_iff.mp (List.prefix_nil.mp hfront)
      exact absurd hnil.1 hne
    · rw [hboth hnonneg]
      rcases hread : seenPairs (d :: rest) with _ | ⟨e, tail⟩
      · simp only [monotoneLoop, scanPairs, true_iff]
        rintro ⟨skipped, after, -, hne, hfront, -⟩
        have hnil := List.append_eq_nil_iff.mp (List.prefix_nil.mp hfront)
        exact absurd hnil.1 hne
      · obtain ⟨left, hsplit⟩ := seenPairs_initial (d :: rest)
        rw [hread, List.cons_append, List.cons.injEq] at hsplit
        obtain ⟨rfl, hsplit⟩ := hsplit
        have hnul'' : 0 ∉ c :: e :: tail := by
          intro hmem
          refine hnul ?_
          rw [← hsplit, ← List.cons_append, ← List.cons_append]
          exact List.mem_append_left _ hmem
        rw [Bool.eq_iff_iff, monotoneLoop_cons_iff hnul'' hn habove hbelow hright hleft]
        constructor
        · intro hsame hleak
          exact hsame.mp (Or.inr hleak)
        · intro hleak
          refine ⟨?_, Or.inl⟩
          rintro (hreported | hleaks)
          · exact hreported
          · exact hleak hleaks

/-- The equivalence for `x` before `abc`. -/
theorem isMonotoneCharacter_break_iff_xabc :
    isMonotoneCharacter (bytes "xabc") 3 = isMonotoneCharacter (bytes "abc") 3 ↔
      if intLength (bytes "abc") = -2 ^ 31 then
        ¬(HasCountedRun (seenPairs (bytes "abc")) 3 ∨ HasMixedStreak (seenPairs (bytes "abc")) 3)
      else
        LeaksInto 120 (seenPairs (bytes "abc")) 3 →
          HasCountedRun (seenPairs (bytes "abc")) 3 ∨ HasMixedStreak (seenPairs (bytes "abc")) 3 :=
  isMonotoneCharacter_break_iff (by decide) (by decide) (by decide) (by decide)
    (by decide) (by decide)

/-- The key `a` is remembered over the digit: with it `5s` is a streak of two keys. -/
theorem isMonotoneCharacter_break_leaks :
    ¬∀ (c d : Byte) (rest : Bytes) (n : ℤ), 0 ∉ c :: d :: rest → 2 ≤ n →
      toInt c ≠ toInt d + 1 → toInt c ≠ toInt d - 1 → ¬RightOf d c → ¬RightOf c d →
        isMonotoneCharacter (c :: d :: rest) n = isMonotoneCharacter (d :: rest) n := by
  intro h
  have hsame := h 97 53 (bytes "s") 2 (by decide) (by decide) (by decide) (by decide)
    (by decide) (by decide)
  exact absurd hsame (by decide)

end DeepinPwCheck
