import DeepinPwCheck.Text.IntLength
import DeepinPwCheck.Loops.Repeats

/-!
# Monotone and repeated characters

The two rules that count runs of neighbouring characters: codes that rise or fall
by one, walks along a row of the keyboard, and equal characters. Both loops return
as soon as a counter reaches the threshold. They run while `i < length - 1`, where `length` is an
`int`, so of a password beyond the range of that type they read a front part or nothing.
-/

namespace DeepinPwCheck

open CText PairScan

/-- `keyboard_character`: the rows of the keyboard, shifted and plain. -/
def keyboardCharacter : List Bytes :=
  [bytes "!@#$%^&*()_+",
   bytes "QWERTYUIOP\x7b\x7d",
   bytes "ASDFGHJKL:\"|",
   bytes "ZXCVBNM<>?",
   bytes "qwertyuiop[]",
   bytes "asdfghjkl;'\\",
   bytes "zxcvbnm,./"]

/-- The neighbours that `get_adjacent_character` writes through its pointers. -/
structure Adjacent where
  /-- The key to the right, or 0 at the end of a row. -/
  next : Byte
  /-- The key to the left, or 0 at the start of a row. -/
  last : Byte
  deriving DecidableEq

/-- `get_adjacent_character`: the neighbours of the first occurrence of the
character. A character on no row leaves both outputs as they were. -/
def getAdjacentCharacter (c : Byte) (adjacent : Adjacent) : Adjacent :=
  match keyboardCharacter.find? (c ∈ ·) with
  | none => adjacent
  | some row =>
      let j := row.idxOf c
      { last := if 0 < j then (row[j - 1]?).getD 0 else 0
        next := if j < row.length - 1 then (row[j + 1]?).getD 0 else 0 }

/-- The local variables of `is_monotone_character` at the top of its loop. -/
structure MonotoneState where
  monotoneIncreaseNum : ℤ
  monotoneDecreaseNum : ℤ
  keyboardMonotoneIncreaseNum : ℤ
  keyboardMonotoneDecreaseNum : ℤ
  adjacent : Adjacent

/-- The first half of the loop body: the character codes. -/
def MonotoneState.stepCodes (s : MonotoneState) (c d : Byte) : MonotoneState :=
  if toInt c = toInt d + 1 then
    { s with monotoneIncreaseNum := s.monotoneIncreaseNum + 1 }
  else if toInt c = toInt d - 1 then
    { s with monotoneDecreaseNum := s.monotoneDecreaseNum + 1 }
  else
    { s with monotoneDecreaseNum := 1, monotoneIncreaseNum := 1 }

/-- The second half of the loop body: the keyboard. Both tests ask for a right
neighbour. -/
def MonotoneState.stepKeyboard (s : MonotoneState) (c d : Byte) : MonotoneState :=
  let adjacent := getAdjacentCharacter c s.adjacent
  let s := { s with adjacent }
  if adjacent.next ≠ 0 ∧ d = adjacent.next then
    { s with keyboardMonotoneIncreaseNum := s.keyboardMonotoneIncreaseNum + 1 }
  else if adjacent.next ≠ 0 ∧ d = adjacent.last then
    { s with keyboardMonotoneDecreaseNum := s.keyboardMonotoneDecreaseNum + 1 }
  else
    { s with keyboardMonotoneIncreaseNum := 1, keyboardMonotoneDecreaseNum := 1 }

/-- One pass of the loop, for the characters `pw[i]` and `pw[i + 1]`. -/
def MonotoneState.step (s : MonotoneState) (c d : Byte) : MonotoneState :=
  (s.stepCodes c d).stepKeyboard c d

/-- The two tests at the end of the loop body. -/
def MonotoneState.reached (monotoneNum : ℤ) (s : MonotoneState) : Bool :=
  decide (s.monotoneIncreaseNum ≥ monotoneNum ∨ s.monotoneDecreaseNum ≥ monotoneNum) ||
    decide (s.keyboardMonotoneIncreaseNum ≥ monotoneNum ∨
      s.keyboardMonotoneDecreaseNum ≥ monotoneNum)

/-- The local variables before the loop. -/
def MonotoneState.init : MonotoneState := ⟨1, 1, 1, 1, ⟨0, 0⟩⟩

/-- The loop of `is_monotone_character` over the bytes that it reads. -/
def monotoneLoop (read : Bytes) (monotoneNum : ℤ) : Bool :=
  scanPairs MonotoneState.step (MonotoneState.reached monotoneNum) MonotoneState.init read

/-- `is_monotone_character`. -/
def isMonotoneCharacter (pw : Bytes) (monotoneNum : ℤ) : Bool :=
  monotoneLoop (seenPairs pw) monotoneNum

/-- The loop of `is_consecutive_same_character` over the bytes that it reads. -/
def consecutiveLoop (read : Bytes) (consecutiveNum : ℤ) : Bool :=
  scanPairs (fun consecutiveSameNum c d => if c = d then consecutiveSameNum + 1 else 1)
    (fun consecutiveSameNum : ℤ => decide (consecutiveSameNum ≥ consecutiveNum)) 1 read

/-- `is_consecutive_same_character`. -/
def isConsecutiveSameCharacter (pw : Bytes) (consecutiveNum : ℤ) : Bool :=
  consecutiveLoop (seenPairs pw) consecutiveNum

/-- A password that reaches a threshold of the monotone check reaches every lower one. -/
theorem isMonotoneCharacter_mono {pw : Bytes} {low high : ℤ} (hle : low ≤ high)
    (h : isMonotoneCharacter pw high = true) : isMonotoneCharacter pw low = true := by
  unfold isMonotoneCharacter monotoneLoop at *
  refine scanPairs_mono (fun s hs => ?_) h
  simp only [MonotoneState.reached, Bool.or_eq_true, decide_eq_true_eq] at hs ⊢
  omega

/-- A password that reaches a threshold of the repetition check reaches every lower one. -/
theorem isConsecutiveSameCharacter_mono {pw : Bytes} {low high : ℤ} (hle : low ≤ high)
    (h : isConsecutiveSameCharacter pw high = true) :
    isConsecutiveSameCharacter pw low = true := by
  unfold isConsecutiveSameCharacter consecutiveLoop at *
  refine scanPairs_mono (fun s hs => ?_) h
  simp only [decide_eq_true_eq] at hs ⊢
  omega

/-- The loop asks for two characters and for some character that stands as often in a row as the
configuration asks, among those that it reads. -/
theorem consecutiveLoop_iff {read : Bytes} {consecutiveNum : ℤ} (hnum : 1 ≤ consecutiveNum) :
    consecutiveLoop read consecutiveNum = true ↔
      2 ≤ read.length ∧ HasRepeat consecutiveNum.toNat read := by
  have hnat : ((consecutiveNum.toNat : ℕ) : ℤ) = consecutiveNum := by omega
  have hscan : consecutiveLoop read consecutiveNum =
      scanPairs countRepeat (repeatReached consecutiveNum.toNat) 1 read := by
    rw [hnat]
    rfl
  rw [hscan]
  rcases Nat.lt_or_ge read.length 2 with hshort | hlong
  · rw [scanPairs_of_length_lt hshort]
    simp only [Bool.false_eq_true, false_iff]
    omega
  · rw [scanPairs_countRepeat_start_iff (by omega) hlong, and_iff_right hlong]

/-- **The repetition check.** On a password of at least two characters it answers as it should
exactly if the repetition of a password that has one lies in the bytes that the loop reads. A
password that is not too long for an `int` is read whole. -/
theorem isConsecutiveSameCharacter_correct_iff {pw : Bytes} {consecutiveNum : ℤ}
    (hpw : 2 ≤ pw.length) (hnum : 1 ≤ consecutiveNum) :
    ((isConsecutiveSameCharacter pw consecutiveNum = true ↔ HasRepeat consecutiveNum.toNat pw) ↔
        (HasRepeat consecutiveNum.toNat pw →
          2 ≤ (seenPairs pw).length ∧ HasRepeat consecutiveNum.toNat (seenPairs pw))) ∧
      (pw.length < 2 ^ 31 →
        (isConsecutiveSameCharacter pw consecutiveNum = true ↔
          HasRepeat consecutiveNum.toNat pw)) := by
  unfold isConsecutiveSameCharacter
  rw [consecutiveLoop_iff hnum]
  have hinside (hrepeat : HasRepeat consecutiveNum.toNat (seenPairs pw)) :
      HasRepeat consecutiveNum.toNat pw := by
    obtain ⟨c, hrun⟩ := hrepeat
    exact ⟨c, hrun.trans (seenPairs_initial pw).isInfix⟩
  refine ⟨⟨Iff.mpr, fun hread => ⟨fun h => hinside h.2, hread⟩⟩, ?_⟩
  intro hint
  rw [seenPairs_of_lt hint, and_iff_right hpw]

/-- The run of `xabbb` that ends with the last character counts. -/
theorem isConsecutiveSameCharacter_correct_iff_xabbb :
    ((isConsecutiveSameCharacter (bytes "xabbb") 3 = true ↔ HasRepeat 3 (bytes "xabbb")) ↔
        (HasRepeat 3 (bytes "xabbb") →
          2 ≤ (seenPairs (bytes "xabbb")).length ∧ HasRepeat 3 (seenPairs (bytes "xabbb")))) ∧
      ((bytes "xabbb").length < 2 ^ 31 →
        (isConsecutiveSameCharacter (bytes "xabbb") 3 = true ↔ HasRepeat 3 (bytes "xabbb"))) :=
  isConsecutiveSameCharacter_correct_iff (by decide) (by decide)

/-- Of `2 ^ 31 + 1` equal characters the loop reads none: the length is negative as an `int`. -/
theorem isConsecutiveSameCharacter_misses_long :
    ¬∀ (pw : Bytes) (consecutiveNum : ℤ), 0 ∉ pw → 2 ≤ pw.length → 1 ≤ consecutiveNum →
      (isConsecutiveSameCharacter pw consecutiveNum = true ↔
        HasRepeat consecutiveNum.toNat pw) := by
  intro h
  obtain ⟨pw, hpw⟩ : ∃ pw, pw = List.replicate (2 ^ 31 + 1) (97 : Byte) := ⟨_, rfl⟩
  have hlength : pw.length = 2 ^ 31 + 1 := by rw [hpw, List.length_replicate]
  have hnul : (0 : Byte) ∉ pw := by
    rw [hpw]
    intro hmem
    exact absurd (List.eq_of_mem_replicate hmem) (by decide)
  have hread : seenPairs pw = [] := seenPairs_of_lt_of_lt (by omega) (by omega)
  have hrepeat : HasRepeat 3 pw := by
    rw [hpw]
    have hsum : 3 + (2 ^ 31 - 2) = 2 ^ 31 + 1 := by norm_num
    refine ⟨97, [], List.replicate (2 ^ 31 - 2) 97, ?_⟩
    rw [List.nil_append, ← hsum, List.replicate_add]
  have hfound := (h pw 3 hnul (by omega) (by decide)).mpr hrepeat
  unfold isConsecutiveSameCharacter at hfound
  rw [hread, consecutiveLoop_iff (by decide)] at hfound
  exact absurd hfound.1 (by decide)

end DeepinPwCheck
