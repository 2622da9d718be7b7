import Mathlib.Data.List.Basic
import Mathlib.Data.Nat.Init

/-!
# Absorbing a text block by block

A text is absorbed into a state in blocks of one width. A text that comes in pieces leaves the
same state as the whole text, if what is left of each piece is put in front of the next one.
The blocks are collected in a buffer, which is written part by part.
-/

namespace BlockBuffer

variable {α σ : Type*}

/-- Absorb the whole blocks of the data: the state after them, and what is left. -/
def absorb (width : ℕ) (compress : σ → List α → σ) (s : σ) (data : List α) : σ × List α :=
  if 0 < width ∧ width ≤ data.length then
    absorb width compress (compress s (data.take width)) (data.drop width)
  else (s, data)
termination_by data.length
decreasing_by
  rw [List.length_drop]
  omega

section

variable {width : ℕ} {compress : σ → List α → σ}

/-- Less than a block is left as it is. The loop over the whole blocks ends here. -/
theorem absorb_of_lt (s : σ) {data : List α} (h : data.length < width) :
    absorb width compress s data = (s, data) := by
  rw [absorb, if_neg (by omega)]

/-- The first block is absorbed before the others. It is the other equation of the recursion. -/
theorem absorb_of_le (s : σ) {data : List α} (hwidth : 0 < width) (h : width ≤ data.length) :
    absorb width compress s data =
      absorb width compress (compress s (data.take width)) (data.drop width) := by
  rw [absorb, if_pos ⟨hwidth, h⟩]

/-- A text that begins with a block. A full buffer is such a text, and what follows it is absorbed
next. -/
theorem absorb_block_append (s : σ) {block : List α} (hwidth : 0 < width)
    (hblock : block.length = width) (data : List α) :
    absorb width compress s (block ++ data) = absorb width compress (compress s block) data := by
  rw [absorb_of_le s hwidth (by rw [List.length_append]; omega), ← hblock, List.take_left,
    List.drop_left]

/-- A text of one block. -/
theorem absorb_block (s : σ) {block : List α} (hwidth : 0 < width) (hblock : block.length = width) :
    absorb width compress s block = (compress s block, []) := by
  rw [← List.append_nil block, absorb_block_append s hwidth hblock, absorb_of_lt _ hwidth,
    List.append_nil]

/-- **Pieces.** Absorbing a text in two pieces. Messages that arrive in pieces are reduced to
it. -/
theorem absorb_append (hwidth : 0 < width) (s : σ) (front data : List α) :
    absorb width compress s (front ++ data) =
      absorb width compress (absorb width compress s front).1
        ((absorb width compress s front).2 ++ data) := by
  induction hn : front.length using Nat.strong_induction_on generalizing s front with
  | _ n ih =>
    rcases Nat.lt_or_ge front.length width with hshort | hlong
    · rw [absorb_of_lt s hshort]
    · rw [absorb_of_le s hwidth hlong,
        absorb_of_le s hwidth (by rw [List.length_append]; omega),
        List.take_append_of_le_length hlong, List.drop_append_of_le_length hlong]
      exact ih _ (by rw [List.length_drop]; omega) _ _ rfl

end

/-- Write data into a buffer from an offset on. -/
def overwrite (buf : List α) (offset : ℕ) (data : List α) : List α :=
  buf.take offset ++ data ++ buf.drop (offset + data.length)

section

variable {buf data : List α} {offset : ℕ}

/-- A write within the buffer keeps its length. The size of the buffer is thus an invariant. -/
theorem length_overwrite (h : offset + data.length ≤ buf.length) :
    (overwrite buf offset data).length = buf.length := by
  simp only [overwrite, List.length_append, List.length_take, List.length_drop]
  omega

/-- The front of the buffer, up to the end of what was written. The part of the buffer that counts
is the only one that is looked at. -/
theorem take_overwrite (h : offset ≤ buf.length) :
    (overwrite buf offset data).take (offset + data.length) = buf.take offset ++ data := by
  have hlength : (buf.take offset ++ data).length = offset + data.length := by
    rw [List.length_append, List.length_take_of_le h]
  rw [overwrite, ← hlength, List.take_left]

/-- A write up to the end of the buffer. It is the case in which a block becomes full. -/
theorem overwrite_to_end (h : offset + data.length = buf.length) :
    overwrite buf offset data = buf.take offset ++ data := by
  rw [overwrite, h, List.drop_length, List.append_nil]

/-- Two writes, the second behind the first. A mark and the bytes that fill up behind it are
written in this way. -/
theorem overwrite_overwrite (h : offset ≤ buf.length) (next : List α) :
    overwrite (overwrite buf offset data) (offset + data.length) next =
      overwrite buf offset (data ++ next) := by
  have hlength : (buf.take offset ++ data).length = offset + data.length := by
    rw [List.length_append, List.length_take_of_le h]
  have hdrop : (overwrite buf offset data).drop (offset + data.length) =
      buf.drop (offset + data.length) := by
    rw [overwrite, ← hlength, List.drop_left]
  have hrest : (overwrite buf offset data).drop (offset + data.length + next.length) =
      buf.drop (offset + (data ++ next).length) := by
    rw [← List.drop_drop, hdrop, List.drop_drop, List.length_append, Nat.add_assoc]
  rw [overwrite, take_overwrite h, hrest, overwrite, List.append_assoc (buf.take offset)]

/-- Two writes, the second from the end of the first to the end of the buffer. A last block that
ends with a length is written in this way. -/
theorem overwrite_overwrite_to_end {mid : ℕ} {next : List α} (hmid : offset + data.length = mid)
    (hend : mid + next.length = buf.length) :
    overwrite (overwrite buf offset data) mid next = buf.take offset ++ (data ++ next) := by
  subst hmid
  rw [overwrite_overwrite (by omega), overwrite_to_end]
  rw [List.length_append, ← hend, Nat.add_assoc]

end

end BlockBuffer
