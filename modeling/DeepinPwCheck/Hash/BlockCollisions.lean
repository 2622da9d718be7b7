import DeepinPwCheck.Hash.BlockBuffer

/-!
# Collisions of texts that are absorbed block by block

Two texts of whole blocks can leave the same state without being the same. If they have the
same number of blocks, or if their last blocks differ, then two of the inputs of the compression
that occur on the way differ and have the same output.
-/

namespace BlockBuffer

variable {α σ : Type*}

/-- The input of the compression for a block: the state after the blocks before it, and the
block. -/
def inputAt (width : ℕ) (compress : σ → List α → σ) (s : σ) (text : List α) (k : ℕ) :
    σ × List α :=
  ((absorb width compress s (text.take (width * k))).1, (text.drop (width * k)).take width)

/-- An input for each of two texts: the inputs differ, and their outputs do not. -/
def CollidesAt (width : ℕ) (compress : σ → List α → σ) (s t : σ) (x y : List α) (i j : ℕ) :
    Prop :=
  inputAt width compress s x i ≠ inputAt width compress t y j ∧
    compress (inputAt width compress s x i).1 (inputAt width compress s x i).2 =
      compress (inputAt width compress t y j).1 (inputAt width compress t y j).2

variable {width : ℕ} {compress : σ → List α → σ}

/-- The input for the first block. It has the start as its state. -/
theorem inputAt_zero (hwidth : 0 < width) (s : σ) (text : List α) :
    inputAt width compress s text 0 = (s, text.take width) := by
  rw [inputAt, Nat.mul_zero, List.take_zero, List.drop_zero, absorb_of_lt s hwidth]

/-- The inputs for the other blocks are those of the text behind the first one. The induction over
the blocks moves the start along. -/
theorem inputAt_succ (hwidth : 0 < width) (s : σ) {text : List α} (h : width ≤ text.length)
    (k : ℕ) : inputAt width compress s text (k + 1) =
      inputAt width compress (compress s (text.take width)) (text.drop width) k := by
  have hlength : width ≤ (text.take (width * (k + 1))).length := by
    rw [List.length_take, Nat.mul_succ]
    omega
  have htake : (text.take (width * (k + 1))).take width = text.take width := by
    rw [List.take_take, Nat.mul_succ, Nat.min_eq_left (by omega)]
  have hdrop : (text.take (width * (k + 1))).drop width = (text.drop width).take (width * k) := by
    rw [List.drop_take, Nat.mul_succ, Nat.add_sub_cancel]
  rw [inputAt, absorb_of_le s hwidth hlength, htake, hdrop, Nat.mul_succ, Nat.add_comm,
    ← List.drop_drop]
  rfl

/-- A text of whole blocks leaves the output for its last block. Equal states after two texts are
therefore equal outputs. -/
theorem absorb_eq_compress_inputAt (hwidth : 0 < width) (s : σ) {n : ℕ} {text : List α}
    (h : text.length = width * (n + 1)) : (absorb width compress s text).1 =
      compress (inputAt width compress s text n).1 (inputAt width compress s text n).2 := by
  induction n generalizing s text with
  | zero =>
    rw [Nat.mul_one] at h
    rw [inputAt_zero hwidth, absorb_block s hwidth h, ← h, List.take_length]
  | succ n ih =>
    have hlong : width ≤ text.length := by
      rw [h, Nat.mul_succ]
      omega
    have hrest : (text.drop width).length = width * (n + 1) := by
      rw [List.length_drop, h, Nat.mul_succ width (n + 1), Nat.add_sub_cancel]
    rw [absorb_of_le s hwidth hlong, inputAt_succ hwidth s hlong, ih _ hrest]

/-- **Texts of one length.** If two of them, or the states before them, differ and they leave
the same state, their inputs collide at one of the blocks. -/
theorem exists_collidesAt_of_length_eq (hwidth : 0 < width) {n : ℕ} {s t : σ} {x y : List α}
    (hx : x.length = width * n) (hy : y.length = width * n) (hne : (s, x) ≠ (t, y))
    (h : (absorb width compress s x).1 = (absorb width compress t y).1) :
    ∃ i < n, CollidesAt width compress s t x y i i := by
  induction n generalizing s t x y with
  | zero =>
    rw [Nat.mul_zero, List.length_eq_zero_iff] at hx hy
    subst hx hy
    rw [absorb_of_lt s hwidth, absorb_of_lt t hwidth] at h
    exact absurd (congrArg (fun s => (s, [])) h) hne
  | succ n ih =>
    have hx' : width ≤ x.length := by
      rw [hx, Nat.mul_succ]
      omega
    have hy' : width ≤ y.length := by
      rw [hy, Nat.mul_succ]
      omega
    rw [absorb_of_le s hwidth hx', absorb_of_le t hwidth hy'] at h
    by_cases hrest : (compress s (x.take width), x.drop width) =
        (compress t (y.take width), y.drop width)
    · -- the outputs for the first blocks are the same, but the blocks are not
      obtain ⟨houtput, hdrop⟩ := Prod.mk.inj hrest
      refine ⟨0, n.succ_pos, ?_, ?_⟩
      · rw [inputAt_zero hwidth, inputAt_zero hwidth]
        intro hsame
        obtain ⟨rfl, htake⟩ := Prod.mk.inj hsame
        refine hne ?_
        rw [← List.take_append_drop width x, ← List.take_append_drop width y, htake, hdrop]
      · rw [inputAt_zero hwidth, inputAt_zero hwidth]
        exact houtput
    · obtain ⟨i, hi, hcollides⟩ := ih (by rw [List.length_drop, hx, Nat.mul_succ]; omega)
        (by rw [List.length_drop, hy, Nat.mul_succ]; omega) hrest h
      refine ⟨i + 1, Nat.succ_lt_succ hi, ?_⟩
      unfold CollidesAt
      rw [inputAt_succ hwidth s hx', inputAt_succ hwidth t hy']
      exact hcollides

/-- **Texts with different last blocks.** If they leave the same state, their inputs collide at
the last blocks. -/
theorem collidesAt_last (hwidth : 0 < width) {n m : ℕ} {s t : σ} {x y : List α}
    (hx : x.length = width * (n + 1)) (hy : y.length = width * (m + 1))
    (hne : x.drop (width * n) ≠ y.drop (width * m))
    (h : (absorb width compress s x).1 = (absorb width compress t y).1) :
    CollidesAt width compress s t x y n m := by
  have hlast {k : ℕ} {text : List α} (htext : text.length = width * (k + 1)) :
      (text.drop (width * k)).take width = text.drop (width * k) := by
    refine List.take_of_length_le ?_
    rw [List.length_drop, htext, Nat.mul_succ]
    omega
  have hx' : (absorb width compress s x).1 = _ := absorb_eq_compress_inputAt hwidth s hx
  have hy' : (absorb width compress t y).1 = _ := absorb_eq_compress_inputAt hwidth t hy
  refine ⟨fun hsame => hne ?_, ?_⟩
  · have hblock := congrArg Prod.snd hsame
    dsimp only [inputAt] at hblock
    rwa [hlast hx, hlast hy] at hblock
  · rw [← hx', ← hy', h]

end BlockBuffer
