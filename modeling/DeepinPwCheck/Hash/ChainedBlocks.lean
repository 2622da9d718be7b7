import Mathlib.Data.List.Basic
import Mathlib.Data.List.Infix

/-!
# Chained blocks

A text is cut into blocks of one width, and each block is combined with what the block before
it gave. The outputs for a text begin with the outputs for a text whose blocks it begins with.
-/

namespace ChainedBlocks

variable {α β σ : Type*}

/-- The output for each block, from the output for the block before it. -/
def chain (f : β → σ → σ) : σ → List β → List σ
  | _, [] => []
  | s, b :: rest => f b s :: chain f (f b s) rest

/-- The first blocks of a text. The last of them may be shorter than the others. -/
def blocks (width : ℕ) (n : ℕ) (text : List α) : List (List α) :=
  (List.range n).map fun j => (text.drop (width * j)).take width

@[simp] theorem length_chain (f : β → σ → σ) (s : σ) (bs : List β) :
    (chain f s bs).length = bs.length := by
  induction bs generalizing s with
  | nil => rfl
  | cons b rest ih => rw [chain, List.length_cons, List.length_cons, ih]

/-- The outputs for the front of a list of blocks. More blocks only add outputs behind them. -/
theorem prefix_chain (f : β → σ → σ) (s : σ) {bs cs : List β} (h : bs <+: cs) :
    chain f s bs <+: chain f s cs := by
  induction bs generalizing s cs with
  | nil => exact List.nil_prefix
  | cons b rest ih =>
    obtain ⟨t, rfl⟩ := h
    rw [List.cons_append, chain, chain, List.cons_prefix_cons]
    exact ⟨rfl, ih (f b s) ⟨t, rfl⟩⟩

/-- Every output has a property that the first step establishes and that each step keeps. Lengths
and alphabets of outputs are such properties. -/
theorem forall_mem_chain {f : β → σ → σ} {P : σ → Prop} {s : σ} (hfirst : ∀ b, P (f b s))
    (hnext : ∀ b t, P t → P (f b t)) (bs : List β) : ∀ x ∈ chain f s bs, P x := by
  induction bs generalizing s with
  | nil => simp [chain]
  | cons b rest ih =>
    rw [chain, List.forall_mem_cons]
    exact ⟨hfirst b, ih fun c => hnext c _ (hfirst b)⟩

/-- The length of outputs of one length, joined together. It depends on the number of blocks
only. -/
theorem length_flatten_chain {f : β → List α → List α} {s : List α} {width : ℕ} {bs : List β}
    (h : ∀ x ∈ chain f s bs, x.length = width) :
    (chain f s bs).flatten.length = width * bs.length := by
  have hlengths : (chain f s bs).map List.length = List.replicate bs.length width := by
    refine List.eq_replicate_iff.mpr ⟨by simp, ?_⟩
    intro n hn
    obtain ⟨x, hx, rfl⟩ := List.mem_map.mp hn
    exact h x hx
  rw [List.length_flatten, hlengths, List.sum_replicate_nat, Nat.mul_comm]

/-- Only the first output sees the start. Starts that act alike on the first block give one
chain. -/
theorem chain_congr {f : β → σ → σ} {s t : σ} (h : ∀ b, f b s = f b t) (bs : List β) :
    chain f s bs = chain f t bs := by
  cases bs with
  | nil => rfl
  | cons b rest => rw [chain, chain, h]

@[simp] theorem length_blocks (width n : ℕ) (text : List α) :
    (blocks width n text).length = n := by
  rw [blocks, List.length_map, List.length_range]

/-- The first block, and the blocks of what follows it. A loop over the blocks follows this
equation. -/
theorem blocks_succ (width n : ℕ) (text : List α) :
    blocks width (n + 1) text = text.take width :: blocks width n (text.drop width) := by
  unfold blocks
  rw [List.range_succ_eq_map, List.map_cons, List.map_map, Nat.mul_zero, List.drop_zero]
  congr 1
  refine List.map_congr_left ?_
  intro j _
  rw [Function.comp_apply, List.drop_drop, Nat.mul_succ, Nat.add_comm]

/-- The blocks do not see what lies behind the last of them. The text can be cut there. -/
theorem blocks_take {width n m : ℕ} (h : width * n ≤ m) (text : List α) :
    blocks width n (text.take m) = blocks width n text := by
  refine List.map_congr_left ?_
  intro j hj
  have hlt := List.mem_range.mp hj
  have hend : width * j + width ≤ m := by
    rw [← Nat.mul_succ]
    exact (Nat.mul_le_mul_left width hlt).trans h
  rw [List.drop_take, List.take_take, Nat.min_eq_left (by omega)]

/-- The blocks of a text are the first blocks of every text that begins with it, as long as the
last of them is not cut short. -/
theorem prefix_blocks {width n m : ℕ} {text longer : List α} (hnm : n ≤ m)
    (hfull : width * n ≤ text.length) (h : text <+: longer) :
    blocks width n text <+: blocks width m longer := by
  have hsame : blocks width n text = blocks width n longer := by
    rw [List.prefix_iff_eq_take.mp h, blocks_take hfull]
  rw [hsame]
  unfold blocks
  rw [← Nat.add_sub_cancel' hnm, List.range_add, List.map_append]
  exact List.prefix_append _ _

end ChainedBlocks
