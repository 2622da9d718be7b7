import DeepinPwCheck.Hash.BlockBuffer
import DeepinPwCheck.Hash.Md5Crypt

/-!
# MD5

The contexts of `md5.c`. `MD5Update` collects the bytes of a message in a buffer of 64 bytes
and transforms the state whenever that is full, and `MD5Final` pads the message. A context
holds a message if it is what the message leaves, in whatever pieces it came; its digest is
then the digest of the whole message.
-/

namespace DeepinPwCheck

open CText BlockBuffer

/-- The four words that MD5 works on. -/
structure Md5Words where
  a : UInt32
  b : UInt32
  c : UInt32
  d : UInt32
  deriving DecidableEq

/-- `struct MD5Context`. -/
structure Md5Context where
  buf : Md5Words
  bits0 : UInt32
  bits1 : UInt32
  inBuf : Bytes

/-- The bytes of a word, the lowest first. -/
def wordBytes (w : UInt32) : Bytes :=
  [w.toUInt8, (w >>> 8).toUInt8, (w >>> 16).toUInt8, (w >>> 24).toUInt8]

/-- The word with a number in a block. -/
def wordAt (block : Bytes) (k : ℕ) : UInt32 :=
  let byte i := ((block[4 * k + i]?).getD 0).toUInt32
  byte 0 ||| byte 1 <<< 8 ||| byte 2 <<< 16 ||| byte 3 <<< 24

/-- `F1`. -/
def f1 (x y z : UInt32) : UInt32 := z ^^^ (x &&& (y ^^^ z))
/-- `F2`. -/
def f2 (x y z : UInt32) : UInt32 := f1 z x y
/-- `F3`. -/
def f3 (x y z : UInt32) : UInt32 := x ^^^ y ^^^ z
/-- `F4`. -/
def f4 (x y z : UInt32) : UInt32 := y ^^^ (x ||| ~~~z)

/-- `MD5STEP`: the new value of `w`. -/
def md5Step (f : UInt32 → UInt32 → UInt32 → UInt32) (w x y z data s : UInt32) : UInt32 :=
  let w := w + (f x y z + data)
  (w <<< s ||| w >>> (32 - s)) + x

/-- Steps of one function: the word of the block, the constant that is added to it, and the
rotation. Each step changes the word that the step before it read last. -/
def md5Round (f : UInt32 → UInt32 → UInt32 → UInt32) (block : Bytes)
    (steps : List (ℕ × UInt32 × UInt32)) (words : Md5Words) : Md5Words :=
  steps.foldl (fun words step =>
    ⟨words.d, md5Step f words.a words.b words.c words.d (wordAt block step.1 + step.2.1) step.2.2,
      words.b, words.c⟩) words

/-- The steps with `F1`. -/
def md5Steps1 : List (ℕ × UInt32 × UInt32) :=
  [(0, 0xd76aa478, 7), (1, 0xe8c7b756, 12), (2, 0x242070db, 17), (3, 0xc1bdceee, 22),
    (4, 0xf57c0faf, 7), (5, 0x4787c62a, 12), (6, 0xa8304613, 17), (7, 0xfd469501, 22),
    (8, 0x698098d8, 7), (9, 0x8b44f7af, 12), (10, 0xffff5bb1, 17), (11, 0x895cd7be, 22),
    (12, 0x6b901122, 7), (13, 0xfd987193, 12), (14, 0xa679438e, 17), (15, 0x49b40821, 22)]

/-- The steps with `F2`. -/
def md5Steps2 : List (ℕ × UInt32 × UInt32) :=
  [(1, 0xf61e2562, 5), (6, 0xc040b340, 9), (11, 0x265e5a51, 14), (0, 0xe9b6c7aa, 20),
    (5, 0xd62f105d, 5), (10, 0x02441453, 9), (15, 0xd8a1e681, 14), (4, 0xe7d3fbc8, 20),
    (9, 0x21e1cde6, 5), (14, 0xc33707d6, 9), (3, 0xf4d50d87, 14), (8, 0x455a14ed, 20),
    (13, 0xa9e3e905, 5), (2, 0xfcefa3f8, 9), (7, 0x676f02d9, 14), (12, 0x8d2a4c8a, 20)]

/-- The steps with `F3`. -/
def md5Steps3 : List (ℕ × UInt32 × UInt32) :=
  [(5, 0xfffa3942, 4), (8, 0x8771f681, 11), (11, 0x6d9d6122, 16), (14, 0xfde5380c, 23),
    (1, 0xa4beea44, 4), (4, 0x4bdecfa9, 11), (7, 0xf6bb4b60, 16), (10, 0xbebfbc70, 23),
    (13, 0x289b7ec6, 4), (0, 0xeaa127fa, 11), (3, 0xd4ef3085, 16), (6, 0x04881d05, 23),
    (9, 0xd9d4d039, 4), (12, 0xe6db99e5, 11), (15, 0x1fa27cf8, 16), (2, 0xc4ac5665, 23)]

/-- The steps with `F4`. -/
def md5Steps4 : List (ℕ × UInt32 × UInt32) :=
  [(0, 0xf4292244, 6), (7, 0x432aff97, 10), (14, 0xab9423a7, 15), (5, 0xfc93a039, 21),
    (12, 0x655b59c3, 6), (3, 0x8f0ccc92, 10), (10, 0xffeff47d, 15), (1, 0x85845dd1, 21),
    (8, 0x6fa87e4f, 6), (15, 0xfe2ce6e0, 10), (6, 0xa3014314, 15), (13, 0x4e0811a1, 21),
    (4, 0xf7537e82, 6), (11, 0xbd3af235, 10), (2, 0x2ad7d2bb, 15), (9, 0xeb86d391, 21)]

/-- `MD5Transform`. -/
def md5Transform (buf : Md5Words) (block : Bytes) : Md5Words :=
  let words := md5Round f4 block md5Steps4 (md5Round f3 block md5Steps3
    (md5Round f2 block md5Steps2 (md5Round f1 block md5Steps1 buf)))
  ⟨buf.a + words.a, buf.b + words.b, buf.c + words.c, buf.d + words.d⟩

/-- The words that `MD5Init` starts with. -/
def md5Start : Md5Words := ⟨0x67452301, 0xefcdab89, 0x98badcfe, 0x10325476⟩

/-- `MD5Init`. The buffer keeps what it had. -/
def md5Init (inBuf : Bytes) : Md5Context := ⟨md5Start, 0, 0, inBuf⟩

/-- The loop of `MD5Update` over the whole blocks, and the copy of the rest. -/
def md5Blocks (ctx : Md5Context) (data : Bytes) : Md5Context :=
  if 64 ≤ data.length then
    let inBuf := overwrite ctx.inBuf 0 (data.take 64)
    md5Blocks { ctx with buf := md5Transform ctx.buf inBuf, inBuf := inBuf } (data.drop 64)
  else { ctx with inBuf := overwrite ctx.inBuf 0 data }
termination_by data.length
decreasing_by
  rw [List.length_drop]
  omega

/-- The bytes in the buffer: `(bits[0] >> 3) & 0x3f`. -/
def Md5Context.count (ctx : Md5Context) : ℕ := ((ctx.bits0 >>> 3) &&& 0x3f).toNat

/-- The bit count of `MD5Update`, with the carry from low to high. -/
def Md5Context.addBits (ctx : Md5Context) (len : UInt32) : Md5Context :=
  let bits0 := ctx.bits0 + (len <<< 3)
  let bits1 := if bits0 < ctx.bits0 then ctx.bits1 + 1 else ctx.bits1
  { ctx with bits0 := bits0, bits1 := bits1 + (len >>> 29) }

@[simp] theorem Md5Context.addBits_buf (ctx : Md5Context) (len : UInt32) :
    (ctx.addBits len).buf = ctx.buf := rfl

@[simp] theorem Md5Context.addBits_inBuf (ctx : Md5Context) (len : UInt32) :
    (ctx.addBits len).inBuf = ctx.inBuf := rfl

/-- `MD5Update` with the first `len` bytes of its buffer. -/
def md5Update (ctx : Md5Context) (data : Bytes) : Md5Context :=
  let t := ctx.count
  let ctx := ctx.addBits (UInt32.ofNat data.length)
  if t ≠ 0 then
    if data.length < 64 - t then { ctx with inBuf := overwrite ctx.inBuf t data }
    else
      let inBuf := overwrite ctx.inBuf t (data.take (64 - t))
      md5Blocks { ctx with buf := md5Transform ctx.buf inBuf, inBuf := inBuf }
        (data.drop (64 - t))
  else md5Blocks ctx data

/-- The digest that consists of the bytes of the words. -/
def Md5Words.digest (words : Md5Words) : Digest :=
  ⟨(wordBytes words.a ++ wordBytes words.b ++ wordBytes words.c ++ wordBytes words.d).toArray, rfl⟩

/-- `MD5Final`. -/
def md5Final (ctx : Md5Context) : Digest :=
  let inBuf := overwrite ctx.inBuf ctx.count [0x80]
  let count := 64 - 1 - ctx.count
  let bits := wordBytes ctx.bits0 ++ wordBytes ctx.bits1
  if count < 8 then
    let inBuf := overwrite inBuf (ctx.count + 1) (List.replicate count 0)
    let buf := md5Transform ctx.buf inBuf
    (md5Transform buf (overwrite (overwrite inBuf 0 (List.replicate 56 0)) 56 bits)).digest
  else
    let inBuf := overwrite inBuf (ctx.count + 1) (List.replicate (count - 8) 0)
    (md5Transform ctx.buf (overwrite inBuf 56 bits)).digest

/-- What a message is padded with: a bit, zeros up to 8 bytes before the end of a block, and
the number of its bits. -/
def md5Padding (m : Bytes) : Bytes :=
  0x80 :: (List.replicate ((119 - m.length % 64) % 64) 0 ++
    (wordBytes (UInt32.ofNat (8 * m.length)) ++
      wordBytes (UInt32.ofNat (8 * m.length / 2 ^ 32))))

/-- The digest of a message: the padded message is absorbed block by block. -/
def md5Digest (m : Bytes) : Digest :=
  (absorb 64 md5Transform md5Start (m ++ md5Padding m)).1.digest

/-- The context holds a message: the state has absorbed its whole blocks, the buffer begins with
the rest, and the two words count its bits. -/
structure Md5Context.Holds (ctx : Md5Context) (m : Bytes) : Prop where
  length_inBuf : ctx.inBuf.length = 64
  buf_eq : ctx.buf = (absorb 64 md5Transform md5Start m).1
  pending_eq : ctx.inBuf.take (m.length % 64) = (absorb 64 md5Transform md5Start m).2
  bits_eq : ctx.bits0.toNat + 2 ^ 32 * ctx.bits1.toNat = 8 * m.length % 2 ^ 64

/-- A new context holds the empty message. Every history of a context begins here. -/
theorem md5Init_holds {inBuf : Bytes} (h : inBuf.length = 64) : (md5Init inBuf).Holds [] := by
  have hnil : absorb 64 md5Transform md5Start [] = (md5Start, []) := absorb_of_lt _ (by decide)
  refine ⟨h, ?_, ?_, rfl⟩
  · rw [hnil]
    rfl
  · rw [hnil]
    rfl

/-- The loop of `MD5Update` absorbs the data and leaves the rest in the front of the buffer. The
loop goes over whole blocks without the buffer. -/
theorem md5Blocks_spec {ctx : Md5Context} (h : ctx.inBuf.length = 64) (data : Bytes) :
    (md5Blocks ctx data).inBuf.length = 64 ∧
      (md5Blocks ctx data).buf = (absorb 64 md5Transform ctx.buf data).1 ∧
      (md5Blocks ctx data).inBuf.take (data.length % 64) =
        (absorb 64 md5Transform ctx.buf data).2 ∧
      (md5Blocks ctx data).bits0 = ctx.bits0 ∧ (md5Blocks ctx data).bits1 = ctx.bits1 := by
  induction hn : data.length using Nat.strong_induction_on generalizing ctx data with
  | _ n ih =>
    subst hn
    rcases Nat.lt_or_ge data.length 64 with hshort | hlong
    · have htake : (overwrite ctx.inBuf 0 data).take data.length = data := by
        simpa using take_overwrite (Nat.zero_le ctx.inBuf.length)
      rw [md5Blocks, if_neg (by omega), absorb_of_lt _ hshort, Nat.mod_eq_of_lt hshort]
      refine ⟨?_, rfl, htake, rfl, rfl⟩
      rw [length_overwrite (by omega), h]
    · have hblock : (data.take 64).length = 64 := List.length_take_of_le hlong
      have hfull : overwrite ctx.inBuf 0 (data.take 64) = data.take 64 := by
        rw [overwrite_to_end (by omega), List.take_zero, List.nil_append]
      have hnext : (Md5Context.mk (md5Transform ctx.buf (data.take 64)) ctx.bits0 ctx.bits1
          (data.take 64)).inBuf.length = 64 := hblock
      have hrest : (data.drop 64).length = data.length - 64 := List.length_drop
      have hih := ih _ (by omega) hnext (data.drop 64) rfl
      rw [hrest, ← Nat.mod_eq_sub_mod hlong] at hih
      rw [md5Blocks, if_pos hlong, absorb_of_le _ (by decide) hlong]
      dsimp only
      rw [hfull]
      exact hih

/-- The number of bits in two words, with the carry. The source finds the carry by comparing with
the old low word. -/
theorem addBits_spec (ctx : Md5Context) {n len : ℕ} (hlen : len < 2 ^ 32)
    (h : ctx.bits0.toNat + 2 ^ 32 * ctx.bits1.toNat = 8 * n % 2 ^ 64) :
    (ctx.addBits (UInt32.ofNat len)).bits0.toNat +
        2 ^ 32 * (ctx.addBits (UInt32.ofNat len)).bits1.toNat = 8 * (n + len) % 2 ^ 64 := by
  have hlow := ctx.bits0.toNat_lt
  have hhigh := ctx.bits1.toNat_lt
  have hbits0 : (ctx.bits0 + UInt32.ofNat len <<< 3).toNat =
      (ctx.bits0.toNat + 8 * len % 2 ^ 32) % 2 ^ 32 := by
    simp [Nat.shiftLeft_eq, Nat.mul_comm]
  have hshift : (UInt32.ofNat len >>> 29).toNat = len / 2 ^ 29 := by
    rw [UInt32.toNat_shiftRight, UInt32.toNat_ofNat', Nat.mod_eq_of_lt hlen,
      Nat.shiftRight_eq_div_pow]
    rfl
  unfold Md5Context.addBits
  dsimp only
  split_ifs with hless
  · rw [UInt32.lt_iff_toNat_lt, hbits0] at hless
    rw [hbits0, UInt32.toNat_add, UInt32.toNat_add, hshift]
    simp only [UInt32.toNat_one]
    omega
  · rw [UInt32.lt_iff_toNat_lt, hbits0] at hless
    rw [hbits0, UInt32.toNat_add, hshift]
    omega

/-- The number of bytes in the buffer is less than 64. There is always room for one more byte, and
so for the mark of the padding. -/
theorem Md5Context.count_lt (ctx : Md5Context) : ctx.count < 64 := by
  unfold Md5Context.count
  rw [UInt32.toNat_and]
  exact Nat.lt_succ_of_le Nat.and_le_right

/-- The number of bytes in the buffer is what the message has beyond its whole blocks. So the next
piece is stored behind the bytes that wait in the buffer. -/
theorem Md5Context.Holds.count_eq {ctx : Md5Context} {m : Bytes} (h : ctx.Holds m) :
    ctx.count = m.length % 64 := by
  have hbits := h.bits_eq
  have hmask : ctx.count = ctx.bits0.toNat / 8 % 64 := by
    unfold Md5Context.count
    rw [UInt32.toNat_and, UInt32.toNat_shiftRight, Nat.shiftRight_eq_div_pow]
    exact Nat.and_two_pow_sub_one_eq_mod _ 6
  omega

/-- `MD5Update` absorbs the data behind what is in the buffer. It is the step of the induction
over the pieces of a message. -/
theorem md5Update_spec {ctx : Md5Context} (h : ctx.inBuf.length = 64) (data : Bytes) :
    (md5Update ctx data).inBuf.length = 64 ∧
      (md5Update ctx data).buf =
        (absorb 64 md5Transform ctx.buf (ctx.inBuf.take ctx.count ++ data)).1 ∧
      (md5Update ctx data).inBuf.take ((ctx.count + data.length) % 64) =
        (absorb 64 md5Transform ctx.buf (ctx.inBuf.take ctx.count ++ data)).2 ∧
      (md5Update ctx data).bits0 = (ctx.addBits (UInt32.ofNat data.length)).bits0 ∧
      (md5Update ctx data).bits1 = (ctx.addBits (UInt32.ofNat data.length)).bits1 := by
  have hcount := ctx.count_lt
  have hpending : (ctx.inBuf.take ctx.count).length = ctx.count :=
    List.length_take_of_le (by omega)
  unfold md5Update
  dsimp only [Md5Context.addBits_buf, Md5Context.addBits_inBuf]
  split_ifs with hempty hshort
  · -- the data fits into the buffer
    have habsorb : absorb 64 md5Transform ctx.buf (ctx.inBuf.take ctx.count ++ data) =
        (ctx.buf, ctx.inBuf.take ctx.count ++ data) :=
      absorb_of_lt _ (by rw [List.length_append]; omega)
    rw [habsorb, Nat.mod_eq_of_lt (by omega : ctx.count + data.length < 64)]
    refine ⟨?_, rfl, take_overwrite (by omega), rfl, rfl⟩
    rw [length_overwrite (by omega), h]
  · -- the front of the data fills the buffer
    have hfront : (data.take (64 - ctx.count)).length = 64 - ctx.count :=
      List.length_take_of_le (by omega)
    have hblock : overwrite ctx.inBuf ctx.count (data.take (64 - ctx.count)) =
        ctx.inBuf.take ctx.count ++ data.take (64 - ctx.count) :=
      overwrite_to_end (by omega)
    have hwidth : (ctx.inBuf.take ctx.count ++ data.take (64 - ctx.count)).length = 64 := by
      rw [List.length_append]
      omega
    have hsplit : ctx.inBuf.take ctx.count ++ data =
        ctx.inBuf.take ctx.count ++ data.take (64 - ctx.count) ++ data.drop (64 - ctx.count) := by
      rw [List.append_assoc, List.take_append_drop]
    have hrest : (data.drop (64 - ctx.count)).length % 64 = (ctx.count + data.length) % 64 := by
      rw [List.length_drop]
      omega
    rw [hblock, hsplit, absorb_block_append _ (by decide) hwidth, ← hrest]
    exact md5Blocks_spec hwidth _
  · have hzero : ctx.count = 0 := not_not.mp hempty
    have hadded : (ctx.addBits (UInt32.ofNat data.length)).inBuf.length = 64 := h
    rw [hzero, List.take_zero, List.nil_append, Nat.zero_add]
    exact md5Blocks_spec hadded data

/-- **Pieces of a message.** `MD5Update` appends its data to the message that the context
holds. -/
theorem Md5Context.Holds.update {ctx : Md5Context} {m data : Bytes} (h : ctx.Holds m)
    (hdata : data.length < 2 ^ 32) : (md5Update ctx data).Holds (m ++ data) := by
  obtain ⟨hlength, hbuf, hpending, hbits0, hbits1⟩ := md5Update_spec h.length_inBuf data
  have habsorb : absorb 64 md5Transform md5Start (m ++ data) =
      absorb 64 md5Transform ctx.buf (ctx.inBuf.take ctx.count ++ data) := by
    rw [absorb_append (by decide), ← h.buf_eq, ← h.pending_eq, h.count_eq]
  refine ⟨hlength, ?_, ?_, ?_⟩
  · rw [hbuf, habsorb]
  · rw [habsorb, ← hpending, List.length_append, h.count_eq, Nat.mod_add_mod]
  · rw [hbits0, hbits1, List.length_append]
    exact addBits_spec ctx hdata h.bits_eq

/-- `MD5Final` absorbs a bit, zeros, and the number of bits behind what is in the buffer. The
padding takes one block or two, according to what is in the buffer. -/
theorem md5Final_spec {ctx : Md5Context} (h : ctx.inBuf.length = 64) :
    md5Final ctx = (absorb 64 md5Transform ctx.buf (ctx.inBuf.take ctx.count ++
      0x80 :: (List.replicate ((119 - ctx.count) % 64) 0 ++
        (wordBytes ctx.bits0 ++ wordBytes ctx.bits1)))).1.digest := by
  have hcount := ctx.count_lt
  have hpending : (ctx.inBuf.take ctx.count).length = ctx.count :=
    List.length_take_of_le (by omega)
  unfold md5Final
  dsimp only
  generalize hbits : wordBytes ctx.bits0 ++ wordBytes ctx.bits1 = bits
  have height : bits.length = 8 := by
    rw [← hbits]
    rfl
  split_ifs with hlate
  · -- the bit and the zeros fill a block, and the number of bits goes into another one
    have hzeros : (119 - ctx.count) % 64 = 64 - 1 - ctx.count + 56 := by omega
    have hfirst : overwrite (overwrite ctx.inBuf ctx.count [0x80]) (ctx.count + 1)
        (List.replicate (64 - 1 - ctx.count) 0) =
          ctx.inBuf.take ctx.count ++ ([0x80] ++ List.replicate (64 - 1 - ctx.count) 0) := by
      refine overwrite_overwrite_to_end rfl ?_
      rw [List.length_replicate]
      omega
    have hblock : (ctx.inBuf.take ctx.count ++
        ([0x80] ++ List.replicate (64 - 1 - ctx.count) 0)).length = 64 := by
      rw [List.length_append, List.length_append, List.length_replicate, List.length_singleton]
      omega
    have hsecond (block : Bytes) (hwidth : block.length = 64) :
        overwrite (overwrite block 0 (List.replicate 56 0)) 56 bits =
          List.replicate 56 0 ++ bits := by
      rw [overwrite_overwrite_to_end (by rw [List.length_replicate]) (by omega), List.take_zero,
        List.nil_append]
    have hlast : (List.replicate 56 (0 : Byte) ++ bits).length = 64 := by
      rw [List.length_append, List.length_replicate, height]
    have hmessage : ctx.inBuf.take ctx.count ++
        0x80 :: (List.replicate (64 - 1 - ctx.count + 56) 0 ++ bits) =
          ctx.inBuf.take ctx.count ++ ([0x80] ++ List.replicate (64 - 1 - ctx.count) 0) ++
            (List.replicate 56 0 ++ bits) := by
      rw [List.replicate_add]
      simp only [List.append_assoc, List.cons_append, List.nil_append]
    rw [hfirst, hsecond _ hblock, hzeros, hmessage, absorb_block_append _ (by decide) hblock,
      absorb_block _ (by decide) hlast]
  · -- the number of bits goes into the same block
    have hzeros : (119 - ctx.count) % 64 = 64 - 1 - ctx.count - 8 := by omega
    have hmarked : overwrite (overwrite ctx.inBuf ctx.count [0x80]) (ctx.count + 1)
        (List.replicate (64 - 1 - ctx.count - 8) 0) =
          overwrite ctx.inBuf ctx.count
            ([0x80] ++ List.replicate (64 - 1 - ctx.count - 8) 0) :=
      overwrite_overwrite (by omega) _
    have hfull : overwrite (overwrite ctx.inBuf ctx.count
        ([0x80] ++ List.replicate (64 - 1 - ctx.count - 8) 0)) 56 bits =
          ctx.inBuf.take ctx.count ++
            ([0x80] ++ List.replicate (64 - 1 - ctx.count - 8) 0 ++ bits) := by
      refine overwrite_overwrite_to_end ?_ (by omega)
      rw [List.length_append, List.length_singleton, List.length_replicate]
      omega
    have hblock : (ctx.inBuf.take ctx.count ++
        0x80 :: (List.replicate (64 - 1 - ctx.count - 8) 0 ++ bits)).length = 64 := by
      rw [List.length_append, List.length_cons, List.length_append, List.length_replicate]
      omega
    rw [hmarked, hfull, hzeros, absorb_block _ (by decide) hblock]
    rfl

/-- The two words of the bit count, as they are appended to the message. They are two halves of
one number because of the carry. -/
theorem Md5Context.Holds.bits {ctx : Md5Context} {m : Bytes} (h : ctx.Holds m) :
    ctx.bits0 = UInt32.ofNat (8 * m.length) ∧
      ctx.bits1 = UInt32.ofNat (8 * m.length / 2 ^ 32) := by
  have hbits := h.bits_eq
  have hlow := ctx.bits0.toNat_lt
  have hhigh := ctx.bits1.toNat_lt
  constructor
  · rw [← UInt32.toNat_inj, UInt32.toNat_ofNat']
    omega
  · rw [← UInt32.toNat_inj, UInt32.toNat_ofNat']
    omega

/-- **The digest of a message.** `MD5Final` gives the digest of the message that the context
holds, in whatever pieces it came. -/
theorem Md5Context.Holds.final {ctx : Md5Context} {m : Bytes} (h : ctx.Holds m) :
    md5Final ctx = md5Digest m := by
  obtain ⟨hbits0, hbits1⟩ := h.bits
  have habsorb : absorb 64 md5Transform md5Start (m ++ md5Padding m) =
      absorb 64 md5Transform ctx.buf (ctx.inBuf.take ctx.count ++ md5Padding m) := by
    rw [absorb_append (by decide), ← h.buf_eq, ← h.pending_eq, h.count_eq]
  rw [md5Final_spec h.length_inBuf, md5Digest, habsorb, md5Padding, hbits0, hbits1, h.count_eq]

example : (md5Digest (bytes "abc")).toList =
    [0x90, 0x01, 0x50, 0x98, 0x3c, 0xd2, 0x4f, 0xb0, 0xd6, 0x96, 0x3f, 0x7d, 0x28, 0xe1, 0x7f,
      0x72] := by decide +kernel

end DeepinPwCheck
