import DeepinPwCheck.Hash.BlockCollisions
import DeepinPwCheck.Hash.Md5

/-!
# Messages and digests

A message can be given to `MD5Update` in pieces or to `MD5` as a whole, and the digest is the
same. The number of its bits stands at the end of the last block, so two messages with one
digest make `MD5Transform` collide: at two inputs that occur when these messages are hashed.
-/

namespace DeepinPwCheck

open CText BlockBuffer

/-- `MD5`, with what the buffer of its context has at first. -/
def md5 (inBuf data : Bytes) : Digest := md5Final (md5Update (md5Init inBuf) data)

/-- The blocks of a padded message. -/
def md5BlockCount (m : Bytes) : ℕ := (m.length + 8) / 64 + 1

/-- Two messages make `MD5Transform` collide: the inputs for a block of each of them differ, and
their outputs do not. -/
def TransformCollides (m m' : Bytes) : Prop :=
  ∃ i < md5BlockCount m, ∃ j < md5BlockCount m',
    CollidesAt 64 md5Transform md5Start md5Start (m ++ md5Padding m) (m' ++ md5Padding m') i j

/-- A context holds what was put into it, one piece after the other. The induction is on the
pieces, with `md5Update_spec` as its step. -/
theorem Md5Context.Holds.foldl_update {ctx : Md5Context} {m : Bytes} (h : ctx.Holds m)
    {pieces : List Bytes} (hpieces : ∀ piece ∈ pieces, piece.length < 2 ^ 32) :
    (pieces.foldl md5Update ctx).Holds (m ++ pieces.flatten) := by
  induction pieces generalizing ctx m with
  | nil => simpa using h
  | cons piece rest ih =>
    have hnext := h.update (hpieces piece List.mem_cons_self)
    rw [List.foldl_cons, List.flatten_cons, ← List.append_assoc]
    exact ih hnext fun p hp => hpieces p (List.mem_cons_of_mem piece hp)

/-- **A message in pieces.** However a message is cut into pieces, and whatever the buffer of
the context had, the digest is that of the message, which `MD5` gives for the whole of it. -/
theorem md5Final_foldl_md5Update {inBuf inBuf' : Bytes} (h : inBuf.length = 64)
    (h' : inBuf'.length = 64) {pieces : List Bytes}
    (hpieces : ∀ piece ∈ pieces, piece.length < 2 ^ 32) :
    md5Final (pieces.foldl md5Update (md5Init inBuf)) = md5Digest pieces.flatten ∧
      (pieces.flatten.length < 2 ^ 32 →
        md5Final (pieces.foldl md5Update (md5Init inBuf)) = md5 inBuf' pieces.flatten) := by
  have hdigest := ((md5Init_holds h).foldl_update hpieces).final
  rw [List.nil_append] at hdigest
  refine ⟨hdigest, ?_⟩
  intro hlength
  have hwhole := ((md5Init_holds h').update hlength).final
  rw [List.nil_append] at hwhole
  rw [hdigest, md5, hwhole]

/-- A message of three pieces. -/
theorem md5Final_foldl_md5Update_abc :
    md5Final ([bytes "a", [], bytes "bc"].foldl md5Update (md5Init (List.replicate 64 7))) =
        md5Digest [bytes "a", [], bytes "bc"].flatten ∧
      ([bytes "a", [], bytes "bc"].flatten.length < 2 ^ 32 →
        md5Final ([bytes "a", [], bytes "bc"].foldl md5Update
          (md5Init (List.replicate 64 7))) =
          md5 (List.replicate 64 0) [bytes "a", [], bytes "bc"].flatten) :=
  md5Final_foldl_md5Update (by decide) (by decide) (by simp [CText.bytes])

/-- Words with the same byte at an offset have the same bits there. Words are compared byte by
byte through it. -/
theorem toNat_div_eq {w w' s : UInt32} {n : ℕ} (hs : s.toNat = n) (hn : n < 32)
    (h : (w >>> s).toUInt8 = (w' >>> s).toUInt8) :
    w.toNat / 2 ^ n % 256 = w'.toNat / 2 ^ n % 256 := by
  have hbyte := congrArg UInt8.toNat h
  rwa [UInt32.toNat_toUInt8, UInt32.toNat_toUInt8, UInt32.toNat_shiftRight,
    UInt32.toNat_shiftRight, Nat.shiftRight_eq_div_pow, Nat.shiftRight_eq_div_pow, hs,
    Nat.mod_eq_of_lt hn] at hbyte

/-- The bytes of a word are those of no other word. Equal digests therefore come from equal
words. -/
theorem wordBytes_injective {w w' : UInt32} (h : wordBytes w = wordBytes w') : w = w' := by
  simp only [wordBytes, List.cons.injEq, and_true] at h
  obtain ⟨h0, h1, h2, h3⟩ := h
  have hlow := congrArg UInt8.toNat h0
  rw [UInt32.toNat_toUInt8, UInt32.toNat_toUInt8] at hlow
  have hsecond : w.toNat / 2 ^ 8 % 256 = w'.toNat / 2 ^ 8 % 256 :=
    toNat_div_eq rfl (by decide) h1
  have hthird : w.toNat / 2 ^ 16 % 256 = w'.toNat / 2 ^ 16 % 256 :=
    toNat_div_eq rfl (by decide) h2
  have hfourth : w.toNat / 2 ^ 24 % 256 = w'.toNat / 2 ^ 24 % 256 :=
    toNat_div_eq rfl (by decide) h3
  have hw := w.toNat_lt
  have hw' := w'.toNat_lt
  rw [← UInt32.toNat_inj]
  omega

/-- The digest tells the words. A collision of digests is one of the last states. -/
theorem Md5Words.digest_injective {words words' : Md5Words}
    (h : words.digest = words'.digest) : words = words' := by
  obtain ⟨a, b, c, d⟩ := words
  obtain ⟨a', b', c', d'⟩ := words'
  have hlist := congrArg Vector.toList h
  simp only [Md5Words.digest, Vector.toList] at hlist
  obtain ⟨habc, hd⟩ := List.append_inj' hlist rfl
  obtain ⟨hab, hc⟩ := List.append_inj' habc rfl
  obtain ⟨ha, hb⟩ := List.append_inj' hab rfl
  rw [wordBytes_injective ha, wordBytes_injective hb, wordBytes_injective hc,
    wordBytes_injective hd]

/-- A padded message consists of whole blocks. Both messages of a collision are lists of blocks
then. -/
theorem length_padded (m : Bytes) :
    (m ++ md5Padding m).length = 64 * md5BlockCount m := by
  have hword (w : UInt32) : (wordBytes w).length = 4 := rfl
  simp only [md5Padding, md5BlockCount, List.length_append, List.length_cons,
    List.length_replicate, hword]
  omega

/-- The last block of a padded message ends with the number of its bits. If the last blocks agree,
so do the lengths. -/
theorem drop_padded (m : Bytes) : ∃ front, (m ++ md5Padding m).drop (64 * ((m.length + 8) / 64)) =
    front ++ (wordBytes (UInt32.ofNat (8 * m.length)) ++
      wordBytes (UInt32.ofNat (8 * m.length / 2 ^ 32))) := by
  have hsplit : m ++ md5Padding m =
      (m ++ 0x80 :: List.replicate ((119 - m.length % 64) % 64) 0) ++
        (wordBytes (UInt32.ofNat (8 * m.length)) ++
          wordBytes (UInt32.ofNat (8 * m.length / 2 ^ 32))) := by
    simp only [md5Padding, List.append_assoc, List.cons_append]
  rw [hsplit, List.drop_append_of_le_length]
  · exact ⟨_, rfl⟩
  · simp only [List.length_append, List.length_cons, List.length_replicate]
    omega

/-- The number of the bits of a message tells its length. Messages of different lengths differ in
their last block. -/
theorem length_eq_of_bits {n n' : ℕ} (hn : n < 2 ^ 61) (hn' : n' < 2 ^ 61)
    (hlow : UInt32.ofNat (8 * n) = UInt32.ofNat (8 * n'))
    (hhigh : UInt32.ofNat (8 * n / 2 ^ 32) = UInt32.ofNat (8 * n' / 2 ^ 32)) : n = n' := by
  have hlow := congrArg UInt32.toNat hlow
  have hhigh := congrArg UInt32.toNat hhigh
  rw [UInt32.toNat_ofNat', UInt32.toNat_ofNat'] at hlow hhigh
  omega

/-- **Collisions.** Two messages of less than `2 ^ 61` bytes that have the same digest, without
being the same, make `MD5Transform` collide. -/
theorem transformCollides_of_md5Digest_eq {m m' : Bytes} (hm : m.length < 2 ^ 61)
    (hm' : m'.length < 2 ^ 61) (hne : m ≠ m') (h : md5Digest m = md5Digest m') :
    TransformCollides m m' := by
  have hwords := Md5Words.digest_injective h
  by_cases hlength : m.length = m'.length
  · have hcount : md5BlockCount m' = md5BlockCount m := by
      unfold md5BlockCount
      rw [hlength]
    have hpadded : (md5Start, m ++ md5Padding m) ≠ (md5Start, m' ++ md5Padding m') :=
      fun heq => hne (List.append_inj_left (Prod.mk.inj heq).2 hlength)
    obtain ⟨i, hi, hcollides⟩ := exists_collidesAt_of_length_eq (by decide) (length_padded m)
      (by rw [length_padded, hcount]) hpadded hwords
    exact ⟨i, hi, i, by rwa [hcount], hcollides⟩
  · -- the numbers of bits differ, and with them the last blocks
    refine ⟨(m.length + 8) / 64, Nat.lt_succ_self _, (m'.length + 8) / 64, Nat.lt_succ_self _,
      collidesAt_last (by decide) (length_padded m) (length_padded m') ?_ hwords⟩
    intro hlast
    obtain ⟨front, hfront⟩ := drop_padded m
    obtain ⟨front', hfront'⟩ := drop_padded m'
    rw [hfront, hfront'] at hlast
    obtain ⟨hlow, hhigh⟩ := List.append_inj' (List.append_inj' hlast rfl).2 rfl
    exact hlength (length_eq_of_bits hm hm' (wordBytes_injective hlow) (wordBytes_injective hhigh))

/-- A message of one block, which is one of two with the same digest. -/
def collidingMessage (x y : Byte) : Bytes :=
  [0x4d, 0xc9, 0x68, 0xff, 0x0e, 0xe3, 0x5c, 0x20, 0x95, 0x72, 0xd4, 0x77, 0x7b, 0x72, 0x15, 0x87,
    0xd3, 0x6f, 0xa7, 0xb2, 0x1b, 0xdc, 0x56, 0xb7, 0x4a, 0x3d, 0xc0, 0x78, 0x3e, 0x7b, 0x95, 0x18,
    0xaf, 0xbf, 0xa2, x, 0xa8, 0x28, 0x4b, 0xf3, 0x6e, 0x8e, 0x4b, 0x55, 0xb3, 0x5f, 0x42, 0x75,
    0x93, 0xd8, 0x49, 0x67, 0x6d, 0xa0, 0xd1, y, 0x5d, 0x83, 0x60, 0xfb, 0x5f, 0x07, 0xfe, 0xa2]

/-- Two messages that differ in two bytes. -/
theorem transformCollides_collidingMessage :
    TransformCollides (collidingMessage 0x00 0x55) (collidingMessage 0x02 0xd5) :=
  transformCollides_of_md5Digest_eq (by decide) (by decide) (by decide) (by decide +kernel)

end DeepinPwCheck
