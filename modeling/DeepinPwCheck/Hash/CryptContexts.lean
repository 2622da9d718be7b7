import DeepinPwCheck.Hash.Md5

/-!
# `crypt_md5` on contexts

The calls of `MD5Init`, `MD5Update` and `MD5Final` in `crypt_md5`, in their order. Each context
holds the bytes that were put into it, so what the calls compute is the hash with the digest of
MD5 as its parameter, whatever the contexts had in their buffers.
-/

namespace DeepinPwCheck

open CText

/-- The loop that adds as many bytes of `final` as the password has. -/
def updateFinal (ctx : Md5Context) (final : Bytes) (pl : ℤ) : Md5Context :=
  if 0 < pl then
    updateFinal (md5Update ctx (final.take (if pl > 16 then 16 else pl.toNat))) final (pl - 16)
  else ctx
termination_by pl.toNat

/-- The loop over the bits of the length, for at most the given number of rounds. -/
def updateWeird (pw : Bytes) : ℕ → ℤ → Md5Context → Option Md5Context
  | 0, _, _ => none
  | rounds + 1, i, ctx =>
      if i = 0 then some ctx
      else updateWeird pw rounds (i >>> (1 : ℕ))
        (md5Update ctx [if i % 2 = 1 then 0 else pw.headD 0])

/-- One of the thousand rounds. The digest before it has cleared the context. -/
def updateRound (pw salt : Bytes) (final : Digest) (i : ℕ) : Digest :=
  let ctx := md5Init (List.replicate 64 0)
  let ctx := if i % 2 = 1 then md5Update ctx (updated pw) else md5Update ctx final.toList
  let ctx := if i % 3 ≠ 0 then md5Update ctx salt else ctx
  let ctx := if i % 7 ≠ 0 then md5Update ctx (updated pw) else ctx
  let ctx := if i % 2 = 1 then md5Update ctx final.toList else md5Update ctx (updated pw)
  md5Final ctx

/-- `crypt_md5` with its two contexts, from what their buffers have at first. -/
def cryptMd5Contexts (inBuf inBuf1 : Bytes) (rounds : ℕ) (pw salt : Bytes) : Option Bytes :=
  let sp := trueSalt salt
  let ctx := md5Update (md5Update (md5Update (md5Init inBuf) (updated pw)) magic) sp
  let ctx1 := md5Update (md5Update (md5Update (md5Init inBuf1) (updated pw)) sp) (updated pw)
  let final := md5Final ctx1
  let ctx := updateFinal ctx final.toList (toInt32 pw.length)
  (updateWeird pw rounds (toInt32 pw.length) ctx).map fun ctx =>
    magic ++ sp ++ [dollar] ++
      digestText ((List.range 1000).foldl (updateRound pw sp) (md5Final ctx))

/-- What `MD5Update` takes of a password has a length of type `unsigned`. A longer password is cut
to its length modulo `2 ^ 32`. -/
theorem length_updated_lt (pw : Bytes) : (updated pw).length < 2 ^ 32 :=
  (List.length_take_le _ _).trans_lt (Nat.mod_lt _ (by decide))

/-- The loop over the length appends the bytes of `final`. The induction is on what is left of the
length, sixteen bytes at a time. -/
theorem updateFinal_holds {ctx : Md5Context} {m final : Bytes} (h : ctx.Holds m)
    (hfinal : final.length < 2 ^ 32) (pl : ℤ) :
    (updateFinal ctx final pl).Holds (m ++ finalBytes final pl) := by
  induction hn : pl.toNat using Nat.strong_induction_on generalizing ctx m pl with
  | _ n ih =>
    rw [updateFinal, finalBytes]
    by_cases hpos : 0 < pl
    · have hpart (k : ℕ) : (final.take k).length < 2 ^ 32 :=
        (List.length_take_le' _ _).trans_lt hfinal
      rw [if_pos hpos, if_pos hpos, ← List.append_assoc]
      exact ih _ (by omega) (h.update (hpart _)) _ rfl
    · rw [if_neg hpos, if_neg hpos, List.append_nil]
      exact h

/-- The digest after the loop over the bits of the length. The round over a bit appends a NUL byte
or the first byte of the password. -/
theorem updateWeird_map_final {ctx : Md5Context} {m : Bytes} (h : ctx.Holds m) (pw : Bytes)
    (rounds : ℕ) (i : ℤ) :
    (updateWeird pw rounds i ctx).map md5Final =
      (weirdBytes pw rounds i).map fun weird => md5Digest (m ++ weird) := by
  induction rounds generalizing ctx m i with
  | zero => rfl
  | succ rounds ih =>
    rw [updateWeird, weirdBytes]
    by_cases hzero : i = 0
    · rw [if_pos hzero, if_pos hzero, Option.map_some, Option.map_some, List.append_nil, h.final]
    · rw [if_neg hzero, if_neg hzero, ih (h.update (Nat.one_lt_two_pow (by decide))),
        Option.map_map]
      simp only [Function.comp_def, List.append_assoc, List.singleton_append]

/-- An update with one of two pieces. The first and the last step of a round choose between the
password and the last digest. -/
theorem Md5Context.Holds.update_ite {ctx : Md5Context} {m a b : Bytes} (h : ctx.Holds m)
    (ha : a.length < 2 ^ 32) (hb : b.length < 2 ^ 32) (c : Prop) [Decidable c] :
    (if c then md5Update ctx a else md5Update ctx b).Holds (m ++ if c then a else b) := by
  split_ifs
  · exact h.update ha
  · exact h.update hb

/-- An update that is left out in some rounds. The salt and the password are left out in every
third and seventh round. -/
theorem Md5Context.Holds.update_if {ctx : Md5Context} {m a : Bytes} (h : ctx.Holds m)
    (ha : a.length < 2 ^ 32) (c : Prop) [Decidable c] :
    (if c then md5Update ctx a else ctx).Holds (m ++ if c then a else []) := by
  split_ifs
  · exact h.update ha
  · rw [List.append_nil]
    exact h

/-- A round computes the digest of its bytes. Each round starts from a fresh context, so no state
passes from one to the next. -/
theorem updateRound_eq {pw salt : Bytes} (hsalt : salt.length < 2 ^ 32) (final : Digest) (i : ℕ) :
    updateRound pw salt final i = md5Digest (roundBytes pw salt final.toList i) := by
  have hpw := length_updated_lt pw
  have hfinal : final.toList.length < 2 ^ 32 := by
    rw [Vector.length_toList]
    decide
  have hinit : (md5Init (List.replicate 64 0)).Holds [] := md5Init_holds (by decide)
  have hfirst := hinit.update_ite hpw hfinal (i % 2 = 1)
  have hsecond := hfirst.update_if hsalt (i % 3 ≠ 0)
  have hthird := hsecond.update_if hpw (i % 7 ≠ 0)
  exact (hthird.update_ite hfinal hpw (i % 2 = 1)).final

/-- **`crypt_md5` on contexts.** Its calls compute the hash whose digests are those of MD5, in
every round and whatever the buffers of the contexts had at first. -/
theorem cryptMd5Contexts_eq {inBuf inBuf1 : Bytes} (h : inBuf.length = 64)
    (h1 : inBuf1.length = 64) (rounds : ℕ) (pw salt : Bytes) :
    cryptMd5Contexts inBuf inBuf1 rounds pw salt = cryptMd5 md5Digest rounds pw salt := by
  have hpw := length_updated_lt pw
  have hsalt : (trueSalt salt).length < 2 ^ 32 :=
    (List.length_take_le _ _ : (trueSalt salt).length ≤ 8).trans_lt (by decide)
  have hmagic : magic.length < 2 ^ 32 := by decide
  have hctx := (((md5Init_holds h).update hpw).update hmagic).update hsalt
  have hctx1 := (((md5Init_holds h1).update hpw).update hsalt).update hpw
  have hfinal : (md5Final (md5Update (md5Update (md5Update (md5Init inBuf1) (updated pw))
      (trueSalt salt)) (updated pw))).toList.length < 2 ^ 32 := by
    rw [Vector.length_toList]
    decide
  have hround : updateRound pw (trueSalt salt) = fun final i =>
      md5Digest (roundBytes pw (trueSalt salt) final.toList i) := by
    funext final i
    exact updateRound_eq hsalt final i
  have hfront := updateFinal_holds hctx hfinal (toInt32 pw.length)
  have hweird := updateWeird_map_final hfront pw rounds (toInt32 pw.length)
  rw [hctx1.final] at hweird
  unfold cryptMd5Contexts cryptMd5
  dsimp only
  rw [hctx1.final, hround]
  have hmap (last : Option Md5Context) (text : Digest → Bytes) :
      last.map (fun ctx => text (md5Final ctx)) = (last.map md5Final).map text := by
    rw [Option.map_map]
    rfl
  rw [hmap _ fun final => magic ++ trueSalt salt ++ [dollar] ++ digestText ((List.range 1000).foldl
    (fun final i => md5Digest (roundBytes pw (trueSalt salt) final.toList i)) final), hweird,
    Option.map_map]
  rfl

/-- The hash of `password` with two contexts that had something in their buffers. -/
theorem cryptMd5Contexts_eq_password :
    cryptMd5Contexts (List.replicate 64 7) (List.replicate 64 8) 5 (bytes "password")
        (bytes "$1$ab") =
      cryptMd5 md5Digest 5 (bytes "password") (bytes "$1$ab") :=
  cryptMd5Contexts_eq (by decide) (by decide) 5 _ _

end DeepinPwCheck
