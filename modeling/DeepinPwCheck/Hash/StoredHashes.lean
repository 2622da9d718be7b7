import DeepinPwCheck.Hash.VerifyPwd

/-!
# Stored hashes

What `verify_pwd` accepts against a stored hash of `crypt` or `bigcrypt`: the passwords that hash
to it, but a hash of 13 bytes stands for the first segment of a password only. A hash can have
been cut, it can carry the characters for password aging of another system, and only a part of
the password goes into it.
-/

namespace DeepinPwCheck

open CText ChainedBlocks

variable {crypt : Crypt} {md5 : Bytes → Digest} {p q hash : Bytes}

/-- A hash whose salt is of valid characters begins with none of the characters that
`verify_pwd` looks for. -/
theorem IsSalt.head?_ne (h : IsSalt (isValid · = true) hash) {c : Byte}
    (hc : isValid c = false) : hash.head? ≠ some c := by
  intro hhead
  obtain ⟨rest, rfl⟩ := List.head?_eq_some_iff.mp hhead
  have hvalid : isValid c = true := h.2 c (by rw [List.take_succ_cons]; exact List.mem_cons_self)
  rw [hc] at hvalid
  cases hvalid

/-- Such a hash is not one of `crypt_md5`. `verify_pwd` then goes on to the traditional hashes. -/
theorem not_magic_of_head?_ne (h : hash.head? ≠ some dollar) :
    ¬magic.isPrefixOf hash = true := by
  intro hfront
  obtain ⟨rest, rfl⟩ := List.isPrefixOf_iff_prefix.mp hfront
  exact h rfl

/-- The first 13 bytes are kept. They decide between `crypt` and `bigcrypt` and hold the salt. -/
theorem take_stripHpuxAging {n : ℕ} (hn : n ≤ 13) :
    (stripHpuxAging hash).take n = hash.take n := by
  unfold stripHpuxAging
  split_ifs with hlong
  · have hfront : (hash.take 13).length = 13 := List.length_take_of_le hlong.2.le
    rw [List.take_append_of_le_length (by omega), List.take_take, Nat.min_eq_left hn]
  · rfl

/-- The salt is kept. The same hash is computed with and without the aging. -/
theorem IsSalt.stripHpuxAging (h : IsSalt (isValid · = true) hash) :
    IsSalt (isValid · = true) (stripHpuxAging hash) :=
  h.congr (take_stripHpuxAging (by decide)).symm

/-- **Password aging.** A character that is not valid ends a hash of at least 13 bytes that are
valid from there on: the rest makes no difference. -/
theorem verifyPwd_append_aging (hdollar : hash.head? ≠ some dollar) (hlength : 13 ≤ hash.length)
    (hvalid : ∀ c ∈ hash.drop 13, isValid c = true) {c : Byte} (hc : isValid c = false)
    (rest : Bytes) (rounds nullok : ℕ) (p : Option Bytes) :
    verifyPwd crypt md5 rounds p (hash ++ c :: rest) nullok =
      verifyPwd crypt md5 rounds p hash nullok := by
  obtain ⟨d, tail, rfl⟩ := List.exists_cons_of_ne_nil
    (List.length_pos_iff.mp (by omega : 0 < hash.length))
  have hlong : (d :: tail ++ c :: rest).head? ≠ some dollar ∧
      (d :: tail ++ c :: rest).length > 13 := by
    refine ⟨hdollar, ?_⟩
    rw [List.length_append, List.length_cons (a := c)]
    omega
  have hcut : stripHpuxAging (d :: tail ++ c :: rest) = d :: tail := by
    rw [stripHpuxAging, if_pos hlong, List.take_append_of_le_length hlength,
      List.drop_append_of_le_length hlength, takeWhile_append_of_neg hvalid hc,
      List.take_append_drop]
  have hwhole : stripHpuxAging (d :: tail) = d :: tail := by
    unfold stripHpuxAging
    split_ifs
    · rw [List.takeWhile_eq_self_iff.mpr hvalid, List.take_append_drop]
    · rfl
  unfold verifyPwd
  rw [hcut, hwhole]

/-- A hash with a comma and what follows it. -/
theorem verifyPwd_append_aging_comma :
    verifyPwd sampleCrypt md5Digest 0 (some (bytes "password"))
        (bytes "abJnggxhB/yWI" ++ 44 :: bytes "Axyz") 0 =
      verifyPwd sampleCrypt md5Digest 0 (some (bytes "password")) (bytes "abJnggxhB/yWI") 0 :=
  verifyPwd_append_aging (by decide) (by decide) (List.all_eq_true.mp (by decide)) (by decide) _
    0 0 _

/-- What a password is hashed to with a stored hash as the salt: one segment if the hash has not
more than 13 bytes. -/
def hashedLike (crypt : Crypt) (stored p : Bytes) : Bytes :=
  if 13 < stored.length then fullHash crypt stored p else (fullHash crypt stored p).take 13

/-- A hash has at least 13 bytes. The comparison of 13 bytes is never short of them. -/
theorem CryptLaws.length_fullHash_ge (laws : CryptLaws crypt (isValid · = true))
    (hsalt : IsSalt (isValid · = true) hash) (p : Bytes) : 13 ≤ (fullHash crypt hash p).length := by
  have hsegments := nSeg_eq p.length
  rw [(laws.fullHash_spec hsalt p).1]
  omega

/-- The hash that `verify_pwd` computes if the salt is of valid characters. The theorems on
acceptance need no case analysis of the source. -/
theorem CryptLaws.computedHash_eq (laws : CryptLaws crypt (isValid · = true))
    (hsalt : IsSalt (isValid · = true) hash) (rounds : ℕ) (p : Bytes) :
    computedHash crypt md5 rounds p hash = some (some (hashedLike crypt hash p)) := by
  have hdollar := hsalt.head?_ne (by decide : isValid dollar = false)
  unfold computedHash hashedLike
  rw [if_neg (not_magic_of_head?_ne hdollar)]
  by_cases hbig : hash.length ≥ 13
  · rw [if_pos ⟨hdollar, hbig⟩, laws.bigcrypt_eq_fullHash (by decide) hsalt, Option.map_some]
    by_cases hthirteen : hash.length = 13
    · have hcut : ¬((fullHash crypt hash p).take 13).length > 13 := by
        rw [List.length_take]
        omega
      rw [if_pos hthirteen, hthirteen, if_neg fun h => hcut h.2, if_neg (by decide)]
    · rw [if_neg hthirteen, if_neg fun h => hthirteen h.1, if_pos (by omega)]
  · rw [if_neg fun h => hbig h.2, (laws.segment_spec hsalt p).1, if_neg (by omega),
      laws.take_fullHash hsalt]

/-- A hash whose salt is of valid characters is accepted if the password is hashed to it. The
predicate does not mention `verify_pwd`. -/
theorem CryptLaws.accepts_iff_hashedLike (laws : CryptLaws crypt (isValid · = true))
    (hsalt : IsSalt (isValid · = true) hash) :
    Accepts crypt md5 p hash ↔
      hashedLike crypt (stripHpuxAging hash) p = stripHpuxAging hash := by
  have hstored := hsalt.stripHpuxAging
  have hverify (rounds nullok : ℕ) : verifyPwd crypt md5 rounds (some p) hash nullok = some 0 ↔
      hashedLike crypt (stripHpuxAging hash) p = stripHpuxAging hash := by
    have hne : (stripHpuxAging hash).length ≠ 0 := fun h => by simpa [h] using hstored.1
    have hstar := hstored.head?_ne (by decide : isValid 42 = false)
    have hbang := hstored.head?_ne (by decide : isValid 33 = false)
    unfold verifyPwd
    dsimp only
    rw [if_neg hne, if_neg (not_or.mpr ⟨hstar, hbang⟩), laws.computedHash_eq hstored,
      Option.map_some]
    simp
  constructor
  · rintro ⟨rounds, hrounds⟩
    exact (hverify rounds 0).mp (hrounds 0)
  · intro h
    exact ⟨0, fun nullok => (hverify 0 nullok).mpr h⟩

/-- The hash of the first segments of a key is the front of its hash. A hash that was cut at a
segment accepts longer keys. -/
theorem CryptLaws.take_fullHash_segments (laws : CryptLaws crypt (isValid · = true))
    (hsalt : IsSalt (isValid · = true) hash) {key : Bytes} {k : ℕ} (hpos : 0 < k)
    (hk : k < nSeg key.length) :
    (fullHash crypt hash key).take (2 + 11 * k) = fullHash crypt hash (key.take (8 * k)) := by
  rw [nSeg_eq] at hk
  have hwhole : 8 * k ≤ key.length := by omega
  have hsegments : nSeg (key.take (8 * k)).length = k := by
    rw [List.length_take_of_le hwhole, nSeg_eq]
    omega
  have hblocks : blocks segmentSize k key <+: blocks segmentSize (nSeg key.length) key := by
    refine prefix_blocks ?_ hwhole List.prefix_rfl
    rw [nSeg_eq]
    omega
  have hfront : fullHash crypt hash (key.take (8 * k)) <+: fullHash crypt hash key := by
    unfold fullHash segments
    rw [hsegments, blocks_take (by rfl : segmentSize * k ≤ 8 * k)]
    exact (List.prefix_append_right_inj _).mpr ((prefix_chain _ _ hblocks).flatten)
  have hlength : (fullHash crypt hash (key.take (8 * k))).length = 2 + 11 * k := by
    rw [(laws.fullHash_spec hsalt _).1, hsegments]
  rw [← hlength]
  exact (List.prefix_iff_eq_take.mp hfront).symm

/-- **A hash that was cut.** The hash that `bigcrypt` gives for a password, cut behind its salt,
is accepted for this password exactly if it was cut to 13 bytes or not at all; cut behind a
segment, it is accepted for the password that is cut behind this segment. -/
theorem accepts_take_bigcrypt_iff (laws : CryptLaws crypt (isValid · = true)) {s : Bytes}
    (hs : s.length = 2) (hvalid : ∀ c ∈ s, isValid c = true) (md5 : Bytes → Digest) (p : Bytes) :
    ∃ hash, bigcrypt crypt p s = some hash ∧
      (∀ n, 2 ≤ n → (Accepts crypt md5 p (hash.take n) ↔ n = 13 ∨ hash.length ≤ n)) ∧
      ∀ k, 0 < k → k < nSeg p.length →
        Accepts crypt md5 (p.take (8 * k)) (hash.take (2 + 11 * k)) := by
  have htake : s.take saltSize = s := List.take_of_length_le hs.le
  have hsalt : IsSalt (isValid · = true) s := ⟨hs.ge, by rwa [htake]⟩
  obtain ⟨hlength, hchars⟩ := laws.fullHash_spec hsalt p
  have hlong := laws.length_fullHash_ge hsalt p
  have hfront : (fullHash crypt s p).take saltSize = s.take saltSize := by
    unfold fullHash
    rw [htake]
    exact List.take_left' hs
  -- a cut hash has the salt of the whole one, and nothing is cut off it for aging
  have hcut (n : ℕ) (hn : 2 ≤ n) : ((fullHash crypt s p).take n).take saltSize =
      s.take saltSize := by
    rw [List.take_take, Nat.min_eq_left hn, hfront]
  have hIsSalt (n : ℕ) (hn : 2 ≤ n) :
      IsSalt (isValid · = true) ((fullHash crypt s p).take n) := by
    refine ⟨?_, by rw [hcut n hn]; exact hsalt.2⟩
    rw [List.length_take]
    dsimp only [saltSize]
    omega
  have haccepts (n : ℕ) (hn : 2 ≤ n) (q : Bytes) :
      Accepts crypt md5 q ((fullHash crypt s p).take n) ↔
        (if 13 < ((fullHash crypt s p).take n).length then fullHash crypt s q
          else (fullHash crypt s q).take 13) = (fullHash crypt s p).take n := by
    have hstrip : stripHpuxAging ((fullHash crypt s p).take n) = (fullHash crypt s p).take n :=
      stripHpuxAging_eq_self (Or.inr fun c hc => hchars c (List.mem_of_mem_take hc))
    rw [laws.accepts_iff_hashedLike (hIsSalt n hn), hstrip, hashedLike,
      laws.fullHash_congr (hIsSalt n hn) (hcut n hn)]
  refine ⟨fullHash crypt s p, ?_, ?_, ?_⟩
  · rw [laws.bigcrypt_eq_fullHash (by decide) hsalt, if_neg (by omega)]
  · intro n hn
    rw [haccepts n hn, List.length_take]
    constructor
    · intro heq
      have hsame := congrArg List.length heq
      split_ifs at hsame
      · rw [List.length_take] at hsame
        omega
      · rw [List.length_take, List.length_take] at hsame
        omega
    · intro hn'
      split_ifs with hmore
      · rw [List.take_of_length_le (by omega)]
      · rcases hn' with rfl | hle
        · rfl
        · rw [List.take_of_length_le hle, List.take_of_length_le (by omega)]
  · intro k hpos hk
    have hkey := laws.take_fullHash_segments hsalt hpos hk
    have hkeylong := laws.length_fullHash_ge hsalt (p.take (8 * k))
    have hcutlength : ((fullHash crypt s p).take (2 + 11 * k)).length = 2 + 11 * k := by
      rw [List.length_take, hlength]
      omega
    rw [haccepts _ (by omega), hcutlength, hkey]
    split_ifs with hmore
    · rfl
    · refine List.take_of_length_le ?_
      rw [← hkey, hcutlength]
      omega

/-- A hash of a password of two segments. -/
theorem accepts_take_bigcrypt_iff_password12 :
    ∃ hash, bigcrypt sampleCrypt (bytes "password12") (bytes "ab") = some hash ∧
      (∀ n, 2 ≤ n → (Accepts sampleCrypt md5Digest (bytes "password12") (hash.take n) ↔
        n = 13 ∨ hash.length ≤ n)) ∧
      ∀ k, 0 < k → k < nSeg (bytes "password12").length →
        Accepts sampleCrypt md5Digest ((bytes "password12").take (8 * k))
          (hash.take (2 + 11 * k)) :=
  accepts_take_bigcrypt_iff (sampleCrypt_laws fun _ hc => hc) (by decide)
    (List.all_eq_true.mp (by decide)) md5Digest (bytes "password12")

/-- The bytes of a key that go into its hash under a salt. -/
def keyBytes (salt : Bytes) : ℕ := if salt.length > 13 then 128 else 8

/-- Under a salt of valid characters a key is hashed by the bytes that go into its hash. Bytes
behind them are never compared. -/
theorem CryptLaws.hashedLike_congr (laws : CryptLaws crypt (isValid · = true)) {salt : Bytes}
    (hsalt : IsSalt (isValid · = true) salt)
    (h : p.take (keyBytes salt) = q.take (keyBytes salt)) :
    hashedLike crypt salt p = hashedLike crypt salt q := by
  unfold hashedLike
  by_cases hlong : 13 < salt.length
  · rw [keyBytes, if_pos hlong] at h
    rw [if_pos hlong, if_pos hlong, ← fullHash_take le_rfl p, h, fullHash_take le_rfl]
  · rw [keyBytes, if_neg hlong] at h
    rw [if_neg hlong, if_neg hlong, laws.take_fullHash hsalt, laws.take_fullHash hsalt,
      laws.segment_congr hsalt h rfl]

/-- **The part of a password that counts.** Against a hash of `crypt` or `bigcrypt` under a salt of
valid characters, `verify_pwd` does not tell passwords apart that begin with the same 8 bytes or,
if more than 13 bytes are left of the hash, with the same 128 bytes. Other salts are left out:
`crypt` reads the whole key for some of them. -/
theorem verifyPwd_congr (laws : CryptLaws crypt (isValid · = true))
    (hsalt : IsSalt (isValid · = true) hash)
    (h : p.take (keyBytes (stripHpuxAging hash)) = q.take (keyBytes (stripHpuxAging hash)))
    (rounds nullok : ℕ) : verifyPwd crypt md5 rounds (some p) hash nullok =
      verifyPwd crypt md5 rounds (some q) hash nullok := by
  have hstored := hsalt.stripHpuxAging
  unfold verifyPwd
  dsimp only
  rw [laws.computedHash_eq hstored, laws.computedHash_eq hstored, laws.hashedLike_congr hstored h]

/-- Two passwords with the same first segment. -/
theorem verifyPwd_congr_password12 :
    verifyPwd sampleCrypt md5Digest 0 (some (bytes "password12")) (bytes "abJnggxhB/yWI") 0 =
      verifyPwd sampleCrypt md5Digest 0 (some (bytes "password")) (bytes "abJnggxhB/yWI") 0 :=
  verifyPwd_congr (sampleCrypt_laws fun _ hc => hc)
    ⟨by decide, List.all_eq_true.mp (by decide)⟩ (by decide) 0 0

end DeepinPwCheck
