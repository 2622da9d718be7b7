import DeepinPwCheck.Hash.Bigcrypt
import DeepinPwCheck.Hash.Md5

/-!
# `verify_pwd`

`verify_pwd` hashes a password with the stored hash as the salt and compares. A hash that
`bigcrypt` or `crypt_md5` made of the password is accepted, whole and, for `bigcrypt`, cut to
its first 13 bytes. The one exception is a password whose length is negative as an `int`, for
which `crypt_md5` does not return.
-/

namespace DeepinPwCheck

open CText

/-- `strip_hpux_aging`: a hash ends where the characters behind the first 13 bytes are no
longer valid. -/
def stripHpuxAging (hash : Bytes) : Bytes :=
  if hash.head? ≠ some dollar ∧ hash.length > 13 then
    hash.take 13 ++ (hash.drop 13).takeWhile isValid
  else hash

/-- `pp` of `verify_pwd`: what the password is hashed to with the stored hash as the salt, if
the hash function returns and gives a hash. -/
def computedHash (crypt : Crypt) (md5 : Bytes → Digest) (rounds : ℕ) (p hash : Bytes) :
    Option (Option Bytes) :=
  if magic.isPrefixOf hash then
    (cryptMd5 md5 rounds p hash).bind fun pp =>
      if pp ≠ hash then (cryptMd5 md5 rounds p hash).map some else some (some pp)
  else if hash.head? ≠ some dollar ∧ hash.length ≥ 13 then
    some ((bigcrypt crypt p hash).map fun pp =>
      if hash.length = 13 ∧ pp.length > hash.length then pp.take hash.length else pp)
  else some (crypt p hash)

/-- `verify_pwd`, as far as it comes with the given number of rounds: 0 if the password is
accepted, and 1 if not. In the end `stripHpuxAging hash` is in the buffer of the caller. -/
def verifyPwd (crypt : Crypt) (md5 : Bytes → Digest) (rounds : ℕ) (p : Option Bytes)
    (hash : Bytes) (nullok : ℕ) : Option ℤ :=
  let hash := stripHpuxAging hash
  if hash.length = 0 then some (if nullok ≠ 0 then 0 else 1)
  else
    match p with
    | none => some 1
    | some p =>
        if hash.head? = some 42 ∨ hash.head? = some 33 then some 1
        else (computedHash crypt md5 rounds p hash).map fun pp => if pp = some hash then 0 else 1

/-- The password is accepted against the hash, whether or not empty hashes are. -/
def Accepts (crypt : Crypt) (md5 : Bytes → Digest) (p hash : Bytes) : Prop :=
  ∃ rounds, ∀ nullok, verifyPwd crypt md5 rounds (some p) hash nullok = some 0

/-- What was hashed verifies: with the salt `s` for `bigcrypt` and `t` for `crypt_md5`, the
password is accepted against each of its hashes. -/
def HashedVerifies (crypt : Crypt) (md5 : Bytes → Digest) (p s t : Bytes) : Prop :=
  (∃ hash, bigcrypt crypt p s = some hash ∧ Accepts crypt md5 p hash ∧
      Accepts crypt md5 p (hash.take 13)) ∧
    ∃ rounds hash, cryptMd5 md5 rounds p t = some hash ∧ Accepts crypt md5 p hash

section

variable {crypt : Crypt} {md5 : Bytes → Digest} {p hash : Bytes}

/-- Nothing is cut off a hash of valid characters, or one that begins with a dollar sign. -/
theorem stripHpuxAging_eq_self
    (h : hash.head? = some dollar ∨ ∀ c ∈ hash, isValid c = true) :
    stripHpuxAging hash = hash := by
  unfold stripHpuxAging
  split_ifs with hlong
  · have hvalid := h.resolve_left hlong.1
    have hrest : (hash.drop 13).takeWhile isValid = hash.drop 13 :=
      List.takeWhile_eq_self_iff.mpr fun c hc => hvalid c (List.mem_of_mem_drop hc)
    rw [hrest, List.take_append_drop]
  · rfl

/-- **Acceptance.** A hash is accepted if hashing the password with it as the salt gives it. -/
theorem verifyPwd_of_computedHash {rounds nullok : ℕ} (hstrip : stripHpuxAging hash = hash)
    (hne : hash ≠ []) (hstar : hash.head? ≠ some 42) (hbang : hash.head? ≠ some 33)
    (h : computedHash crypt md5 rounds p hash = some (some hash)) :
    verifyPwd crypt md5 rounds (some p) hash nullok = some 0 := by
  have hlength : hash.length ≠ 0 := fun h => hne (List.length_eq_zero_iff.mp h)
  unfold verifyPwd
  rw [hstrip]
  dsimp only
  rw [if_neg hlength, if_neg (not_or.mpr ⟨hstar, hbang⟩), h, Option.map_some, if_pos rfl]

/-- A hash of valid characters that `bigcrypt` gives back is accepted. A hash that was computed as
a whole is compared as a whole. -/
theorem accepts_of_bigcrypt (hvalid : ∀ c ∈ hash, isValid c = true) (hlength : 13 ≤ hash.length)
    (h : bigcrypt crypt p hash = some hash) : Accepts crypt md5 p hash := by
  obtain ⟨c, rest, rfl⟩ := List.exists_cons_of_ne_nil
    (List.length_pos_iff.mp (by omega : 0 < hash.length))
  have hc := hvalid c List.mem_cons_self
  have hother (d : Byte) (hd : isValid d = false) : (c :: rest).head? ≠ some d := by
    intro heq
    obtain rfl : c = d := Option.some.inj heq
    rw [hc] at hd
    cases hd
  have hmagic : ¬magic.isPrefixOf (c :: rest) = true := by
    intro hfront
    obtain ⟨hdollar, -⟩ := List.cons_prefix_cons.mp (List.isPrefixOf_iff_prefix.mp hfront)
    exact hother dollar (by decide) (by rw [List.head?_cons, hdollar])
  refine ⟨0, fun nullok => verifyPwd_of_computedHash (stripHpuxAging_eq_self (Or.inr hvalid))
    (List.cons_ne_nil _ _) (hother 42 (by decide)) (hother 33 (by decide)) ?_⟩
  unfold computedHash
  rw [if_neg hmagic, if_pos ⟨hother dollar (by decide), hlength⟩, h, Option.map_some,
    if_neg (fun hlonger => lt_irrefl _ hlonger.2)]

/-- **Hashes of `bigcrypt`.** They are accepted, and so are their first 13 bytes. -/
theorem bigcrypt_verifies (laws : CryptLaws crypt (isValid · = true)) {s : Bytes}
    (hs : s.length = 2) (hvalid : ∀ c ∈ s, isValid c = true) :
    ∃ hash, bigcrypt crypt p s = some hash ∧ Accepts crypt md5 p hash ∧
      Accepts crypt md5 p (hash.take 13) := by
  have hzero : ¬isValid 0 = true := by decide
  have htake : s.take saltSize = s := List.take_of_length_le hs.le
  have hsalt : IsSalt (isValid · = true) s := ⟨hs.ge, by rwa [htake]⟩
  obtain ⟨hlength, hchars⟩ := laws.fullHash_spec hsalt p
  have hsegments := nSeg_eq p.length
  have hlong : 13 ≤ (fullHash crypt s p).length := by omega
  -- the salt is read again from the hash, and from its first 13 bytes
  have hfront : (fullHash crypt s p).take saltSize = s.take saltSize := by
    unfold fullHash
    rw [htake]
    exact List.take_left' hs
  have hcut : ((fullHash crypt s p).take 13).take saltSize = s.take saltSize := by
    rw [List.take_take, ← hfront]
    rfl
  have hIsSalt (salt : Bytes) (hle : 2 ≤ salt.length) (h : salt.take saltSize = s.take saltSize) :
      IsSalt (isValid · = true) salt := ⟨hle, h ▸ hsalt.2⟩
  have hwhole := hIsSalt _ (by omega) hfront
  have hthirteen := hIsSalt ((fullHash crypt s p).take 13) (by rw [List.length_take]; omega) hcut
  refine ⟨fullHash crypt s p, ?_, accepts_of_bigcrypt hchars hlong ?_,
    accepts_of_bigcrypt (fun c hc => hchars c (List.mem_of_mem_take hc)) ?_ ?_⟩
  · rw [laws.bigcrypt_eq_fullHash hzero hsalt, if_neg (by omega)]
  · rw [laws.bigcrypt_eq_fullHash hzero hwhole, laws.fullHash_congr hwhole hfront]
    split_ifs with h
    · rw [List.take_of_length_le h.le]
    · rfl
  · rw [List.length_take]
    omega
  · rw [laws.bigcrypt_eq_fullHash hzero hthirteen, laws.fullHash_congr hthirteen hcut, if_pos]
    rw [List.length_take]
    omega

/-- A hash of `crypt_md5` is accepted. The salt is taken out of the hash, and the second
computation repeats the first. -/
theorem cryptMd5_verifies {rounds : ℕ} {t : Bytes} (h : cryptMd5 md5 rounds p t = some hash) :
    Accepts crypt md5 p hash := by
  obtain ⟨text, rfl⟩ := magic_prefix_of_cryptMd5 h
  have hagain := cryptMd5_hash h
  have hmagic : magic.isPrefixOf (magic ++ (trueSalt t ++ dollar :: text)) = true :=
    List.isPrefixOf_iff_prefix.mpr (List.prefix_append _ _)
  have hhead : (magic ++ (trueSalt t ++ dollar :: text)).head? = some dollar := rfl
  refine ⟨rounds, fun nullok => verifyPwd_of_computedHash (stripHpuxAging_eq_self (Or.inl hhead))
    (List.cons_ne_nil _ _) (by rw [hhead]; decide) (by rw [hhead]; decide) ?_⟩
  unfold computedHash
  rw [if_pos hmagic, hagain, Option.bind_some, if_neg (not_not.mpr rfl)]

/-- **What was hashed verifies.** For any `crypt` with its laws and any MD5, a password is accepted
against the hash that `bigcrypt` gives for a salt of two valid characters, against the first 13
bytes of that hash, and against the hash that `crypt_md5` gives for any salt, exactly if the
length of the password is not negative as an `int`. -/
theorem hashedVerifies_iff (laws : CryptLaws crypt (isValid · = true)) (md5 : Bytes → Digest)
    (p : Bytes) {s : Bytes} (hs : s.length = 2) (hvalid : ∀ c ∈ s, isValid c = true) (t : Bytes) :
    HashedVerifies crypt md5 p s t ↔ 0 ≤ toInt32 p.length := by
  rw [← exists_cryptMd5_iff md5 p t]
  constructor
  · rintro ⟨-, rounds, hash, hhash, -⟩
    exact ⟨rounds, by rw [hhash, Option.isSome_some]⟩
  · rintro ⟨rounds, hsome⟩
    obtain ⟨hash, hhash⟩ := Option.isSome_iff_exists.mp hsome
    exact ⟨bigcrypt_verifies laws hs hvalid, rounds, hash, hhash, cryptMd5_verifies hhash⟩

end

/-- The hashes of `password` under the salts `ab` and `$1$ab`. -/
theorem hashedVerifies_iff_password :
    HashedVerifies sampleCrypt md5Digest (bytes "password") (bytes "ab") (bytes "$1$ab") ↔
      0 ≤ toInt32 (bytes "password").length :=
  hashedVerifies_iff (sampleCrypt_laws fun _ hc => hc) _ _ (by decide)
    (List.all_eq_true.mp (by decide)) _

/-- For a password of `2 ^ 31` bytes `crypt_md5` does not return. -/
theorem not_hashedVerifies :
    ¬∀ p s t : Bytes, 0 ∉ p → s.length = 2 → (∀ c ∈ s, isValid c = true) → 0 ∉ t →
      HashedVerifies sampleCrypt md5Digest p s t := by
  intro h
  have hnul : (0 : Byte) ∉ List.replicate (2 ^ 31) 97 := by
    intro hmem
    exact absurd (List.eq_of_mem_replicate hmem) (by decide)
  obtain ⟨-, rounds, hash, hhash, -⟩ := h (List.replicate (2 ^ 31) 97) (bytes "ab")
    (bytes "$1$ab") hnul (by decide) (List.all_eq_true.mp (by decide)) (by decide)
  have hnonneg := (exists_cryptMd5_iff md5Digest (List.replicate (2 ^ 31) 97)
    (bytes "$1$ab")).mp ⟨rounds, by rw [hhash, Option.isSome_some]⟩
  rw [List.length_replicate] at hnonneg
  exact absurd hnonneg (by decide)

end DeepinPwCheck
