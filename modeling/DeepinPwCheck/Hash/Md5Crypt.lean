import DeepinPwCheck.Text.Decimal

/-!
# `crypt_md5`

`crypt_md5` takes the salt out of its argument, which may be a hash, and writes it into its
result in front of the digest. The computation uses nothing else of the argument, so a hash
used as the argument gives itself. MD5 is a parameter: any function from the bytes that go
into a context to a digest. One loop runs over the bits of the length as an `int`, and never
stops if that is negative.
-/

namespace DeepinPwCheck

open CText

/-- A digest of MD5. -/
abbrev Digest := Vector Byte 16

/-- The dollar sign between the parts of a hash. -/
abbrev dollar : Byte := 36

/-- `magic`, which a hash of this kind begins with. -/
def magic : Bytes := [dollar, 49, dollar]

/-- `itoa64`: the digits of the text of a digest. -/
def itoa64 : Bytes :=
  CText.bytes "./0123456789ABCDEFGHIJKLMNOPQRSTUVWXYZabcdefghijklmnopqrstuvwxyz"

/-- `to64`: the given number of digits of `v`, the lowest first. -/
def to64 (v : ℕ) : ℕ → Bytes
  | 0 => []
  | n + 1 => (itoa64[v &&& 0x3f]?).getD 0 :: to64 (v >>> 6) n

/-- The salt in the argument: behind the magic string if that is there, up to the first dollar
sign and at most 8 bytes. -/
def trueSalt (salt : Bytes) : Bytes :=
  let sp := if magic.isPrefixOf salt then salt.drop magic.length else salt
  (sp.takeWhile (· != dollar)).take 8

/-- The password as it goes into a context: `MD5Update` takes its length as an `unsigned`. -/
def updated (pw : Bytes) : Bytes := pw.take (pw.length % 2 ^ 32)

/-- The loop that adds as many bytes of `final` as the password has. -/
def finalBytes (final : Bytes) (pl : ℤ) : Bytes :=
  if 0 < pl then final.take (if pl > 16 then 16 else pl.toNat) ++ finalBytes final (pl - 16)
  else []
termination_by pl.toNat

/-- The loop over the bits of the length, for at most the given number of rounds: for each bit
the first byte of `final`, which is zero now, or of the password. -/
def weirdBytes (pw : Bytes) : ℕ → ℤ → Option Bytes
  | 0, _ => none
  | rounds + 1, i =>
      if i = 0 then some []
      else (weirdBytes pw rounds (i >>> (1 : ℕ))).map fun rest =>
        (if i % 2 = 1 then 0 else pw.headD 0) :: rest

/-- What goes into the context of round `i` of the thousand rounds. -/
def roundBytes (pw salt final : Bytes) (i : ℕ) : Bytes :=
  (if i % 2 = 1 then updated pw else final) ++ (if i % 3 ≠ 0 then salt else []) ++
    (if i % 7 ≠ 0 then updated pw else []) ++ (if i % 2 = 1 then final else updated pw)

/-- The text of the digest. -/
def digestText (final : Digest) : Bytes :=
  to64 (final[0].toNat <<< 16 ||| final[6].toNat <<< 8 ||| final[12].toNat) 4 ++
    to64 (final[1].toNat <<< 16 ||| final[7].toNat <<< 8 ||| final[13].toNat) 4 ++
    to64 (final[2].toNat <<< 16 ||| final[8].toNat <<< 8 ||| final[14].toNat) 4 ++
    to64 (final[3].toNat <<< 16 ||| final[9].toNat <<< 8 ||| final[15].toNat) 4 ++
    to64 (final[4].toNat <<< 16 ||| final[10].toNat <<< 8 ||| final[5].toNat) 4 ++
    to64 final[11].toNat 2

/-- `crypt_md5`, as far as it comes with the given number of rounds of the loop over the bits
of the length. -/
def cryptMd5 (md5 : Bytes → Digest) (rounds : ℕ) (pw salt : Bytes) : Option Bytes :=
  let sp := trueSalt salt
  let final := md5 (updated pw ++ sp ++ updated pw)
  let front := updated pw ++ magic ++ sp ++ finalBytes final.toList (toInt32 pw.length)
  (weirdBytes pw rounds (toInt32 pw.length)).map fun weird =>
    let final := (List.range 1000).foldl
      (fun final i => md5 (roundBytes pw sp final.toList i)) (md5 (front ++ weird))
    magic ++ sp ++ [dollar] ++ digestText final

/-- A hash begins with the magic string. `verify_pwd` recognises it by this string. -/
theorem magic_prefix_of_cryptMd5 {md5 : Bytes → Digest} {rounds : ℕ} {pw salt hash : Bytes}
    (h : cryptMd5 md5 rounds pw salt = some hash) :
    ∃ text, hash = magic ++ (trueSalt salt ++ dollar :: text) := by
  obtain ⟨weird, -, rfl⟩ := Option.map_eq_some_iff.mp h
  have hsplit (text : Bytes) : magic ++ trueSalt salt ++ [dollar] ++ text =
      magic ++ (trueSalt salt ++ dollar :: text) := by
    rw [List.append_assoc, List.append_assoc, List.singleton_append]
  exact ⟨_, hsplit _⟩

/-- The salt of a hash is the salt that it was made with: it has no dollar sign, and one stands
behind it. -/
theorem trueSalt_hash (salt text : Bytes) :
    trueSalt (magic ++ (trueSalt salt ++ dollar :: text)) = trueSalt salt := by
  have hdollar : ∀ c ∈ trueSalt salt, (c != dollar) = true := by
    intro c hc
    unfold trueSalt at hc
    exact List.mem_takeWhile_imp (p := (· != dollar)) (List.mem_of_mem_take hc)
  have hshort : (trueSalt salt).length ≤ 8 := List.length_take_le _ _
  generalize trueSalt salt = s at hdollar hshort
  have hfront : magic.isPrefixOf (magic ++ (s ++ dollar :: text)) = true :=
    List.isPrefixOf_iff_prefix.mpr (List.prefix_append _ _)
  unfold trueSalt
  dsimp only
  rw [if_pos hfront, List.drop_left, takeWhile_append_of_neg hdollar (by decide),
    List.take_of_length_le hshort]

/-- **A hash as the salt.** What `crypt_md5` computes depends on the salt in its argument only,
so with a hash as the argument it gives that hash for the password. -/
theorem cryptMd5_hash {md5 : Bytes → Digest} {rounds : ℕ} {pw salt hash : Bytes}
    (h : cryptMd5 md5 rounds pw salt = some hash) : cryptMd5 md5 rounds pw hash = some hash := by
  obtain ⟨text, hhash⟩ := magic_prefix_of_cryptMd5 h
  have hsalt : trueSalt hash = trueSalt salt := by rw [hhash, trueSalt_hash]
  rw [← h]
  unfold cryptMd5
  rw [hsalt]

/-- A negative number has bits without end. The shift keeps the sign, so the number never becomes
zero. -/
theorem weirdBytes_of_neg (pw : Bytes) (rounds : ℕ) {i : ℤ} (hi : i < 0) :
    weirdBytes pw rounds i = none := by
  induction rounds generalizing i with
  | zero => rfl
  | succ rounds ih =>
    have hhalf : i >>> (1 : ℕ) < 0 := by
      rw [Int.shiftRight_eq_div_pow]
      omega
    rw [weirdBytes, if_neg (by omega), ih hhalf, Option.map_none]

/-- The loop ends for every other number. The number is halved until it is zero. -/
theorem exists_weirdBytes (pw : Bytes) {i : ℤ} (hi : 0 ≤ i) :
    ∃ rounds, (weirdBytes pw rounds i).isSome = true := by
  induction hn : i.toNat using Nat.strong_induction_on generalizing i with
  | _ n ih =>
    rcases hi.eq_or_lt with rfl | hpos
    · exact ⟨1, rfl⟩
    · have hhalf : i >>> (1 : ℕ) = i / 2 := Int.shiftRight_eq_div_pow i 1
      obtain ⟨rounds, hrounds⟩ := ih (i >>> (1 : ℕ)).toNat (by omega) (by omega) rfl
      refine ⟨rounds + 1, ?_⟩
      rw [weirdBytes, if_neg (by omega), Option.isSome_map]
      exact hrounds

/-- **Termination of `crypt_md5`.** It returns exactly if the length of the password is not
negative as an `int`. -/
theorem exists_cryptMd5_iff (md5 : Bytes → Digest) (pw salt : Bytes) :
    (∃ rounds, (cryptMd5 md5 rounds pw salt).isSome = true) ↔ 0 ≤ toInt32 pw.length := by
  unfold cryptMd5
  dsimp only
  simp only [Option.isSome_map]
  constructor
  · rintro ⟨rounds, hrounds⟩
    by_contra hneg
    rw [weirdBytes_of_neg pw rounds (by omega)] at hrounds
    cases hrounds
  · exact exists_weirdBytes pw

end DeepinPwCheck
