import DeepinPwCheck.Hash.ChainedBlocks
import DeepinPwCheck.Text.Bytes

/-!
# `bigcrypt`

`bigcrypt` hashes a key in segments of 8 bytes. The first segment is hashed with the salt of
the caller, and each later one with the salt that the output of the segment before it begins
with. The loop over the segments computes a chain of blocks, which gives the shape of a hash
and what it depends on. `crypt` of the C library is a parameter, and memory is available.
-/

namespace DeepinPwCheck

open CText ChainedBlocks

/-- `crypt` of the C library: a key and a salt give a hash, or no hash. -/
abbrev Crypt := Bytes → Bytes → Option Bytes

/-- The segments that are hashed at most. -/
abbrev maxPassLen : ℕ := 16
/-- The bytes of a segment of the key. -/
abbrev segmentSize : ℕ := 8
/-- The bytes of a salt. -/
abbrev saltSize : ℕ := 2
/-- The bytes of the key that are copied. -/
abbrev keybufSize : ℕ := maxPassLen * segmentSize + saltSize
/-- The bytes of the hash of a segment. -/
abbrev esegmentSize : ℕ := 11
/-- The bytes of the buffer for the hash. -/
abbrev cbufSize : ℕ := maxPassLen * esegmentSize + saltSize + 1

/-- `strncpy`: at most `n` bytes of the string, and NUL bytes up to `n`. -/
def strncpy (s : Bytes) (n : ℕ) : Bytes := s.take n ++ List.replicate (n - s.length) 0

/-- The string in `keybuf`. It ends early if the salt has the length of a hash. -/
def keybuf (key salt : Bytes) : Bytes :=
  if salt.length = saltSize + esegmentSize then (key.take keybufSize).take segmentSize
  else key.take keybufSize

/-- `n_seg`, the number of segments. -/
def nSeg (keylen : ℕ) : ℕ :=
  let n := if keylen = 0 then 1 else 1 + (keylen - 1) / segmentSize
  if n > maxPassLen then maxPassLen else n

/-- The loop of `bigcrypt` for as many more segments. `plaintext` is the offset of
`plaintext_ptr` in `keybuf`, and `cipher` is what has been written: `cipher_ptr` is its end, and
`salt_ptr` is 11 bytes before that. -/
def bigcryptLoop (crypt : Crypt) (keybuf : Bytes) : ℕ → ℕ → Bytes → Option Bytes
  | 0, _, cipher => some cipher
  | n + 1, plaintext, cipher =>
      match crypt (keybuf.drop plaintext)
          (cString (cipher.drop (cipher.length - esegmentSize))) with
      | none => none
      | some tmp =>
          bigcryptLoop crypt keybuf n (plaintext + segmentSize)
            (cipher ++ strncpy (tmp.drop saltSize) esegmentSize)

/-- `bigcrypt`. -/
def bigcrypt (crypt : Crypt) (key salt : Bytes) : Option Bytes :=
  match crypt (keybuf key salt) salt with
  | none => none
  | some tmp =>
      (bigcryptLoop crypt (keybuf key salt) (nSeg (keybuf key salt).length - 1) segmentSize
        (strncpy tmp (saltSize + esegmentSize))).map cString

/-- What is relied on of `crypt` under salts that begin with 2 bytes of an alphabet: it looks at
these 2 bytes and at the first 8 bytes of the key, and returns the 2 bytes and 11 more of the
alphabet. Nothing is said of other salts, under which it may read the whole key. -/
structure CryptLaws (crypt : Crypt) (alphabet : Byte → Prop) : Prop where
  eq_take : ∀ key salt, saltSize ≤ salt.length → (∀ c ∈ salt.take saltSize, alphabet c) →
    crypt key salt = crypt (key.take segmentSize) (salt.take saltSize)
  shape : ∀ key salt, saltSize ≤ salt.length → (∀ c ∈ salt.take saltSize, alphabet c) →
    ∃ out, crypt key salt = some (salt.take saltSize ++ out) ∧ out.length = esegmentSize ∧
      ∀ c ∈ out, alphabet c

/-- The characters of salts and hashes, the table `valid` of `strip_hpux_aging`. -/
def isValid (c : Byte) : Bool :=
  (65 ≤ c && c ≤ 90) || (97 ≤ c && c ≤ 122) || (48 ≤ c && c ≤ 57) || c == 46 || c == 47

/-- The hash of one segment without the salt. -/
def segment (crypt : Crypt) (plaintext salt : Bytes) : Bytes :=
  ((crypt plaintext salt).getD []).drop saltSize

/-- The hashes of the segments of a key, without the salt of the first. -/
def segments (crypt : Crypt) (salt : Bytes) (n : ℕ) (key : Bytes) : List Bytes :=
  chain (segment crypt) salt (blocks segmentSize n key)

/-- A salt: its two bytes are of the alphabet. -/
def IsSalt (alphabet : Byte → Prop) (salt : Bytes) : Prop :=
  saltSize ≤ salt.length ∧ ∀ c ∈ salt.take saltSize, alphabet c

section

variable {crypt : Crypt} {alphabet : Byte → Prop} {salt : Bytes}

/-- A string of the length that is asked for is copied without padding. Salts and segments are
copied in this way. -/
theorem strncpy_eq_self {s : Bytes} {n : ℕ} (hs : s.length = n) : strncpy s n = s := by
  unfold strncpy
  rw [← hs, List.take_length, Nat.sub_self, List.replicate_zero, List.append_nil]

/-- The two bytes of a salt. -/
theorem IsSalt.length_take (hsalt : IsSalt alphabet salt) :
    (salt.take saltSize).length = saltSize := by
  rw [List.length_take, Nat.min_eq_left hsalt.1]

/-- A salt is one by its first two bytes. `crypt` reads no further bytes of it. -/
theorem IsSalt.congr (hsalt : IsSalt alphabet salt) {salt' : Bytes}
    (h : salt.take saltSize = salt'.take saltSize) : IsSalt alphabet salt' := by
  refine ⟨?_, by rw [← h]; exact hsalt.2⟩
  have hlength := congrArg List.length h
  rw [hsalt.length_take, List.length_take] at hlength
  omega

/-- A string that is as long as the hash of a segment can be a salt. Every segment but the first
has the hash of the one before it as its salt. -/
theorem isSalt_of_length (hlength : salt.length = esegmentSize) (h : ∀ c ∈ salt, alphabet c) :
    IsSalt alphabet salt := by
  refine ⟨?_, fun c hc => h c (List.mem_of_mem_take hc)⟩
  rw [hlength]
  decide

/-- The hash of a segment has 11 bytes of the alphabet. -/
theorem CryptLaws.segment_spec (laws : CryptLaws crypt alphabet) (hsalt : IsSalt alphabet salt)
    (plaintext : Bytes) :
    crypt plaintext salt = some (salt.take saltSize ++ segment crypt plaintext salt) ∧
      (segment crypt plaintext salt).length = esegmentSize ∧
      ∀ c ∈ segment crypt plaintext salt, alphabet c := by
  obtain ⟨out, hout, hlength, halphabet⟩ := laws.shape plaintext salt hsalt.1 hsalt.2
  have htwo := hsalt.length_take
  have hsegment : segment crypt plaintext salt = out := by
    unfold segment
    rw [hout, Option.getD_some, List.drop_append_of_le_length htwo.ge,
      List.drop_of_length_le htwo.le, List.nil_append]
  rw [hsegment]
  exact ⟨hout, hlength, halphabet⟩

/-- The hash of a segment is a salt. The induction over the segments needs it to go on. -/
theorem CryptLaws.isSalt_segment (laws : CryptLaws crypt alphabet) (hsalt : IsSalt alphabet salt)
    (plaintext : Bytes) : IsSalt alphabet (segment crypt plaintext salt) := by
  obtain ⟨-, hlength, halphabet⟩ := laws.segment_spec hsalt plaintext
  exact isSalt_of_length hlength halphabet

/-- Every segment has a hash of 11 bytes of the alphabet. The length of the whole hash is a
multiple because of it. -/
theorem CryptLaws.segments_spec (laws : CryptLaws crypt alphabet) (hsalt : IsSalt alphabet salt)
    (n : ℕ) (key : Bytes) :
    ∀ out ∈ segments crypt salt n key,
      out.length = esegmentSize ∧ ∀ c ∈ out, alphabet c := by
  refine forall_mem_chain (fun b => (laws.segment_spec hsalt b).2) ?_ _
  rintro b out ⟨hlength, halphabet⟩
  exact (laws.segment_spec (isSalt_of_length hlength halphabet) b).2

/-- Only the first bytes of the segment and of the salt matter. Keys that agree in a segment have
the same hash of it. -/
theorem CryptLaws.segment_congr (laws : CryptLaws crypt alphabet) (hsalt : IsSalt alphabet salt)
    {plaintext plaintext' salt' : Bytes}
    (hplaintext : plaintext.take segmentSize = plaintext'.take segmentSize)
    (hfront : salt.take saltSize = salt'.take saltSize) :
    segment crypt plaintext salt = segment crypt plaintext' salt' := by
  have hsalt' := hsalt.congr hfront
  unfold segment
  rw [laws.eq_take plaintext salt hsalt.1 hsalt.2, laws.eq_take plaintext' salt' hsalt'.1 hsalt'.2,
    hplaintext, hfront]

/-- The first segment, and the segments behind it with its hash as the salt. The induction over
the segments of a key follows it. -/
theorem CryptLaws.segments_succ (laws : CryptLaws crypt alphabet) (hsalt : IsSalt alphabet salt)
    (n : ℕ) (key : Bytes) :
    segments crypt salt (n + 1) key = segment crypt key salt ::
      segments crypt (segment crypt key salt) n (key.drop segmentSize) := by
  have hblock : segment crypt (key.take segmentSize) salt = segment crypt key salt :=
    laws.segment_congr hsalt (by rw [List.take_take, Nat.min_self]) rfl
  rw [segments, segments, blocks_succ, chain, hblock]

/-- **The loop over the segments.** It writes the chain that goes on from the last segment. -/
theorem CryptLaws.bigcryptLoop_eq (laws : CryptLaws crypt alphabet) (hzero : ¬alphabet 0)
    (keybuf : Bytes) (n plaintext : ℕ) (front : Bytes) {last : Bytes}
    (hlast : last.length = esegmentSize) (halphabet : ∀ c ∈ last, alphabet c) :
    bigcryptLoop crypt keybuf n plaintext (front ++ last) =
      some (front ++ last ++ (segments crypt last n (keybuf.drop plaintext)).flatten) := by
  induction n generalizing plaintext front last with
  | zero => simp [bigcryptLoop, segments, blocks, chain]
  | succ n ih =>
    have hsalt := isSalt_of_length hlast halphabet
    obtain ⟨hcrypt, hlength, hnext⟩ := laws.segment_spec hsalt (keybuf.drop plaintext)
    have hpointer : (front ++ last).drop ((front ++ last).length - esegmentSize) = last := by
      rw [List.length_append, hlast, Nat.add_sub_cancel, List.drop_left]
    have htwo := hsalt.length_take
    rw [bigcryptLoop, hpointer, cString_eq_self fun h => hzero (halphabet 0 h), hcrypt]
    dsimp only
    rw [List.drop_append_of_le_length htwo.ge, List.drop_of_length_le htwo.le, List.nil_append,
      strncpy_eq_self hlength, ih (plaintext + segmentSize) (front ++ last) hlength hnext,
      ← List.drop_drop, laws.segments_succ hsalt, List.flatten_cons]
    simp

/-- The number of segments in closed form. The source counts it with a rounded division and a
bound. -/
theorem nSeg_eq (keylen : ℕ) : nSeg keylen = min 16 (max 1 ((keylen + 7) / 8)) := by
  unfold nSeg
  dsimp only [maxPassLen, segmentSize]
  split_ifs <;> omega

/-- There is a first segment. An empty key has one as well. -/
theorem exists_nSeg_eq (keylen : ℕ) : ∃ n, nSeg keylen = n + 1 := by
  refine ⟨nSeg keylen - 1, ?_⟩
  rw [nSeg_eq]
  omega

/-- **The hash of a key.** The salt, and the chain of the hashes of its segments. -/
theorem CryptLaws.bigcrypt_eq (laws : CryptLaws crypt alphabet) (hzero : ¬alphabet 0)
    (hsalt : IsSalt alphabet salt) (key : Bytes) :
    bigcrypt crypt key salt = some (salt.take saltSize ++
      (segments crypt salt (nSeg (keybuf key salt).length) (keybuf key salt)).flatten) := by
  obtain ⟨hcrypt, hlength, halphabet⟩ := laws.segment_spec hsalt (keybuf key salt)
  obtain ⟨n, hn⟩ := exists_nSeg_eq (keybuf key salt).length
  have hfirst : (salt.take saltSize ++ segment crypt (keybuf key salt) salt).length =
      saltSize + esegmentSize := by
    rw [List.length_append, hlength, hsalt.length_take]
  have hhash : ∀ c ∈ salt.take saltSize ++ segment crypt (keybuf key salt) salt ++
      (segments crypt (segment crypt (keybuf key salt) salt) n
        ((keybuf key salt).drop segmentSize)).flatten, alphabet c := by
    intro c hc
    rw [List.mem_append, List.mem_append, List.mem_flatten] at hc
    rcases hc with (hc | hc) | ⟨out, hout, hc⟩
    · exact hsalt.2 c hc
    · exact halphabet c hc
    · exact (laws.segments_spec (laws.isSalt_segment hsalt _) n _ out hout).2 c hc
  unfold bigcrypt
  rw [hcrypt]
  dsimp only
  rw [strncpy_eq_self hfirst, hn, Nat.add_sub_cancel,
    laws.bigcryptLoop_eq hzero (keybuf key salt) n segmentSize (salt.take saltSize) hlength
      halphabet, Option.map_some, cString_eq_self fun h => hzero (hhash 0 h),
    laws.segments_succ hsalt, List.flatten_cons, List.append_assoc]

/-- The hash of a key under a salt that has not the length of a hash. -/
def fullHash (crypt : Crypt) (salt key : Bytes) : Bytes :=
  salt.take saltSize ++ (segments crypt salt (nSeg key.length) key).flatten

/-- The bytes of the key behind the last segment make no difference. It is where the cut at 128
bytes comes from. -/
theorem fullHash_take {m : ℕ} (hm : 128 ≤ m) (key : Bytes) :
    fullHash crypt salt (key.take m) = fullHash crypt salt key := by
  have hn : nSeg (key.take m).length = nSeg key.length := by
    rw [List.length_take, nSeg_eq, nSeg_eq]
    omega
  have hblocks : blocks segmentSize (nSeg key.length) (key.take m) =
      blocks segmentSize (nSeg key.length) key := by
    refine blocks_take ?_ key
    rw [nSeg_eq]
    dsimp only [segmentSize]
    omega
  rw [fullHash, fullHash, hn, segments, segments, hblocks]

/-- Only the first bytes of the salt matter to the hash. A stored hash can serve as a salt as it
stands. -/
theorem CryptLaws.fullHash_congr (laws : CryptLaws crypt alphabet) (hsalt : IsSalt alphabet salt)
    {salt' : Bytes} (hfront : salt.take saltSize = salt'.take saltSize) (key : Bytes) :
    fullHash crypt salt key = fullHash crypt salt' key := by
  unfold fullHash segments
  rw [hfront, chain_congr fun b => laws.segment_congr hsalt rfl hfront]

/-- The hash is of the alphabet, and it has 11 bytes for each segment behind the salt. The theorem
on its shape is read off this. -/
theorem CryptLaws.fullHash_spec (laws : CryptLaws crypt alphabet) (hsalt : IsSalt alphabet salt)
    (key : Bytes) :
    (fullHash crypt salt key).length = 2 + 11 * nSeg key.length ∧
      ∀ c ∈ fullHash crypt salt key, alphabet c := by
  have hsegments := laws.segments_spec hsalt (nSeg key.length) key
  refine ⟨?_, ?_⟩
  · have hsum := length_flatten_chain fun out hout => (hsegments out hout).1
    unfold fullHash
    rw [List.length_append, hsalt.length_take, segments, hsum, length_blocks]
  · intro c hc
    rcases List.mem_append.mp hc with hc | hc
    · exact hsalt.2 c hc
    · obtain ⟨out, hout, hc⟩ := List.mem_flatten.mp hc
      exact (hsegments out hout).2 c hc

/-- The first 13 bytes of the hash are the hash of the first segment. A hash of `bigcrypt`
therefore begins with one of `crypt`. -/
theorem CryptLaws.take_fullHash (laws : CryptLaws crypt alphabet) (hsalt : IsSalt alphabet salt)
    (key : Bytes) :
    (fullHash crypt salt key).take 13 = salt.take saltSize ++ segment crypt key salt := by
  obtain ⟨n, hn⟩ := exists_nSeg_eq key.length
  have hfirst : (salt.take saltSize ++ segment crypt key salt).length = 13 := by
    rw [List.length_append, (laws.segment_spec hsalt key).2.1, hsalt.length_take]
    rfl
  unfold fullHash
  rw [hn, laws.segments_succ hsalt, List.flatten_cons, ← List.append_assoc, ← hfirst,
    List.take_left]

/-- **The hash of a key under any salt.** The bytes of the key behind the last segment make no
difference, and under a salt of the length of a hash only the first segment is hashed. -/
theorem CryptLaws.bigcrypt_eq_fullHash (laws : CryptLaws crypt alphabet) (hzero : ¬alphabet 0)
    (hsalt : IsSalt alphabet salt) (key : Bytes) :
    bigcrypt crypt key salt = some
      (if salt.length = 13 then (fullHash crypt salt key).take 13
        else fullHash crypt salt key) := by
  have hthirteen : saltSize + esegmentSize = 13 := rfl
  rw [laws.bigcrypt_eq hzero hsalt]
  unfold keybuf
  rw [hthirteen]
  split_ifs with hlength
  · have hn : nSeg ((key.take keybufSize).take segmentSize).length = 1 := by
      rw [List.length_take, nSeg_eq]
      dsimp only [segmentSize]
      omega
    have hblock : segment crypt ((key.take keybufSize).take segmentSize) salt =
        segment crypt key salt :=
      laws.segment_congr hsalt (by simp only [List.take_take]; rfl) rfl
    rw [hn, laws.segments_succ hsalt, hblock, laws.take_fullHash hsalt]
    simp [segments, blocks, chain]
  · have hkey : fullHash crypt salt (key.take keybufSize) = fullHash crypt salt key :=
      fullHash_take (by decide) key
    rw [← hkey]
    rfl

/-- **The shape of a hash.** With `n` segments, at most 16 and at least one, the hash of a key
under a salt of two bytes has `13 + 11 * (n - 1)` bytes, which fit into the buffer with the
terminator; it is the hash of the first 128 bytes of the key; and if the key consists of whole
segments, the hash of every longer key that begins with it begins with it. -/
theorem bigcrypt_shape (laws : CryptLaws crypt (· ≠ 0)) (hsalt : salt.length = saltSize)
    (hnul : 0 ∉ salt) (key : Bytes) :
    ∃ hash, bigcrypt crypt key salt = some hash ∧
      hash.length = 13 + 11 * (min 16 (max 1 ((key.length + 7) / 8)) - 1) ∧
      hash.length ≤ cbufSize - 1 ∧
      bigcrypt crypt (key.take 128) salt = some hash ∧
      (0 < key.length → 8 ∣ key.length → ∀ longer, key <+: longer →
        ∃ hash', bigcrypt crypt longer salt = some hash' ∧ hash <+: hash') := by
  have hzero : ¬((0 : Byte) ≠ 0) := not_not.mpr rfl
  have halphabet : ∀ c ∈ salt, c ≠ 0 := fun c hc h => hnul (h ▸ hc)
  have hIsSalt : IsSalt (· ≠ 0) salt :=
    ⟨hsalt.ge, fun c hc => halphabet c (List.mem_of_mem_take hc)⟩
  have hhash (key : Bytes) : bigcrypt crypt key salt = some (fullHash crypt salt key) := by
    rw [laws.bigcrypt_eq_fullHash hzero hIsSalt, if_neg (by rw [hsalt]; decide)]
  have hlength := (laws.fullHash_spec hIsSalt key).1
  refine ⟨_, hhash key, ?_, ?_, ?_, ?_⟩
  · rw [hlength, nSeg_eq]
    omega
  · rw [hlength, nSeg_eq]
    dsimp only [cbufSize, maxPassLen, esegmentSize, saltSize]
    omega
  · rw [hhash, fullHash_take le_rfl]
  · intro hpos hwhole longer hfront
    refine ⟨_, hhash longer, ?_⟩
    have hle := hfront.length_le
    have hblocks : blocks segmentSize (nSeg key.length) key <+:
        blocks segmentSize (nSeg longer.length) longer := by
      refine prefix_blocks ?_ ?_ hfront
      · rw [nSeg_eq, nSeg_eq]
        omega
      · rw [nSeg_eq]
        dsimp only [segmentSize]
        omega
    exact (List.prefix_append_right_inj (salt.take saltSize)).mpr
      ((prefix_chain (segment crypt) salt hblocks).flatten)

end

/-- The hashes of `password` under `ab` and of `12` under `Jn`, and dots for everything else. -/
def sampleCrypt : Crypt := fun key salt =>
  some (salt.take saltSize ++
    if key.take segmentSize = bytes "password" ∧ salt.take saltSize = bytes "ab" then
      bytes "JnggxhB/yWI"
    else if key.take segmentSize = bytes "12" ∧ salt.take saltSize = bytes "Jn" then
      bytes "H9FUg53VKs6"
    else List.replicate esegmentSize 46)

/-- The laws of `crypt` hold of the sample, for every alphabet with its characters. -/
theorem sampleCrypt_laws {alphabet : Byte → Prop} (h : ∀ c, isValid c = true → alphabet c) :
    CryptLaws sampleCrypt alphabet := by
  constructor
  · intro key salt _ _
    unfold sampleCrypt
    rw [List.take_take, List.take_take, Nat.min_self, Nat.min_self]
  · intro key salt _ _
    refine ⟨_, rfl, ?_, ?_⟩
    · split_ifs <;> decide
    · intro c hc
      refine h c ?_
      revert c
      split_ifs <;> decide +kernel

/-- A key of one whole segment. -/
theorem bigcrypt_shape_password :
    ∃ hash, bigcrypt sampleCrypt (bytes "password") (bytes "ab") = some hash ∧
      hash.length = 13 + 11 * (min 16 (max 1 (((bytes "password").length + 7) / 8)) - 1) ∧
      hash.length ≤ cbufSize - 1 ∧
      bigcrypt sampleCrypt ((bytes "password").take 128) (bytes "ab") = some hash ∧
      (0 < (bytes "password").length → 8 ∣ (bytes "password").length →
        ∀ longer, bytes "password" <+: longer →
          ∃ hash', bigcrypt sampleCrypt longer (bytes "ab") = some hash' ∧ hash <+: hash') :=
  bigcrypt_shape (sampleCrypt_laws fun c hc h => absurd (h ▸ hc) (by decide)) (by decide)
    (by decide) (bytes "password")

example : bigcrypt sampleCrypt (bytes "password12") (bytes "ab") =
    some (bytes "abJnggxhB/yWIH9FUg53VKs6") := by decide +kernel

end DeepinPwCheck
