import DeepinPwCheck.Text.Bytes
import Mathlib.Data.Nat.Digits.Lemmas

/-!
# Numbers in text

`printf` with `%d` and `strtol` with base 0, which reads decimal, octal and
hexadecimal numbers. What `%d` prints, `strtol` reads back.
-/

namespace CText

/-- The character of a decimal digit. -/
def digitByte (d : ℕ) : Byte := UInt8.ofNat (48 + d)

/-- The decimal digits of a natural number, most significant first. -/
def decimalNat (n : ℕ) : Bytes :=
  if n = 0 then [48] else (Nat.digits 10 n).reverse.map digitByte

/-- The conversion `%d`. -/
def decimal (z : ℤ) : Bytes := if z < 0 then 45 :: decimalNat z.natAbs else decimalNat z.natAbs

/-- The value of a digit in a base up to 36, and 36 for any other byte. -/
def digitValue (c : Byte) : ℕ :=
  if 48 ≤ c && c ≤ 57 then c.toNat - 48
  else if 97 ≤ c && c ≤ 122 then c.toNat - 87
  else if 65 ≤ c && c ≤ 90 then c.toNat - 55
  else 36

/-- The number that the longest prefix of digits denotes. -/
def magnitude (base : ℕ) (s : Bytes) : ℕ :=
  (s.takeWhile fun c => decide (digitValue c < base)).foldl (fun n c => n * base + digitValue c) 0

/-- The unsigned part of `strtol` with base 0: a leading `0x` selects hexadecimal, any
other leading zero octal. -/
def strtolMagnitude (s : Bytes) : ℕ :=
  if s.head? = some 48 then
    if s[1]? = some 120 ∨ s[1]? = some 88 then magnitude 16 (s.drop 2) else magnitude 8 s
  else magnitude 10 s

/-- `strtol` with base 0, for a 64-bit `long`. -/
def strtol (s : Bytes) : ℤ :=
  match s.dropWhile isSpace with
  | [] => 0
  | sign :: rest =>
      if sign = 45 then max (-(strtolMagnitude rest : ℤ)) (-2 ^ 63)
      else if sign = 43 then min (strtolMagnitude rest : ℤ) (2 ^ 63 - 1)
      else min (strtolMagnitude (sign :: rest) : ℤ) (2 ^ 63 - 1)

/-- The conversion of a `long` to a 32-bit `int`. -/
def toInt32 (z : ℤ) : ℤ := z.bmod (2 ^ 32)

/-- The decimal digits. -/
def isDigit (c : Byte) : Bool := 48 ≤ c && c ≤ 57

/-- The bytes that `%d` prints: the minus sign and the digits. -/
def isNumeral (c : Byte) : Bool := c == 45 || isDigit c

private theorem digitByte_digit {d : ℕ} (hd : d < 10) : isDigit (digitByte d) = true := by
  have h : ∀ d : Fin 10, isDigit (digitByte d) = true := by decide
  exact h ⟨d, hd⟩

private theorem digitValue_digitByte {d : ℕ} (hd : d < 10) : digitValue (digitByte d) = d := by
  have h : ∀ d : Fin 10, digitValue (digitByte d) = d := by decide
  exact h ⟨d, hd⟩

private theorem digits_lt_ten {n d : ℕ} (hd : d ∈ Nat.digits 10 n) : d < 10 :=
  Nat.digits_lt_base (by omega) hd

/-- The digits of a number are digits. `strtol` takes all of them, and stops at what
follows. -/
theorem decimalNat_digit {n : ℕ} {c : Byte} (hc : c ∈ decimalNat n) : isDigit c = true := by
  unfold decimalNat at hc
  split_ifs at hc
  · rw [List.mem_singleton.mp hc]
    decide
  · obtain ⟨d, hd, rfl⟩ := List.mem_map.mp hc
    exact digitByte_digit (digits_lt_ten (List.mem_reverse.mp hd))

/-- `%d` prints nothing but a minus sign and digits. So a number needs no quotes, begins no
comment and does not make its line go on. -/
theorem decimal_numeral {z : ℤ} {c : Byte} (hc : c ∈ decimal z) : isNumeral c = true := by
  unfold decimal at hc
  split_ifs at hc
  · rcases List.mem_cons.mp hc with rfl | hc
    · decide
    · simp [isNumeral, decimalNat_digit hc]
  · simp [isNumeral, decimalNat_digit hc]

/-- Digits, the most significant first, read in base ten. The round trip of numbers rests on
it. -/
theorem magnitude_ofDigits {ds : List ℕ} (hds : ∀ d ∈ ds, d < 10) :
    magnitude 10 (ds.reverse.map digitByte) = Nat.ofDigits 10 ds := by
  have hall : ∀ c ∈ ds.reverse.map digitByte, decide (digitValue c < 10) = true := by
    intro c hc
    obtain ⟨d, hd, rfl⟩ := List.mem_map.mp hc
    have hlt := hds d (List.mem_reverse.mp hd)
    rw [digitValue_digitByte hlt]
    exact decide_eq_true hlt
  unfold magnitude
  rw [List.takeWhile_eq_self_iff.mpr hall, List.foldl_map, List.foldl_reverse,
    Nat.ofDigits_eq_foldr]
  apply List.foldr_ext
  intro d hd m
  rw [digitValue_digitByte (hds d hd)]
  simp only [Nat.cast_id]
  ring

/-- The digits of a positive number do not begin with a zero. Base 0 of `strtol` would read a
leading zero as the sign of an octal number. -/
theorem decimalNat_head {n : ℕ} (hn : n ≠ 0) : (decimalNat n).head? ≠ some 48 := by
  have hne : Nat.digits 10 n ≠ [] := Nat.digits_ne_nil_iff_ne_zero.mpr hn
  have hlast := Nat.getLast_digit_ne_zero 10 hn
  have hlt := digits_lt_ten (List.getLast_mem hne)
  unfold decimalNat
  rw [if_neg hn, List.head?_map, List.head?_reverse, List.getLast?_eq_getLast_of_ne_nil hne]
  intro h
  have hvalue := digitValue_digitByte hlt
  rw [Option.some.inj h] at hvalue
  exact hlast hvalue.symm

/-- The first digits of a number are what division by a power of ten leaves of it. A short write
leaves such a number behind. -/
theorem strtolMagnitude_take_decimalNat (n k : ℕ) :
    strtolMagnitude ((decimalNat n).take k) = n / 10 ^ ((decimalNat n).length - k) := by
  by_cases hn : n = 0
  · subst hn
    rw [Nat.zero_div]
    cases k with
    | zero => rfl
    | succ k =>
      have hzero : (decimalNat 0).take (k + 1) = [48] :=
        List.take_of_length_le (by simp [decimalNat])
      rw [hzero]
      decide
  · have hdigits : decimalNat n = (Nat.digits 10 n).reverse.map digitByte := if_neg hn
    have hhead : ((decimalNat n).take k).head? ≠ some 48 := by
      cases k with
      | zero => simp
      | succ k =>
        rw [List.head?_take, if_neg (by omega)]
        exact decimalNat_head hn
    have hlength : (decimalNat n).length = (Nat.digits 10 n).length := by simp [hdigits]
    have hdrop : (decimalNat n).take k =
        ((Nat.digits 10 n).drop ((decimalNat n).length - k)).reverse.map digitByte := by
      rw [hlength, hdigits, ← List.map_take, List.take_reverse]
    rw [strtolMagnitude, if_neg hhead, hdrop, magnitude_ofDigits,
      Nat.self_div_pow_eq_ofDigits_drop _ _ (by decide)]
    exact fun d hd => digits_lt_ten (List.mem_of_mem_drop hd)

/-- Nothing is left of a number after as many divisions as it has digits. A number that was cut
down to nothing reads as zero. -/
theorem tdiv_eq_zero_of_length_le {z : ℤ} {m : ℕ} (hm : (decimal z).length ≤ m) :
    z.tdiv (10 ^ m) = 0 := by
  have hnone := strtolMagnitude_take_decimalNat z.natAbs 0
  have hzero : z.natAbs / 10 ^ (decimalNat z.natAbs).length = 0 := hnone.symm
  have hlength : (decimalNat z.natAbs).length ≤ (decimal z).length := by
    unfold decimal
    split_ifs <;> simp
  have hlt := (Nat.div_eq_zero_iff_lt (by positivity)).mp hzero
  have hle : 10 ^ (decimalNat z.natAbs).length ≤ 10 ^ m :=
    Nat.pow_le_pow_right (by decide) (hlength.trans hm)
  rw [← Int.natAbs_eq_zero, Int.natAbs_tdiv, Int.natAbs_pow]
  exact Nat.div_eq_of_lt (hlt.trans_le hle)

/-- **A number that is cut off.** What `strtol` reads in the first bytes of a printed number is
the number without its last digits. -/
theorem strtol_take_decimal {z : ℤ} (hlow : -2 ^ 63 ≤ z) (hhigh : z < 2 ^ 63) (k : ℕ) :
    strtol ((decimal z).take k) = z.tdiv (10 ^ ((decimal z).length - k)) := by
  have hnatural (n m : ℕ) : (n : ℤ).tdiv (10 ^ m) = ((n / 10 ^ m : ℕ) : ℤ) := by
    rw [Int.ofNat_tdiv]
    norm_cast
  have hle (m : ℕ) : z.natAbs / 10 ^ m ≤ z.natAbs := Nat.div_le_self _ _
  rcases k with _ | k
  · rw [List.take_zero, Nat.sub_zero, tdiv_eq_zero_of_length_le le_rfl]
    rfl
  unfold decimal
  split_ifs with hneg
  · have hquotient (m : ℕ) : z.tdiv (10 ^ m) = -((z.natAbs / 10 ^ m : ℕ) : ℤ) := by
      rw [← hnatural, ← Int.neg_tdiv]
      congr 1
      omega
    have hsign : isSpace 45 = false := by decide
    have hbound := hle ((decimalNat z.natAbs).length - k)
    rw [hquotient]
    unfold strtol
    rw [List.take_succ_cons, List.dropWhile_cons_of_neg (by simp [hsign]), List.length_cons,
      Nat.add_sub_add_right]
    simp only [if_true, strtolMagnitude_take_decimalNat]
    omega
  · have hquotient (m : ℕ) : z.tdiv (10 ^ m) = ((z.natAbs / 10 ^ m : ℕ) : ℤ) := by
      rw [← hnatural]
      congr 1
      omega
    have hread := strtolMagnitude_take_decimalNat z.natAbs (k + 1)
    have hbound := hle ((decimalNat z.natAbs).length - (k + 1))
    rw [hquotient, ← hread]
    rw [← hread] at hbound
    cases htake : (decimalNat z.natAbs).take (k + 1) with
    | nil => rfl
    | cons c rest =>
      have hmem : c ∈ decimalNat z.natAbs := List.mem_of_mem_take (i := k + 1) (by simp [htake])
      have hc : isDigit c = true := decimalNat_digit hmem
      have hclass : isSpace c = false ∧ c ≠ 45 ∧ c ≠ 43 := by
        unfold isDigit at hc
        unfold isSpace
        grind
      rw [htake] at hbound
      unfold strtol
      rw [List.dropWhile_cons_of_neg (by simp [hclass.1])]
      simp only [if_neg hclass.2.1, if_neg hclass.2.2]
      omega

/-- **Round trip of numbers.** What `%d` prints is read back by `strtol` with base 0. -/
theorem strtol_decimal {z : ℤ} (hlow : -2 ^ 63 ≤ z) (hhigh : z < 2 ^ 63) :
    strtol (decimal z) = z := by
  have hwhole := strtol_take_decimal hlow hhigh (decimal z).length
  rwa [List.take_length, Nat.sub_self, pow_zero, Int.tdiv_one] at hwhole

/-- The values of a 32-bit `int`. -/
def IsInt32 (z : ℤ) : Prop := -2 ^ 31 ≤ z ∧ z < 2 ^ 31

instance (z : ℤ) : Decidable (IsInt32 z) := inferInstanceAs (Decidable (_ ∧ _))

/-- The conversion to `int` gives an `int`. Whatever a file says, what is written again is an
`int`. -/
theorem isInt32_toInt32 (z : ℤ) : IsInt32 (toInt32 z) := by
  unfold IsInt32 toInt32
  have hlow := Int.le_bmod (x := z) (by decide : 0 < 2 ^ 32)
  have hhigh := Int.bmod_lt (x := z) (by decide : 0 < 2 ^ 32)
  omega

/-- The conversion to `int` leaves an `int` as it is. The round trip through a file needs no more
than this range. -/
theorem toInt32_of_isInt32 {z : ℤ} (hz : IsInt32 z) : toInt32 z = z := by
  unfold IsInt32 at hz
  unfold toInt32 Int.bmod
  dsimp only
  split_ifs <;> omega

/-- An `int` that was printed is read back. This is why a number survives being written to a
file. -/
theorem toInt32_strtol_decimal {z : ℤ} (hz : IsInt32 z) : toInt32 (strtol (decimal z)) = z := by
  have hz' := hz
  unfold IsInt32 at hz'
  rw [strtol_decimal (by omega) (by omega), toInt32_of_isInt32 hz]

/-- An `int` that was printed and has lost its last bytes is read without these digits. A short
write loses digits in this way. -/
theorem toInt32_strtol_take_decimal {z : ℤ} (hz : IsInt32 z) (lost : ℕ) :
    toInt32 (strtol ((decimal z).take ((decimal z).length - lost))) = z.tdiv (10 ^ lost) := by
  have hread : strtol ((decimal z).take ((decimal z).length - lost)) = z.tdiv (10 ^ lost) := by
    unfold IsInt32 at hz
    rw [strtol_take_decimal (by omega) (by omega)]
    rcases le_or_gt lost (decimal z).length with hshort | hlong
    · rw [Nat.sub_sub_self hshort]
    · rw [tdiv_eq_zero_of_length_le hlong.le, tdiv_eq_zero_of_length_le (by omega)]
  have hint : IsInt32 (z.tdiv (10 ^ lost)) := by
    have habs := Int.natAbs_tdiv_le_natAbs z (10 ^ lost)
    have hpow : (0 : ℤ) ≤ 10 ^ lost := by positivity
    unfold IsInt32 at hz ⊢
    rcases le_or_gt 0 z with hpos | hneg
    · have hquotient := Int.tdiv_nonneg hpos hpow
      omega
    · have hquotient := Int.tdiv_nonneg (neg_nonneg.mpr hneg.le) hpow
      rw [Int.neg_tdiv] at hquotient
      omega
  rw [hread, toInt32_of_isInt32 hint]

/-- An `int` is printed in at most 11 bytes. The size of a buffer for several numbers is bounded
by it. -/
theorem length_decimal_le {z : ℤ} (hz : IsInt32 z) : (decimal z).length ≤ 11 := by
  have hnat : (decimalNat z.natAbs).length ≤ 10 := by
    unfold decimalNat
    split_ifs
    · simp
    · unfold IsInt32 at hz
      rw [List.length_map, List.length_reverse, Nat.digits_length_le_iff (by decide)]
      omega
  unfold decimal
  split_ifs
  · rw [List.length_cons]
    omega
  · omega

end CText
