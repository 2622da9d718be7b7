import DeepinPwCheck.Ini.Reading

/-!
# The private reader of `VALIDATE_POLICY`

`get_validate_policy`, which the library and the update tool both have: it looks through
the file in pieces of at most 511 bytes for one that begins with `VALIDATE_POLICY`, and
copies what follows the equals sign. The copy is defined by the source's pointers, as
offsets into the buffer, and then shown to be a function of the text of the line.
-/

namespace DeepinPwCheck

open CText Ini

/-- What `get_validate_policy` does to the buffer of its caller: it leaves it as it was,
it asks for a copy of negative length, or it writes a string. -/
inductive PolicyRead where
  | unwritten
  | overrun
  | written (policy : Bytes)
  deriving DecidableEq

/-- The prefix that the reader looks for. -/
def validatePolicy : Bytes := bytes "VALIDATE_POLICY"

/-- The loop over `fgets(buff, 512, f)`: the first piece with the prefix, and its offset in
the file. At the end of the file the buffer keeps the last piece, which lacked the prefix. -/
def policyPiece (s : Bytes) (offset : ℕ) : Option (ℕ × Bytes) :=
  if s = [] then none
  else if validatePolicy.isPrefixOf (fgets 511 s).1 then some (offset, (fgets 511 s).1)
  else policyPiece (fgets 511 s).2 (offset + (fgets 511 s).1.length)
termination_by s.length
decreasing_by exact fgets_rest_length (by decide) ‹_›

/-- The copy out of the string `buff`. `p` and `end` of the source are the offsets `start` and
`stop`. -/
def copyPolicy (buff : Bytes) : PolicyRead :=
  match strchr buff equals with
  | none => .unwritten
  | some p =>
      let blanks := ((buff.drop (p + 1)).takeWhile (· == space)).length
      let quotes := ((buff.drop (p + 1 + blanks)).takeWhile (· == quote)).length
      let start := p + 1 + blanks + quotes
      let stop := (strchr buff newline).getD buff.length
      let sub := if 0 < quotes ∧ buff[stop - 1]? = some quote then 1 else 0
      let length : ℤ := (stop : ℤ) - start - sub
      if length < 0 then .overrun else .written ((buff.drop start).take length.toNat)

/-- `get_validate_policy` on the content of the file, if it can be opened. The string functions
see of the piece in the buffer what stands before its first NUL byte. -/
def getValidatePolicy (file : Option Bytes) : PolicyRead :=
  match file with
  | none => .unwritten
  | some s =>
      match policyPiece s 0 with
      | none => .unwritten
      | some (_, buff) => copyPolicy (cString buff)

/-- The value that a text after an equals sign spells: without the blanks and the quotes
before it, and without a closing quote if there was an opening one. -/
def valueText (r : Bytes) : Bytes :=
  let v := r.dropWhile (· == space)
  let u := v.dropWhile (· == quote)
  if v.head? = some quote ∧ u.getLast? = some quote then u.dropLast else u

/-- After the blanks there is a quote, and nothing but quotes. -/
def OnlyQuotes (r : Bytes) : Prop :=
  r.dropWhile (· == space) ≠ [] ∧ (r.dropWhile (· == space)).dropWhile (· == quote) = []

/-- The prefix occurs where `fgets` begins a piece of the line. -/
def PrefixAt (ℓ : Bytes) : Prop := ∃ k, validatePolicy <+: ℓ.drop (511 * k)

instance (r : Bytes) : Decidable (OnlyQuotes r) := inferInstanceAs (Decidable (_ ∧ _))

private theorem strchr_append {s t : Bytes} {c : Byte} (hs : c ∉ s) :
    strchr (s ++ c :: t) c = some s.length := by
  have hfront : ∀ d ∈ s, (d != c) = true := by
    intro d hd
    simpa using fun h : d = c => hs (h ▸ hd)
  unfold strchr
  rw [if_pos (by simp), takeWhile_append_of_neg hfront (by simp)]

private theorem strchr_none {s : Bytes} {c : Byte} (hs : c ∉ s) : strchr s c = none := by
  simp [strchr, hs]

private theorem takeWhile_blank {s t : Bytes} {c d : Byte} (ht : t = [] ∨ t = [d])
    (hd : d ≠ c) (hs : s.head? ≠ some c) (n : ℕ) :
    ((List.replicate n c ++ (s ++ t)).takeWhile (· == c)).length = n := by
  rw [List.takeWhile_append_of_pos (by simp)]
  have hrest : (s ++ t).takeWhile (· == c) = [] := by
    rcases s with _ | ⟨e, s⟩
    · rcases ht with rfl | rfl <;> simp [hd]
    · simpa using hs
  rw [hrest]
  simp

private theorem exists_replicate_append (s : Bytes) (c : Byte) :
    ∃ n t, s = List.replicate n c ++ t ∧ t.head? ≠ some c ∧ s.dropWhile (· == c) = t := by
  refine ⟨(s.takeWhile (· == c)).length, s.dropWhile (· == c), ?_, ?_, rfl⟩
  · conv_lhs => rw [← List.takeWhile_append_dropWhile (p := (· == c)) (l := s)]
    congr 1
    refine List.eq_replicate_iff.mpr ⟨rfl, ?_⟩
    intro d hd
    simpa using List.mem_takeWhile_imp hd
  · rcases hdrop : s.dropWhile (· == c) with _ | ⟨d, t⟩
    · simp
    · simpa using head_dropWhile hdrop

private theorem getLast?_piece (front u : Bytes) (b q : ℕ) (x : Byte) :
    (front ++ equals ::
      (List.replicate b space ++ (List.replicate q quote ++ (u ++ [x])))).getLast? = some x := by
  have hconcat : front ++ equals ::
      (List.replicate b space ++ (List.replicate q quote ++ (u ++ [x]))) =
      (front ++ equals :: (List.replicate b space ++ (List.replicate q quote ++ u))) ++ [x] := by
    simp
  rw [hconcat, List.getLast?_concat]

/-- What the pointers of the source find in a piece: the equals sign, the blanks, the quotes,
the value and the end of the line. -/
private theorem piece_pointers {front u t : Bytes} {b q : ℕ} (hfront : equals ∉ front)
    (hbody : newline ∉ front ++ equals ::
      (List.replicate b space ++ (List.replicate q quote ++ u)))
    (ht : t = [] ∨ t = [newline]) (hu : u.head? ≠ some quote)
    (hv : (List.replicate q quote ++ u).head? ≠ some space) {buff : Bytes}
    (hbuff : buff =
      front ++ equals :: (List.replicate b space ++ (List.replicate q quote ++ u)) ++ t) :
    strchr buff equals = some front.length ∧
      ((buff.drop (front.length + 1)).takeWhile (· == space)).length = b ∧
      ((buff.drop (front.length + 1 + b)).takeWhile (· == quote)).length = q ∧
      buff.drop (front.length + 1 + b + q) = u ++ t ∧
      (strchr buff newline).getD buff.length = front.length + 1 + b + q + u.length := by
  have hsplit : buff = front ++ equals ::
      (List.replicate b space ++ ((List.replicate q quote ++ u) ++ t)) := by
    rw [hbuff]
    simp
  have hvalue : buff.drop (front.length + 1) =
      List.replicate b space ++ ((List.replicate q quote ++ u) ++ t) := by
    rw [hsplit, List.drop_append]
    simp
  have hquotes : buff.drop (front.length + 1 + b) = List.replicate q quote ++ (u ++ t) := by
    rw [← List.drop_drop, hvalue, List.drop_append]
    simp
  refine ⟨?_, ?_, ?_, ?_, ?_⟩
  · rw [hsplit, strchr_append hfront]
  · rw [hvalue]
    exact takeWhile_blank ht (by decide) hv b
  · rw [hquotes]
    exact takeWhile_blank ht (by decide) hu q
  · rw [← List.drop_drop, hquotes, List.drop_append]
    simp
  · rw [hbuff]
    rcases ht with rfl | rfl
    · rw [List.append_nil, strchr_none hbody, Option.getD_none]
      simp
      omega
    · rw [strchr_append hbody, Option.getD_some]
      simp
      omega

/-- The copy of a piece that is taken apart at the value. The offsets of the source become parts
of the line here. -/
private theorem copyPolicy_split {front u t : Bytes} {b q : ℕ} (hfront : equals ∉ front)
    (hbody : newline ∉ front ++ equals ::
      (List.replicate b space ++ (List.replicate q quote ++ u)))
    (ht : t = [] ∨ t = [newline]) (hu : u.head? ≠ some quote)
    (hv : (List.replicate q quote ++ u).head? ≠ some space) :
    copyPolicy (front ++ equals :: (List.replicate b space ++ (List.replicate q quote ++ u)) ++ t) =
      if 0 < q ∧ u = [] then .overrun
      else .written (if 0 < q ∧ u.getLast? = some quote then u.dropLast else u) := by
  obtain ⟨hp, hblanks, hquotes, hstart, hstop⟩ := piece_pointers hfront hbody ht hu hv rfl
  set body := front ++ equals :: (List.replicate b space ++ (List.replicate q quote ++ u))
    with hbodyEq
  have hlast : (body ++ t)[front.length + 1 + b + q + u.length - 1]? = body.getLast? := by
    have hlength : body.length = front.length + 1 + b + q + u.length := by
      simp [hbodyEq]
      omega
    rw [List.getLast?_eq_getElem?, List.getElem?_append_left (by omega), hlength]
  have htake : ∀ n, n ≤ u.length → (u ++ t).take n = u.take n := by
    intro n hn
    exact List.take_append_of_le_length hn
  unfold copyPolicy
  rw [hp]
  dsimp only
  rw [hblanks, hquotes, hstart, hstop, hlast]
  rcases List.eq_nil_or_concat' u with rfl | ⟨u', x, rfl⟩
  · rcases Nat.eq_zero_or_pos q with rfl | hq
    · simp
    · have hquote : body.getLast? = some quote := by
        obtain ⟨n, rfl⟩ : ∃ n, q = n + 1 := ⟨q - 1, by omega⟩
        rw [hbodyEq, List.append_nil, List.replicate_succ']
        exact getLast?_piece front [] b n quote
      have hneg : ((front.length + 1 + b + q + ([] : Bytes).length : ℕ) : ℤ) -
          (front.length + 1 + b + q : ℕ) - 1 < 0 := by
        simp
      rw [if_pos (And.intro hq hquote), if_pos hneg, if_pos (And.intro hq rfl)]
  · have hend : body.getLast? = (u' ++ [x]).getLast? := by
      rw [hbodyEq, getLast?_piece, List.getLast?_concat]
    have hne : ¬ (0 < q ∧ u' ++ [x] = []) := by simp
    rw [hend, if_neg hne]
    by_cases hsub : 0 < q ∧ (u' ++ [x]).getLast? = some quote
    · have hcount : ((front.length + 1 + b + q + (u' ++ [x]).length : ℕ) : ℤ) -
          (front.length + 1 + b + q : ℕ) - 1 = u'.length := by
        simp
      rw [if_pos hsub, if_pos hsub, hcount, if_neg (by omega), Int.toNat_natCast,
        htake _ (by simp)]
      simp
    · have hcount : ((front.length + 1 + b + q + (u' ++ [x]).length : ℕ) : ℤ) -
          (front.length + 1 + b + q : ℕ) - 0 = (u' ++ [x]).length := by
        simp
      rw [if_neg hsub, if_neg hsub, hcount, if_neg (by omega), Int.toNat_natCast,
        htake _ (by simp), List.take_length]

/-- **The copy is the value text.** On a piece of one line the pointers of the source select
the value text, except that a value of quotes only gives a negative length. -/
theorem copyPolicy_eq {body t : Bytes} (hbody : newline ∉ body) (ht : t = [] ∨ t = [newline]) :
    copyPolicy (body ++ t) =
      if equals ∈ body then
        if OnlyQuotes (afterEquals body) then .overrun else .written (valueText (afterEquals body))
      else .unwritten := by
  by_cases hequals : equals ∈ body
  · rw [if_pos hequals]
    obtain ⟨front, r, hsplit, hfront⟩ := List.eq_append_cons_of_mem hequals
    have hafter : afterEquals body = r := by rw [hsplit, afterEquals_append hfront]
    obtain ⟨b, v, hr, hv, hdropSpace⟩ := exists_replicate_append r space
    obtain ⟨q, u, hvu, hu, hdropQuote⟩ := exists_replicate_append v quote
    rw [hafter]
    rw [hsplit, hr, hvu] at hbody ⊢
    rw [copyPolicy_split hfront hbody ht hu (hvu ▸ hv)]
    rw [← hvu, ← hr]
    have hhead : v.head? = some quote ↔ 0 < q := by
      rw [hvu]
      cases q with
      | zero => simpa using hu
      | succ q => simp [List.replicate_succ]
    have honly : OnlyQuotes r ↔ 0 < q ∧ u = [] := by
      unfold OnlyQuotes
      rw [hdropSpace, hdropQuote]
      constructor
      · rintro ⟨hne, rfl⟩
        refine ⟨?_, rfl⟩
        rcases Nat.eq_zero_or_pos q with rfl | hq
        · exact absurd hvu (by simpa using hne)
        · exact hq
      · rintro ⟨hq, rfl⟩
        refine ⟨?_, rfl⟩
        rintro rfl
        simp at hhead
        omega
    unfold valueText
    dsimp only
    rw [hdropSpace, hdropQuote]
    simp only [honly, hhead]
  · rw [if_neg hequals]
    have hnone : equals ∉ body ++ t := by
      rcases ht with rfl | rfl
      · simpa using hequals
      · simpa [equals, newline] using hequals
    unfold copyPolicy
    rw [strchr_none hnone]

/-- A value text is a part of the text that it is read from. It is no longer than its line, and
has no new bytes. -/
theorem valueText_sublist (r : Bytes) : (valueText r).Sublist r := by
  have hrest := (List.dropWhile_sublist (l := r.dropWhile (· == space)) (· == quote)).trans
    (List.dropWhile_sublist (l := r) (· == space))
  unfold valueText
  dsimp only
  split_ifs
  · exact (List.dropLast_sublist _).trans hrest
  · exact hrest

/-- A value text does not begin with a quote. The reader removes all quotes in front, however many
there are. -/
theorem head_valueText (r : Bytes) : (valueText r).head? ≠ some quote := by
  obtain ⟨q, u, -, hu, hdrop⟩ := exists_replicate_append (r.dropWhile (· == space)) quote
  unfold valueText
  dsimp only
  rw [hdrop]
  split_ifs
  · rcases u with _ | ⟨c, _ | ⟨d, u⟩⟩
    · simp
    · simp
    · simpa using hu
  · exact hu

/-- A text spells itself exactly if it begins with neither a blank nor a quote. The round trip of
policies uses it in both directions. -/
theorem valueText_eq_self_iff {q : Bytes} :
    valueText q = q ↔ q.head? ≠ some space ∧ q.head? ≠ some quote := by
  constructor
  · intro h
    refine ⟨?_, fun hquote => head_valueText q (h.symm ▸ hquote)⟩
    intro hspace
    obtain ⟨r, rfl⟩ : ∃ r, q = space :: r := by
      rcases q with _ | ⟨c, r⟩
      · simp at hspace
      · obtain rfl : c = space := by simpa using hspace
        exact ⟨r, rfl⟩
    have hskip : valueText (space :: r) = valueText r := rfl
    have hlength := (valueText_sublist r).length_le
    rw [← hskip, h, List.length_cons] at hlength
    omega
  · rintro ⟨hspace, hquote⟩
    rcases q with _ | ⟨c, r⟩
    · rfl
    · have hc : c ≠ space := by simpa using hspace
      have hc' : c ≠ quote := by simpa using hquote
      unfold valueText
      simp [hc, hc']

/-- The blanks before a value make no difference. The tool writes one, and a file may have
none. -/
theorem valueText_space (r : Bytes) : valueText (space :: r) = valueText r := rfl

/-- A piece that the reader finds begins with the prefix and fits into its buffer. The copy
therefore fits into the buffer of the caller. -/
theorem policyPiece_eq_some {s : Bytes} {offset o : ℕ} {piece : Bytes}
    (h : policyPiece s offset = some (o, piece)) :
    validatePolicy <+: piece ∧ ∃ body e, piece = body ++ e ∧ newline ∉ body ∧
      (e = [] ∨ e = [newline]) ∧ body.length + e.length ≤ 511 := by
  induction hlen : s.length using Nat.strong_induction_on generalizing s offset with
  | _ n ih =>
      rw [policyPiece] at h
      split_ifs at h with hnil hbegins
      · obtain ⟨-, rfl⟩ := Prod.mk.inj (Option.some.inj h)
        exact ⟨List.isPrefixOf_iff_prefix.mp hbegins, exists_fgets_eq 511 s⟩
      · have hshorter := fgets_rest_length (by decide : 0 < 511) hnil
        exact ih _ (hlen ▸ hshorter) h rfl

/-- The string of a piece with the prefix has the prefix. A NUL byte can only stand behind it. -/
theorem prefix_cString {buff : Bytes} (h : validatePolicy <+: buff) :
    validatePolicy <+: cString buff := by
  obtain ⟨rest, rfl⟩ := h
  have hall : ∀ c ∈ validatePolicy, (c != 0) = true := List.all_eq_true.mp rfl
  unfold cString
  rw [List.takeWhile_append_of_pos hall]
  exact List.prefix_append _ _

/-- **What the private reader can return.** It has no newline, no NUL byte and no quote in front,
and it is short enough for the key and the equals sign to fit into the buffer with it. -/
theorem getValidatePolicy_written {file : Option Bytes} {q : Bytes}
    (h : getValidatePolicy file = .written q) :
    newline ∉ q ∧ 0 ∉ q ∧ q.head? ≠ some quote ∧ q.length ≤ 495 := by
  unfold getValidatePolicy at h
  rcases file with _ | s
  · cases h
  · dsimp only at h
    cases hpiece : policyPiece s 0 with
    | none =>
        rw [hpiece] at h
        cases h
    | some found =>
        obtain ⟨o, piece⟩ := found
        obtain ⟨hbegins, whole, e, rfl, hwhole, he, hlength⟩ := policyPiece_eq_some hpiece
        obtain ⟨body, e', hstring, hfront', he', hshorter⟩ := exists_cString_append whole he
        have hbody : newline ∉ body := fun hn => hwhole (hfront'.subset hn)
        have hnoNul : (0 : Byte) ∉ body := fun hzero =>
          zero_notMem_cString (whole ++ e) (hstring ▸ List.mem_append_left e' hzero)
        replace hbegins := prefix_cString hbegins
        rw [hpiece] at h
        dsimp only at h
        rw [hstring] at h hbegins
        rw [copyPolicy_eq hbody he'] at h
        split_ifs at h with hequals honly
        obtain rfl := PolicyRead.written.inj h
        obtain ⟨front, r, hsplit, hfront⟩ := List.eq_append_cons_of_mem hequals
        have hafter : afterEquals body = r := by rw [hsplit, afterEquals_append hfront]
        have hsub := valueText_sublist r
        rw [hafter]
        refine ⟨?_, ?_, head_valueText r, ?_⟩
        · intro hn
          have hmem := hsub.subset hn
          exact hbody (by rw [hsplit]; simp [hmem])
        · intro hzero
          have hmem := hsub.subset hzero
          exact hnoNul (by rw [hsplit]; simp [hmem])
        · have hsize : validatePolicy.length = 15 := by decide
          have hshort : 15 ≤ front.length := by
            by_contra hlt
            have hmem : equals ∈ validatePolicy := by
              have htake := List.prefix_iff_eq_take.mp hbegins
              rw [htake, hsize, hsplit, List.append_assoc, List.take_append]
              have hpos : ∃ k, 15 - front.length = k + 1 := ⟨14 - front.length, by omega⟩
              obtain ⟨k, hk⟩ := hpos
              rw [hk]
              simp
            exact absurd hmem (by decide)
          have hle := hsub.length_le
          have htotal := congrArg List.length hsplit
          rw [List.length_append, List.length_cons] at htotal
          omega

/-- The first piece of a line. -/
def firstPiece (ℓ t : Bytes) : Bytes := (fgets 511 (ℓ ++ t)).1

/-- A line that fits is read with its newline; a longer one is cut. The two cases of `fgets` are
one from here on. -/
theorem fgets_firstPiece {ℓ t : Bytes} (hℓ : newline ∉ ℓ) (ht : EndsLine t) :
    (ℓ.length < 511 ∧ fgets 511 (ℓ ++ t) = (ℓ ++ t.take 1, t.drop 1)) ∨
      (511 ≤ ℓ.length ∧ fgets 511 (ℓ ++ t) = (ℓ.take 511, ℓ.drop 511 ++ t)) := by
  rcases Nat.lt_or_ge ℓ.length 511 with hshort | hlong
  · left
    refine ⟨hshort, ?_⟩
    rcases ht with rfl | ⟨s, rfl⟩
    · simpa using fgets_last hℓ hshort
    · simpa using fgets_line hℓ s hshort
  · exact Or.inr ⟨hlong, fgets_long hℓ t hlong⟩

/-- The first piece is the front of the line, and perhaps its newline. Whether there is a newline
decides which branch of the copy is taken. -/
theorem exists_firstPiece {ℓ t : Bytes} (hℓ : newline ∉ ℓ) (ht : EndsLine t) :
    ∃ e, (e = [] ∨ e = [newline]) ∧ firstPiece ℓ t = ℓ.take 511 ++ e := by
  unfold firstPiece
  rcases fgets_firstPiece hℓ ht with ⟨hshort, hpiece⟩ | ⟨-, hpiece⟩
  · have hcut : ℓ.take 511 = ℓ := List.take_of_length_le (by omega)
    refine ⟨t.take 1, ?_, by rw [hpiece, hcut]⟩
    rcases ht with rfl | ⟨s, rfl⟩ <;> simp
  · exact ⟨[], Or.inl rfl, by simp [hpiece]⟩

/-- The first piece has the prefix exactly if the line has it. The prefix is shorter than the
buffer, so no cut can hide it. -/
theorem prefix_firstPiece {ℓ t : Bytes} (hℓ : newline ∉ ℓ) (ht : EndsLine t) :
    validatePolicy <+: firstPiece ℓ t ↔ validatePolicy <+: ℓ := by
  have htake : validatePolicy <+: ℓ.take 511 ↔ validatePolicy <+: ℓ := by
    rw [List.prefix_take_iff]
    exact and_iff_left (by decide)
  obtain ⟨e, rfl | rfl, hpiece⟩ := exists_firstPiece hℓ ht
  · rw [hpiece, List.append_nil, htake]
  · rw [hpiece, List.prefix_concat_iff, htake]
    refine or_iff_right ?_
    intro h
    have hmem : newline ∈ validatePolicy := by simp [h]
    exact absurd hmem (by decide)

theorem policyPiece_nil (offset : ℕ) : policyPiece [] offset = none := by
  rw [policyPiece, if_pos rfl]

/-- The reader stops at a line with the prefix. It does not look at the section or at the rest of
the key. -/
theorem policyPiece_of_begins {ℓ t : Bytes} (hℓ : newline ∉ ℓ) (ht : EndsLine t)
    (hbegins : validatePolicy <+: ℓ) (offset : ℕ) :
    policyPiece (ℓ ++ t) offset = some (offset, firstPiece ℓ t) := by
  have hne : ℓ ++ t ≠ [] := by
    intro h
    have hnil : ℓ = [] := (List.append_eq_nil_iff.mp h).1
    rw [hnil, List.prefix_nil] at hbegins
    exact absurd hbegins (by decide)
  have hpiece := (prefix_firstPiece hℓ ht).mpr hbegins
  rw [policyPiece, if_neg hne]
  exact if_pos (List.isPrefixOf_iff_prefix.mpr hpiece)

/-- The reader goes on after a line without the prefix. For a long line this is the next piece of
the line. -/
theorem policyPiece_of_not_begins {ℓ t : Bytes} (hℓ : newline ∉ ℓ) (ht : EndsLine t)
    (hbegins : ¬ validatePolicy <+: ℓ) (offset : ℕ) :
    policyPiece (ℓ ++ t) offset =
      if ℓ.length < 511 then policyPiece (t.drop 1) (offset + ℓ.length + (t.take 1).length)
      else policyPiece (ℓ.drop 511 ++ t) (offset + 511) := by
  have hpiece := mt (prefix_firstPiece hℓ ht).mp hbegins
  have hskip : validatePolicy.isPrefixOf (fgets 511 (ℓ ++ t)).1 ≠ true := by
    intro h
    exact hpiece (List.isPrefixOf_iff_prefix.mp h)
  by_cases hnil : ℓ ++ t = []
  · obtain ⟨rfl, rfl⟩ := List.append_eq_nil_iff.mp hnil
    simp [policyPiece_nil]
  · rw [policyPiece, if_neg hnil, if_neg hskip]
    rcases fgets_firstPiece hℓ ht with ⟨hshort, h⟩ | ⟨hlong, h⟩
    · rw [h, if_pos hshort, List.length_append, Nat.add_assoc]
    · rw [h, if_neg (by omega), List.length_take, Nat.min_eq_left hlong]

/-- The reader passes over a line that has the prefix nowhere. Lines longer than the buffer are
read in several pieces, and each of them counts. -/
theorem policyPiece_skip {ℓ t : Bytes} (hℓ : newline ∉ ℓ) (ht : EndsLine t)
    (hmiss : ¬ PrefixAt ℓ) (offset : ℕ) :
    policyPiece (ℓ ++ t) offset =
      policyPiece (t.drop 1) (offset + ℓ.length + (t.take 1).length) := by
  induction hlen : ℓ.length using Nat.strong_induction_on generalizing ℓ offset with
  | _ n ih =>
      have hfirst : ¬ validatePolicy <+: ℓ := fun h => hmiss ⟨0, by simpa using h⟩
      rw [policyPiece_of_not_begins hℓ ht hfirst]
      split_ifs with hshort
      · rw [hlen]
      · have hrest : ¬ PrefixAt (ℓ.drop 511) := by
          rintro ⟨k, hk⟩
          refine hmiss ⟨k + 1, ?_⟩
          rw [List.drop_drop] at hk
          rwa [Nat.mul_add, Nat.mul_one, Nat.add_comm]
        have hℓ' : newline ∉ ℓ.drop 511 := fun h => hℓ (List.mem_of_mem_drop h)
        rw [ih (ℓ.drop 511).length (by simp; omega) hℓ' hrest (offset + 511) rfl]
        congr 1
        simp only [List.length_drop]
        omega

/-- The reader passes over lines that have the prefix nowhere. They are read as if they were not
there. -/
theorem policyPiece_unlines {before : List Bytes} (hlines : ∀ m ∈ before, newline ∉ m)
    (hmiss : ∀ m ∈ before, ¬ PrefixAt m) (s : Bytes) (offset : ℕ) :
    policyPiece (unlines before ++ s) offset =
      policyPiece s (offset + (unlines before).length) := by
  induction before generalizing offset with
  | nil => simp
  | cons m before ih =>
      have hm := hlines m List.mem_cons_self
      have hends : EndsLine (newline :: (unlines before ++ s)) := Or.inr ⟨_, rfl⟩
      have hsplit : unlines (m :: before) ++ s = m ++ newline :: (unlines before ++ s) := by simp
      rw [hsplit, policyPiece_skip hm hends (hmiss m List.mem_cons_self)]
      rw [List.drop_one, List.tail_cons, ih (fun a ha => hlines a (List.mem_cons_of_mem m ha))
        fun a ha => hmiss a (List.mem_cons_of_mem m ha)]
      congr 1
      simp
      omega

end DeepinPwCheck
