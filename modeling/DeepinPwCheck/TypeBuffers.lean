import DeepinPwCheck.CharacterType
import DeepinPwCheck.Loops.Reached

/-!
# The buffers of the character rule

`is_type_valid` appends every group to `all_character` and builds a fused group in `p_tmp`,
both of 512 bytes, without looking at their size. What it has written so far is never longer
than the part of the policy that `strtok` has gone over, so a policy that fits into 511 bytes
keeps both within their buffers.
-/

namespace DeepinPwCheck

open CText LoopStates

/-- The token loop between two iterations: what is left of the policy, and the variables that
the loop accumulates. -/
structure TokenState where
  rest : Bytes
  type : TypeState

/-- One iteration of the token loop of `is_type_valid`, if there is another token. -/
def TokenState.next (pw : Bytes) (s : TokenState) : Option TokenState :=
  (strtok s.rest).map fun (p, rest) =>
    ⟨(fuseSymbols p rest).2, s.type.addGroup pw (fuseSymbols p rest).1⟩

/-- The token loop before its first iteration. -/
def TokenState.init (policy : Bytes) : TokenState := ⟨policy, ⟨[], 0⟩⟩

/-- What the loop body writes into `p_tmp` for a token, if it writes there: the token, the
separator, and the next token if there is one. -/
def pTmp (p rest : Bytes) : Option Bytes :=
  if isSymbol (p.headD 0) && rest.head?.any isSymbol then
    some (p ++ semicolon :: ((strtok rest).map Prod.fst).getD [])
  else none

/-- The group of a token is what `p_tmp` holds, if that was completed, or the token. It connects
the buffer with the model of the loop. -/
theorem fuseSymbols_fst (p rest : Bytes) :
    (fuseSymbols p rest).1 = if (strtok rest).isSome then (pTmp p rest).getD p else p := by
  unfold fuseSymbols pTmp
  generalize isSymbol (p.headD 0) = first
  cases first with
  | false => simp
  | true =>
    cases rest with
    | nil => simp
    | cons nextData tail =>
      by_cases hnext : isSymbol nextData = true
      · cases htok : strtok (nextData :: tail) <;> simp [hnext]
      · simp [hnext]

/-- The token loop goes through the iterations. What holds in every iteration holds of the loop of
the source. -/
theorem typeLoop_eq_next (pw : Bytes) (s : TokenState) :
    typeLoop pw s.rest s.type =
      ((s.next pw).map fun s' => typeLoop pw s'.rest s'.type).getD s.type := by
  rw [typeLoop]
  unfold TokenState.next
  split
  · next hnone => simp [hnone]
  · next p rest hsome => simp [hsome]

/-- `strtok` goes over its token, and over a delimiter where something is left. The delimiter
makes room for the separator that is copied. -/
theorem strtok_consumed {rest p rest' : Bytes} (h : strtok rest = some (p, rest')) :
    ∃ used, rest = used ++ rest' ∧ p.length ≤ used.length ∧
      (rest' ≠ [] → p.length < used.length) := by
  unfold strtok at h
  cases hdrop : rest.dropWhile (· == semicolon) with
  | nil => simp [hdrop] at h
  | cons c s =>
    simp only [hdrop, Option.some.injEq, Prod.mk.injEq] at h
    obtain ⟨rfl, rfl⟩ := h
    have hskip := List.takeWhile_append_dropWhile (p := (· == semicolon)) (l := rest)
    have htoken := List.takeWhile_append_dropWhile (p := (· != semicolon)) (l := c :: s)
    rw [hdrop, ← htoken] at hskip
    cases hafter : (c :: s).dropWhile (· != semicolon) with
    | nil =>
      rw [hafter] at hskip
      refine ⟨rest, by simp, ?_, by simp⟩
      conv_rhs => rw [← hskip]
      simp
    | cons d rest'' =>
      rw [hafter] at hskip
      refine ⟨rest.takeWhile (· == semicolon) ++
        ((c :: s).takeWhile (· != semicolon) ++ [d]), ?_, ?_, ?_⟩
      · conv_lhs => rw [← hskip]
        simp
      · simp only [List.length_append]
        omega
      · intro _
        simp only [List.length_append, List.length_singleton]
        omega

/-- What is written into `p_tmp` is no longer than what was gone over for it. The bound on the
policy is therefore one on the buffer. -/
theorem pTmp_length_le {p rest t : Bytes} (h : pTmp p rest = some t) :
    rest ≠ [] ∧ ∃ used, t.length = p.length + 1 + used ∧ used ≤ rest.length := by
  unfold pTmp at h
  split_ifs at h with hsymbols
  obtain rfl := Option.some.inj h
  refine ⟨?_, (((strtok rest).map Prod.fst).getD []).length, ?_, ?_⟩
  · rintro rfl
    simp at hsymbols
  · simp only [List.length_append, List.length_cons]
    omega
  · cases htok : strtok rest with
    | none => simp
    | some found =>
      obtain ⟨used, hrest, hlength, -⟩ := strtok_consumed htok
      have htotal := congrArg List.length hrest
      rw [List.length_append] at htotal
      simp only [Option.map_some, Option.getD_some]
      omega

/-- A group is no longer than what was gone over for it. The bound on the policy is therefore one
on `all_character`. -/
theorem fuseSymbols_consumed {rest p rest' : Bytes} (h : strtok rest = some (p, rest')) :
    ∃ used, rest = used ++ (fuseSymbols p rest').2 ∧
      (fuseSymbols p rest').1.length ≤ used.length := by
  obtain ⟨used, hrest, hlength, hdelimiter⟩ := strtok_consumed h
  unfold fuseSymbols
  split_ifs with hp
  · cases rest' with
    | nil => exact ⟨used, hrest, hlength⟩
    | cons nextData tail =>
      dsimp only
      split_ifs with hnext
      · cases htok : strtok (nextData :: tail) with
        | none => exact ⟨used, hrest, hlength⟩
        | some found =>
          -- the separator that is put back was gone over with the first token
          obtain ⟨pp, rest''⟩ := found
          obtain ⟨used', hrest', hlength', -⟩ := strtok_consumed htok
          have hstrict := hdelimiter (List.cons_ne_nil _ _)
          refine ⟨used ++ used', by rw [hrest, hrest', List.append_assoc], ?_⟩
          simp only [List.length_append, List.length_cons]
          omega
      · exact ⟨used, hrest, hlength⟩
  · exact ⟨used, hrest, hlength⟩

/-- What the loop has accumulated is no longer than the part of the policy that it has gone
over, which is the policy less what is left of it. -/
def TokenState.Within (policy : Bytes) (s : TokenState) : Prop :=
  ∃ used, policy = used ++ s.rest ∧ s.type.allCharacter.length ≤ used.length

/-- Nothing is accumulated at first. The invariant holds at the start. -/
theorem TokenState.within_init (policy : Bytes) : (TokenState.init policy).Within policy :=
  ⟨[], rfl, le_rfl⟩

/-- An iteration goes over at least as much as it accumulates. The invariant is kept. -/
theorem TokenState.Within.next {policy pw : Bytes} {s s' : TokenState} (h : s.Within policy)
    (hstep : s.next pw = some s') : s'.Within policy := by
  obtain ⟨used, hpolicy, hlength⟩ := h
  obtain ⟨⟨p, rest'⟩, htok, rfl⟩ := Option.map_eq_some_iff.mp hstep
  obtain ⟨used', hrest, hgroup⟩ := fuseSymbols_consumed htok
  refine ⟨used ++ used', ?_, ?_⟩
  · dsimp only
    rw [hpolicy, hrest, List.append_assoc]
  · simp only [TypeState.addGroup, List.length_append]
    omega

/-- **The buffers of the token loop.** For a policy of at most 511 bytes, in every iteration of
the loop the text in `all_character` is no longer than the part of the policy gone over, what
the body writes into `p_tmp` has at most 511 bytes, and so has the text in `all_character`
before and after the group is appended: both buffers have room for the terminator. -/
theorem typeLoop_buffers {policy : Bytes} (hpolicy : policy.length ≤ 511) (pw : Bytes)
    {s : TokenState} (h : Reached (TokenState.next pw) (TokenState.init policy) s) :
    (∃ used, policy = used ++ s.rest ∧ s.type.allCharacter.length ≤ used.length) ∧
      s.type.allCharacter.length ≤ 511 ∧
      ∀ p rest, strtok s.rest = some (p, rest) →
        (∀ t, pTmp p rest = some t → t.length ≤ 511) ∧
          (s.type.addGroup pw (fuseSymbols p rest).1).allCharacter.length ≤ 511 := by
  have hwithin : ∀ s, Reached (TokenState.next pw) (TokenState.init policy) s →
      s.Within policy := fun s hs =>
    hs.invariant (TokenState.within_init policy) fun _ _ hinv hstep => hinv.next hstep
  have hsmall : ∀ s : TokenState, s.Within policy → s.type.allCharacter.length ≤ 511 := by
    rintro s ⟨used, hsplit, hlength⟩
    have htotal := congrArg List.length hsplit
    rw [List.length_append] at htotal
    omega
  refine ⟨hwithin s h, hsmall s (hwithin s h), ?_⟩
  intro p rest htok
  refine ⟨?_, ?_⟩
  · intro t ht
    obtain ⟨used, hsplit, -⟩ := hwithin s h
    obtain ⟨used', hrest, hlength, hdelimiter⟩ := strtok_consumed htok
    obtain ⟨hne, used'', hsize, hused⟩ := pTmp_length_le ht
    have hstrict := hdelimiter hne
    have htotal := congrArg List.length hsplit
    have htotal' := congrArg List.length hrest
    rw [List.length_append] at htotal htotal'
    omega
  · have hstep : s.next pw = some ⟨(fuseSymbols p rest).2,
        s.type.addGroup pw (fuseSymbols p rest).1⟩ := by
      unfold TokenState.next
      rw [htok]
      rfl
    exact hsmall _ (hwithin _ (h.next hstep))

/-- The first iteration on a policy whose first two tokens are fused. -/
theorem typeLoop_buffers_fused :
    (∃ used, bytes "!;?;a" = used ++ bytes "!;?;a" ∧ ([] : Bytes).length ≤ used.length) ∧
      ([] : Bytes).length ≤ 511 ∧
      ∀ p rest, strtok (bytes "!;?;a") = some (p, rest) →
        (∀ t, pTmp p rest = some t → t.length ≤ 511) ∧
          (TypeState.addGroup (bytes "ab") (fuseSymbols p rest).1 ⟨[], 0⟩).allCharacter.length ≤
            511 :=
  typeLoop_buffers (by decide) (bytes "ab") Reached.first

end DeepinPwCheck
