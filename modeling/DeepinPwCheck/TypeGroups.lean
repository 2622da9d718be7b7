import DeepinPwCheck.CharacterType
import Mathlib.Data.List.Infix

/-!
# The groups of a policy

`is_type_valid` takes the tokens of a policy from `strtok`, which it calls in two places
of its loop. This file has the groups without the loop: the pieces between the separators,
each with the byte behind its delimiter, fused from left to right. The loop goes over
exactly these groups, and the verdict of the character rule follows from them.
-/

namespace DeepinPwCheck

open CText

/-- A piece of a policy, and the byte of the policy right after its delimiter. -/
structure Piece where
  text : Bytes
  after : Option Byte
  deriving DecidableEq

/-- The pieces between the separators, given in order, with what follows their delimiters. -/
def withAfter : List Bytes → List Piece
  | [] => []
  | text :: rest => ⟨text, ([semicolon].intercalate rest).head?⟩ :: withAfter rest

/-- The pieces of a policy that are not empty. -/
def pieces (policy : Bytes) : List Piece :=
  (withAfter (policy.splitOn semicolon)).filter fun p => !p.text.isEmpty

/-- A piece that begins with a symbol is fused with the next one if the byte after its
delimiter is a symbol too. The fused piece is not looked at again. -/
def fusePieces : List Piece → List Bytes
  | [] => []
  | [p] => [p.text]
  | p :: q :: rest =>
      if p.text.head?.any isSymbol && p.after.any isSymbol then
        (p.text ++ semicolon :: q.text) :: fusePieces rest
      else p.text :: fusePieces (q :: rest)

/-- The groups of a policy. -/
def typeGroups (policy : Bytes) : List Bytes := fusePieces (pieces policy)

/-- Two neighbouring bytes have the high bit set. -/
def HasHighPair (pw : Bytes) : Prop :=
  ∃ c d, [c, d] <:+: pw ∧ c &&& 0x80 ≠ 0 ∧ d &&& 0x80 ≠ 0

/-- A group shares a byte with the password. -/
def sharesByte (pw group : Bytes) : Bool := pw.any (· ∈ group)

/-- The number of groups that share a byte with the password. -/
def groupCount (pw policy : Bytes) : ℕ := (typeGroups policy).countP (sharesByte pw)

/-- A separator in front is skipped. It is how empty pieces are dropped. -/
theorem pieces_semicolon_cons (policy : Bytes) :
    pieces (semicolon :: policy) = pieces policy := by
  unfold pieces
  rw [List.splitOn_cons_eq_if_modifyHead, if_pos (by simp), withAfter]
  simp

/-- Separators in front are skipped. `strtok` skips them as well. -/
theorem pieces_dropWhile (policy : Bytes) :
    pieces (policy.dropWhile (· == semicolon)) = pieces policy := by
  induction policy with
  | nil => rfl
  | cons c policy ih =>
    by_cases hc : c = semicolon
    · subst hc
      rw [List.dropWhile_cons_of_pos (by simp), ih, pieces_semicolon_cons]
    · rw [List.dropWhile_cons_of_neg (by simpa using hc)]

/-- A policy without separators is one piece. The recursion over the policy ends here. -/
theorem pieces_of_not_mem {p : Bytes} (hp : semicolon ∉ p) (hne : p ≠ []) :
    pieces p = [⟨p, none⟩] := by
  unfold pieces
  rw [List.splitOn_eq_singleton hp]
  simp [withAfter, hne]

/-- The first piece and its delimiter. The recursion over the policy goes on behind the
delimiter. -/
theorem pieces_append_semicolon {p : Bytes} (hp : semicolon ∉ p) (hne : p ≠ []) (rest : Bytes) :
    pieces (p ++ semicolon :: rest) = ⟨p, rest.head?⟩ :: pieces rest := by
  unfold pieces
  rw [List.splitOn_append_cons_self_of_not_mem hp, withAfter, List.intercalate_splitOn]
  simp [hne]

/-- Where `strtok` finds nothing there is no piece. Both recursions end together. -/
theorem pieces_of_strtok_eq_none {rest : Bytes} (h : strtok rest = none) : pieces rest = [] := by
  rw [← pieces_dropWhile]
  unfold strtok at h
  cases hdrop : rest.dropWhile (· == semicolon) with
  | nil => rfl
  | cons c s => simp [hdrop] at h

/-- `strtok` finds the first piece, and leaves what follows its delimiter. The recursion on
`strtok` becomes a recursion on the pieces of the policy. -/
theorem pieces_of_strtok_eq_some {rest p rest' : Bytes} (h : strtok rest = some (p, rest')) :
    p ≠ [] ∧ pieces rest = ⟨p, rest'.head?⟩ :: pieces rest' := by
  rw [← pieces_dropWhile]
  unfold strtok at h
  cases hdrop : rest.dropWhile (· == semicolon) with
  | nil => simp [hdrop] at h
  | cons c s =>
    have hc := head_dropWhile hdrop
    simp only [hdrop, Option.some.injEq, Prod.mk.injEq] at h
    obtain ⟨rfl, rfl⟩ := h
    have hne : (c :: s).takeWhile (· != semicolon) ≠ [] := by
      rw [List.takeWhile_cons_of_pos (by simpa using hc)]
      exact List.cons_ne_nil _ _
    have hp : semicolon ∉ (c :: s).takeWhile (· != semicolon) := by
      intro hmem
      exact absurd (List.mem_takeWhile_imp hmem) (by simp)
    refine ⟨hne, ?_⟩
    conv_lhs => rw [← List.takeWhile_append_dropWhile (p := (· != semicolon)) (l := c :: s)]
    cases hafter : (c :: s).dropWhile (· != semicolon) with
    | nil =>
      rw [List.append_nil, pieces_of_not_mem hp hne]
      rfl
    | cons d rest'' =>
      obtain rfl : d = semicolon := by simpa using head_dropWhile hafter
      exact pieces_append_semicolon hp hne rest''

/-- The first group of a policy is what the loop body makes of its first token. The induction that
follows is on what is left of the policy. -/
theorem fusePieces_of_strtok {rest p rest' : Bytes} (h : strtok rest = some (p, rest')) :
    fusePieces (pieces rest) =
      (fuseSymbols p rest').1 :: fusePieces (pieces (fuseSymbols p rest').2) := by
  obtain ⟨hne, hpieces⟩ := pieces_of_strtok_eq_some h
  obtain ⟨c, s, rfl⟩ := List.exists_cons_of_ne_nil hne
  rw [hpieces]
  unfold fuseSymbols
  rw [List.headD_cons]
  by_cases hc : isSymbol c = true
  · rw [if_pos hc]
    cases rest' with
    | nil => rfl
    | cons nextData tail =>
      cases hnext : isSymbol nextData with
      | true =>
        cases htok : strtok (nextData :: tail) with
        | none =>
          rw [pieces_of_strtok_eq_none htok]
          simp [fusePieces, hnext, pieces_of_strtok_eq_none htok]
        | some result =>
          obtain ⟨pp, rest''⟩ := result
          rw [(pieces_of_strtok_eq_some htok).2]
          simp [fusePieces, hc, hnext]
      | false =>
        cases hrest : pieces (nextData :: tail) with
        | nil => simp [fusePieces, hnext, hrest]
        | cons q more => simp [fusePieces, hnext, hrest]
  · rw [if_neg hc]
    cases hrest : pieces rest' with
    | nil => simp [fusePieces]
    | cons q more => simp [fusePieces, hc]

/-- **The token loop.** It adds the groups of what is left of the policy, in order. -/
theorem typeLoop_eq_foldl (pw rest : Bytes) (s : TypeState) :
    typeLoop pw rest s = (typeGroups rest).foldl (fun s group => s.addGroup pw group) s := by
  unfold typeGroups
  fun_induction typeLoop pw rest s with
  | case1 rest s htok =>
    rw [pieces_of_strtok_eq_none htok]
    rfl
  | case2 rest s p rest' htok fused ih =>
    rw [ih, fusePieces_of_strtok htok]
    rfl

/-- What adding the groups accumulates. The loop is described by the groups and needs no state any
more. -/
theorem foldl_addGroup (pw : Bytes) (groups : List Bytes) (s : TypeState) :
    groups.foldl (fun s group => s.addGroup pw group) s =
      ⟨s.allCharacter ++ groups.flatten, s.pass + groups.countP (sharesByte (seen pw))⟩ := by
  induction groups generalizing s with
  | nil => simp
  | cons group groups ih =>
    rw [List.foldl_cons, ih, List.countP_cons, List.flatten_cons]
    unfold TypeState.addGroup sharesByte
    simp only [List.append_assoc, TypeState.mk.injEq, true_and]
    split_ifs with hshares
    · push_cast
      ring
    · simp

/-- `all_character` holds the bytes of the groups, and `pass` counts those that are hit by what is
read of the password. -/
theorem typeLoop_eq (pw policy : Bytes) :
    typeLoop pw policy ⟨[], 0⟩ = ⟨(typeGroups policy).flatten, groupCount (seen pw) policy⟩ := by
  rw [typeLoop_eq_foldl, foldl_addGroup]
  simp [groupCount]

/-- Some byte is in no group of the policy. -/
def HasForeignByte (pw policy : Bytes) : Prop := ∃ c ∈ pw, ∀ group ∈ typeGroups policy, c ∉ group

/-- The result that a policy asks for: a password with two neighbouring high bytes or with a
byte in no group is invalid, another one has too few types if it hits fewer groups than required. -/
structure TypeResult (pw policy : Bytes) (required : ℤ) (result : PwErrorType) : Prop where
  invalid : result = .characterInvalid ↔ HasHighPair pw ∨ HasForeignByte pw policy
  tooFew : result = .characterTypeTooFew ↔
    ¬(HasHighPair pw ∨ HasForeignByte pw policy) ∧ (groupCount pw policy : ℤ) < required
  accepted : result = .noErr ↔
    ¬(HasHighPair pw ∨ HasForeignByte pw policy) ∧ required ≤ groupCount pw policy

/-- `include_chinese` looks for two neighbouring bytes with the high bit. It walks a pointer to
the end of the string, so the length does not matter. -/
theorem includeChinese_iff (pw : Bytes) : includeChinese pw = true ↔ HasHighPair pw := by
  unfold HasHighPair
  fun_induction includeChinese pw with
  | case1 => simp
  | case2 c =>
    simp only [Bool.false_eq_true, false_iff, not_exists, not_and]
    intro d e hinside
    have hlength := hinside.length_le
    simp at hlength
  | case3 c d rest hhigh =>
    simp only [true_iff]
    exact ⟨c, d, ⟨[], rest, rfl⟩, hhigh⟩
  | case4 c d rest hlow ih =>
    rw [ih]
    constructor
    · rintro ⟨e, f, hinside, hhigh⟩
      exact ⟨e, f, List.infix_cons hinside, hhigh⟩
    · rintro ⟨e, f, hinside, hhigh⟩
      rcases List.infix_cons_iff.mp hinside with hfirst | hrest
      · obtain ⟨rfl, htail⟩ := List.cons_prefix_cons.mp hfirst
        obtain ⟨rfl, -⟩ := List.cons_prefix_cons.mp htail
        exact absurd hhigh hlow
      · exact ⟨e, f, hrest, hhigh⟩

instance (pw : Bytes) : Decidable (HasHighPair pw) := decidable_of_iff _ (includeChinese_iff pw)

instance (pw policy : Bytes) : Decidable (HasForeignByte pw policy) :=
  inferInstanceAs (Decidable (∃ c ∈ pw, _))

/-- What `is_type_valid` returns: it looks for high bytes in the whole password, and for the
groups in what its loops read. -/
theorem isTypeValid_eq (pw policy : Bytes) (required : ℤ) :
    isTypeValid pw policy required =
      if HasHighPair pw ∨ HasForeignByte (seen pw) policy then .characterInvalid
      else if (groupCount (seen pw) policy : ℤ) < required then .characterTypeTooFew
      else .noErr := by
  have hforeign : (!(seen pw).all (· ∈ (typeGroups policy).flatten)) = true ↔
      HasForeignByte (seen pw) policy := by simp [HasForeignByte]
  unfold isTypeValid
  rw [typeLoop_eq]
  dsimp only
  by_cases hhigh : includeChinese pw = true
  · rw [if_pos hhigh, if_pos (Or.inl ((includeChinese_iff pw).mp hhigh))]
  · have hpair : ¬HasHighPair pw := fun h => hhigh ((includeChinese_iff pw).mpr h)
    rw [if_neg hhigh]
    by_cases hbyte : HasForeignByte (seen pw) policy
    · rw [if_pos (hforeign.mpr hbyte), if_pos (Or.inr hbyte)]
    · rw [if_neg (mt hforeign.mp hbyte), if_neg (not_or.mpr ⟨hpair, hbyte⟩)]

/-- More bytes hit more groups. What a truncated length hides can only lower the count. -/
theorem sharesByte_of_subset {pw pw' : Bytes} (h : pw ⊆ pw') {group : Bytes}
    (hshares : sharesByte pw group = true) : sharesByte pw' group = true := by
  obtain ⟨c, hc, hin⟩ := List.any_eq_true.mp hshares
  exact List.any_eq_true.mpr ⟨c, h hc, hin⟩

/-- The groups that are hit by what is read of a password are hit by the password. A long password
can only fail by being read in part. -/
theorem groupCount_seen_le (pw policy : Bytes) :
    groupCount (seen pw) policy ≤ groupCount pw policy :=
  List.countP_mono_left fun _ _ h => sharesByte_of_subset (seen_initial pw).subset h

/-- **The character rule.** The result is the one that the policy asks for exactly in these cases:
the password has two neighbouring high bytes; a byte that is read is in no group; or no byte at
all is in no group, and a password whose bytes that are read hit too few groups hits too few as a
whole. A password that is not too long for an `int` is read whole. -/
theorem isTypeValid_typeResult_iff (pw policy : Bytes) (required : ℤ) :
    (TypeResult pw policy required (isTypeValid pw policy required) ↔
        HasHighPair pw ∨ HasForeignByte (seen pw) policy ∨
          ¬HasForeignByte pw policy ∧
            ((groupCount (seen pw) policy : ℤ) < required →
              (groupCount pw policy : ℤ) < required)) ∧
      (pw.length < 2 ^ 31 → TypeResult pw policy required (isTypeValid pw policy required)) := by
  have hexact : TypeResult pw policy required (isTypeValid pw policy required) ↔
      HasHighPair pw ∨ HasForeignByte (seen pw) policy ∨
        ¬HasForeignByte pw policy ∧
          ((groupCount (seen pw) policy : ℤ) < required →
            (groupCount pw policy : ℤ) < required) := by
    have hle := groupCount_seen_le pw policy
    rw [isTypeValid_eq]
    by_cases hearly : HasHighPair pw ∨ HasForeignByte (seen pw) policy
    · have hwhole : HasHighPair pw ∨ HasForeignByte pw policy := by
        refine hearly.imp_right ?_
        rintro ⟨c, hc, hnone⟩
        exact ⟨c, (seen_initial pw).subset hc, hnone⟩
      rw [if_pos hearly, ← or_assoc, iff_true_right (Or.inl hearly)]
      exact ⟨iff_of_true rfl hwhole, by simp [hwhole], by simp [hwhole]⟩
    · obtain ⟨hpair, hbyte⟩ := not_or.mp hearly
      rw [if_neg hearly, or_iff_right hpair, or_iff_right hbyte]
      constructor
      · intro hresult
        have hforeign : ¬HasForeignByte pw policy := by
          intro h
          have hinvalid := hresult.invalid.mpr (Or.inr h)
          split_ifs at hinvalid
        refine ⟨hforeign, fun hfew => ?_⟩
        have htooFew := hresult.tooFew.mp (if_pos hfew)
        exact htooFew.2
      · rintro ⟨hforeign, hcount⟩
        have hwhole : ¬(HasHighPair pw ∨ HasForeignByte pw policy) := not_or.mpr ⟨hpair, hforeign⟩
        split_ifs with hfew
        · have hmany : ¬required ≤ groupCount pw policy := by
            have := hcount hfew
            omega
          exact ⟨by simp [hwhole], by simp [hwhole, hcount hfew], by simp [hmany]⟩
        · have henough : required ≤ groupCount pw policy := by omega
          have hmany : ¬(groupCount pw policy : ℤ) < required := by omega
          exact ⟨by simp [hwhole], by simp [hmany], by simp [hwhole, henough]⟩
  refine ⟨hexact, fun hint => hexact.mpr ?_⟩
  rw [seen_of_lt hint]
  by_cases hforeign : HasForeignByte pw policy
  · exact Or.inr (Or.inl hforeign)
  · exact Or.inr (Or.inr ⟨hforeign, id⟩)

/-- A password of `2 ^ 31` letters that no group lists is accepted: none of them is read. -/
theorem isTypeValid_accepts_long :
    ¬∀ (pw policy : Bytes) (required : ℤ), 0 ∉ pw → policy.length ≤ 511 →
      TypeResult pw policy required (isTypeValid pw policy required) := by
  intro h
  obtain ⟨pw, hpw⟩ : ∃ pw, pw = List.replicate (2 ^ 31) (90 : Byte) := ⟨_, rfl⟩
  have hlength : pw.length = 2 ^ 31 := by rw [hpw, List.length_replicate]
  have hmem (c : Byte) (hc : c ∈ pw) : c = 90 := by
    rw [hpw] at hc
    exact List.eq_of_mem_replicate hc
  have hnul : (0 : Byte) ∉ pw := by
    intro hc
    exact absurd (hmem 0 hc) (by decide)
  have hread : seen pw = [] := seen_of_le (by omega) (by omega)
  have hlow : ¬HasHighPair pw := by
    rintro ⟨c, d, hinside, hhigh, -⟩
    refine hhigh ?_
    rw [hmem c (hinside.mem List.mem_cons_self)]
    decide
  have hnone : ¬HasForeignByte [] (bytes "abc") := by
    rintro ⟨c, hc, -⟩
    exact absurd hc List.not_mem_nil
  have hforeign : HasForeignByte pw (bytes "abc") := by
    refine ⟨90, ?_, by decide⟩
    rw [hpw, List.mem_replicate]
    exact ⟨by norm_num, rfl⟩
  have hresult := h pw (bytes "abc") 0 hnul (by decide)
  rw [isTypeValid_eq, hread, if_neg (not_or.mpr ⟨hlow, hnone⟩)] at hresult
  have hinvalid := hresult.invalid.mpr (Or.inr hforeign)
  split_ifs at hinvalid

end DeepinPwCheck
