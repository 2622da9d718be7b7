import DeepinPwCheck.TypeGroups
import Mathlib.Data.List.Dedup
import Mathlib.Data.List.Perm.Subperm
import Mathlib.Data.List.SplitBy
import Mathlib.Data.Nat.Bitwise

/-!
# Symbols as one type

The fusing in `is_type_valid` is meant to count neighbouring groups of symbols as one
type, since the separator itself is a symbol that the policy may list. This file states
that purpose by itself, as maximal runs of symbol pieces, and finds by how much the loop
misses the number of these types, and on which policies it never does: it fuses two pieces
only, and looks at the byte behind the delimiter, which may be another delimiter.
-/

namespace DeepinPwCheck

open CText

/-- A letter or a digit. -/
def isLetterOrDigit (c : Byte) : Bool :=
  (48 ≤ c && c ≤ 57) || (65 ≤ c && c ≤ 90) || (97 ≤ c && c ≤ 122)

/-- A piece of ASCII punctuation only. -/
def Piece.isSymbols (p : Piece) : Bool := p.text.all isSymbol

/-- A piece of letters and digits only. -/
def Piece.isLetters (p : Piece) : Bool := p.text.all isLetterOrDigit

/-- Every piece of the policy is of one of the two sorts. -/
def WellSorted (policy : Bytes) : Prop :=
  ∀ p ∈ pieces policy, p.isSymbols = true ∨ p.isLetters = true

instance (policy : Bytes) : Decidable (WellSorted policy) :=
  inferInstanceAs (Decidable (∀ p ∈ pieces policy, _))

/-- The maximal runs of symbol pieces, and the other pieces one by one. -/
def typeRuns (l : List Piece) : List (List Piece) :=
  l.splitBy fun p q => p.isSymbols && q.isSymbols

/-- A byte of one of the pieces, or a separator between two of them, is in the password. -/
def hitsRun (pw : Bytes) (run : List Piece) : Bool :=
  run.any (fun p => sharesByte pw p.text) || (decide (2 ≤ run.length) && decide (semicolon ∈ pw))

/-- The number of types among the pieces that the password hits, symbols in a row counted once. -/
def hitRuns (pw : Bytes) (l : List Piece) : ℕ := (typeRuns l).countP (hitsRun pw)

/-- The number of types among the pieces that the password hits only with bytes that are not
read of it. -/
def unreadRuns (pw : Bytes) (l : List Piece) : ℕ :=
  (typeRuns l).countP fun run => hitsRun pw run && !hitsRun (seen pw) run

/-- The number of groups among the pieces that the password hits. -/
def hitGroups (pw : Bytes) (l : List Piece) : ℕ := (fusePieces l).countP (sharesByte pw)

/-- A run of symbols that goes on with these pieces is hit in them. -/
def hitsNextRun (pw : Bytes) (l : List Piece) : Bool :=
  l.head?.any Piece.isSymbols && (typeRuns l).head?.any (hitsRun pw)

/-- What a piece of letters that is fused with a symbol piece changes: one type is missing if
both are hit, and one is too many if only the separator between them is hit. -/
def swallowSurplus (pw : Bytes) (p q : Piece) : ℤ :=
  if sharesByte pw p.text && sharesByte pw q.text then -1
  else if sharesByte pw p.text || sharesByte pw q.text then 0
  else if semicolon ∈ pw then 1
  else 0

/-- By how much the groups that a password hits outnumber its types. A pair of symbol pieces
that is hit is one too many if its run goes on and is hit again. -/
def surplus (pw : Bytes) : List Piece → ℤ
  | [] => 0
  | [_] => 0
  | p :: q :: l =>
      if p.isSymbols && q.isSymbols then
        surplus pw l +
          (sharesByte pw (p.text ++ semicolon :: q.text) && hitsNextRun pw l).toNat
      else if p.isSymbols && p.after == some semicolon then
        surplus pw l + swallowSurplus pw p q
      else surplus pw (q :: l)

/-- Three symbol pieces follow each other. -/
def HasThreeSymbols (l : List Piece) : Prop :=
  ∃ p q r, [p, q, r] <:+: l ∧ p.isSymbols = true ∧ q.isSymbols = true ∧ r.isSymbols = true

/-- A symbol piece that follows no other one is followed by two separators and then by a
piece of letters. -/
def SwallowsLetters (l : List Piece) : Prop :=
  ∃ before p q after, l = before ++ p :: q :: after ∧
    (∀ o ∈ before.getLast?, o.isSymbols = false) ∧
      p.isSymbols = true ∧ p.after = some semicolon ∧ q.isSymbols = false

/-- What is known of the pieces of a sorted policy, and of what is left of them. -/
structure Sorted (l : List Piece) : Prop where
  nonempty : ∀ p ∈ l, p.text ≠ []
  sorted : ∀ p ∈ l, p.isSymbols = true ∨ p.isLetters = true
  chain : l.IsChain fun p q => p.after = some semicolon ∨ p.after = q.text.head?

/-- No byte is both. A piece is therefore of one sort at most. -/
theorem isSymbol_of_isLetterOrDigit {c : Byte} (h : isLetterOrDigit c = true) :
    isSymbol c = false := by
  simp only [isLetterOrDigit, isSymbol, Bool.or_eq_true, Bool.and_eq_true, decide_eq_true_eq,
    UInt8.le_iff_toNat_le, Bool.or_eq_false_iff, Bool.and_eq_false_iff, decide_eq_false_iff_not]
    at h ⊢
  simp at h ⊢
  omega

/-- What follows the delimiter of a piece: another delimiter, or the next piece that is kept. The
byte that the source tests is thus known from the next piece alone. -/
theorem isChain_pieces (policy : Bytes) :
    (pieces policy).IsChain fun p q => p.after = some semicolon ∨ p.after = q.text.head? := by
  unfold pieces
  induction policy.splitOn semicolon with
  | nil => exact List.isChain_nil
  | cons text rest ih =>
    rw [withAfter]
    by_cases htext : text = []
    · rw [List.filter_cons_of_neg (by simp [htext])]
      exact ih
    · rw [List.filter_cons_of_pos (by simpa using htext), List.isChain_cons]
      refine ⟨?_, ih⟩
      intro q hq
      cases rest with
      | nil => simp [withAfter] at hq
      | cons next rest =>
        by_cases hnext : next = []
        · cases rest with
          | nil => simp [withAfter, hnext] at hq
          | cons _ _ =>
            refine Or.inl ?_
            rw [hnext, List.intercalate_cons_cons]
            rfl
        · rw [withAfter, List.filter_cons_of_pos (by simpa using hnext)] at hq
          obtain rfl : _ = q := by simpa using hq
          refine Or.inr ?_
          obtain ⟨c, next, rfl⟩ := List.exists_cons_of_ne_nil hnext
          cases rest with
          | nil => simp
          | cons _ _ =>
            rw [List.intercalate_cons_cons]
            rfl

/-- The pieces of a sorted policy. The rest of the file speaks of pieces and not of the policy. -/
theorem WellSorted.sorted_pieces {policy : Bytes} (h : WellSorted policy) :
    Sorted (pieces policy) where
  nonempty p hp := by
    have hkept := (List.mem_filter.mp hp).2
    simpa using hkept
  sorted := h
  chain := isChain_pieces policy

/-- What is left of the pieces after the first one. The inductions over the pieces use it at each
step. -/
theorem Sorted.tail {p : Piece} {l : List Piece} (h : Sorted (p :: l)) : Sorted l where
  nonempty q hq := h.nonempty q (List.mem_cons_of_mem p hq)
  sorted q hq := h.sorted q (List.mem_cons_of_mem p hq)
  chain := h.chain.tail

/-- The first byte tells the sort of a piece. The source looks at this byte only. -/
theorem Sorted.head?_any {l : List Piece} (h : Sorted l) {p : Piece} (hp : p ∈ l) :
    p.text.head?.any isSymbol = p.isSymbols := by
  obtain ⟨c, s, hc⟩ := List.exists_cons_of_ne_nil (h.nonempty p hp)
  rw [Bool.eq_iff_iff]
  rcases h.sorted p hp with hsymbols | hletters
  · have hfirst : isSymbol c = true := by
      rw [Piece.isSymbols, hc, List.all_cons, Bool.and_eq_true] at hsymbols
      exact hsymbols.1
    simp [hsymbols, hc, hfirst]
  · have hfirst : isSymbol c = false := by
      rw [Piece.isLetters, hc, List.all_cons, Bool.and_eq_true] at hletters
      exact isSymbol_of_isLetterOrDigit hletters.1
    simp [Piece.isSymbols, hc, hfirst]

/-- The test of the loop: a symbol piece is fused with a symbol piece, and over a doubled
delimiter with any piece. -/
theorem Sorted.fuses_iff {p q : Piece} {l : List Piece} (h : Sorted (p :: q :: l)) :
    (p.text.head?.any isSymbol && p.after.any isSymbol) = true ↔
      p.isSymbols = true ∧ (q.isSymbols = true ∨ p.after = some semicolon) := by
  rw [Bool.and_eq_true, h.head?_any (by simp)]
  refine and_congr_right fun _ => ?_
  have hq := h.head?_any (p := q) (by simp)
  rcases (List.isChain_cons_cons.mp h.chain).1 with hafter | hafter
  · have hsemicolon : isSymbol semicolon = true := rfl
    simp [hafter, hsemicolon]
  · rw [hafter, hq]
    constructor
    · exact Or.inl
    · rintro (hsymbols | hdouble)
      · exact hsymbols
      · rw [← hq, hdouble]
        rfl

/-- Pieces that are not fused do not stand in one run. What the loop keeps apart is not counted as
one type either. -/
theorem Sorted.apart_of_not_fuses {p q : Piece} {l : List Piece} (h : Sorted (p :: q :: l))
    (hfuse : ¬(p.text.head?.any isSymbol && p.after.any isSymbol) = true) :
    (p.isSymbols && q.isSymbols) = false := by
  rw [h.fuses_iff] at hfuse
  cases hp : p.isSymbols with
  | false => rfl
  | true =>
    cases hq : q.isSymbols with
    | false => rfl
    | true => exact absurd ⟨hp, Or.inl hq⟩ hfuse

/-- Two pieces that do not stand in one run. Then the first of them is a run by itself. -/
theorem typeRuns_cons_of_false {p q : Piece} {l : List Piece}
    (h : (p.isSymbols && q.isSymbols) = false) :
    typeRuns (p :: q :: l) = [p] :: typeRuns (q :: l) := by
  have hsplit := List.splitBy_append_cons (r := fun p q : Piece => p.isSymbols && q.isSymbols)
    (l := [p]) (a := q) l (by simpa using h)
  exact hsplit

/-- The first run begins with the first piece. A run that is extended is found at the head of the
list. -/
theorem exists_typeRuns_cons (q : Piece) (l : List Piece) :
    ∃ run more, typeRuns (q :: l) = (q :: run) :: more := by
  cases hruns : typeRuns (q :: l) with
  | nil => exact absurd (List.splitBy_eq_nil.mp hruns) (List.cons_ne_nil q l)
  | cons first more =>
    obtain ⟨hflatten, hnil, -⟩ := List.splitBy_eq_iff.mp hruns
    obtain ⟨x, run, rfl⟩ : ∃ x run, first = x :: run := by
      apply List.exists_cons_of_ne_nil
      rintro rfl
      exact hnil List.mem_cons_self
    obtain ⟨rfl, -⟩ := List.cons.inj hflatten
    exact ⟨run, more, rfl⟩

/-- A piece in front of a run that it continues. -/
theorem typeRuns_cons_of_true {p q : Piece} {l : List Piece}
    (h : (p.isSymbols && q.isSymbols) = true) :
    ∃ run more, typeRuns (q :: l) = (q :: run) :: more ∧
      typeRuns (p :: q :: l) = (p :: q :: run) :: more := by
  obtain ⟨run, more, hruns⟩ := exists_typeRuns_cons q l
  obtain ⟨hflatten, hnil, hchain, hborders⟩ := List.splitBy_eq_iff.mp hruns
  refine ⟨run, more, hruns, List.splitBy_eq_iff.mpr ⟨?_, ?_, ?_, ?_⟩⟩
  · rw [hflatten]
    rfl
  · simpa using hnil
  · intro m hm
    rcases List.mem_cons.mp hm with rfl | hm
    · exact List.isChain_cons_cons.mpr ⟨h, hchain _ List.mem_cons_self⟩
    · exact hchain m (List.mem_cons_of_mem _ hm)
  · rw [List.isChain_cons] at hborders ⊢
    refine ⟨?_, hborders.2⟩
    intro next hnext
    obtain ⟨ha, hb, hfalse⟩ := hborders.1 next hnext
    exact ⟨List.cons_ne_nil _ _, hb, by simpa using hfalse⟩

/-- Three symbol pieces are three pieces. A shorter list has no surplus of this kind. -/
theorem HasThreeSymbols.length_le {l : List Piece} (h : HasThreeSymbols l) : 3 ≤ l.length := by
  obtain ⟨p, q, r, hinside, -⟩ := h
  exact hinside.length_le

/-- Three symbol pieces do not begin with a piece of letters. -/
theorem HasThreeSymbols.of_letters {q : Piece} {l : List Piece} (h : HasThreeSymbols (q :: l))
    (hq : q.isSymbols = false) : HasThreeSymbols l := by
  obtain ⟨x, y, z, hinside, hx, hy, hz⟩ := h
  rcases List.infix_cons_iff.mp hinside with hfirst | hrest
  · obtain ⟨rfl, -⟩ := List.cons_prefix_cons.mp hfirst
    rw [hx] at hq
    exact absurd hq (by decide)
  · exact ⟨x, y, z, hrest, hx, hy, hz⟩

/-- A piece that swallows and the one that it swallows are two pieces. -/
theorem SwallowsLetters.length_le {l : List Piece} (h : SwallowsLetters l) : 2 ≤ l.length := by
  obtain ⟨before, p, q, after, rfl, -⟩ := h
  simp only [List.length_append, List.length_cons]
  omega

/-- Three symbol pieces stay after one more piece in front. The condition on a policy passes to
what is left of it by it. -/
theorem HasThreeSymbols.cons {l : List Piece} (h : HasThreeSymbols l) (p : Piece) :
    HasThreeSymbols (p :: l) := by
  obtain ⟨x, y, z, hinside, hsymbols⟩ := h
  exact ⟨x, y, z, List.infix_cons hinside, hsymbols⟩

/-- Three symbol pieces do not begin with a piece that no symbol piece follows. -/
theorem HasThreeSymbols.of_cons_cons {p q : Piece} {l : List Piece}
    (h : HasThreeSymbols (p :: q :: l)) (hpq : (p.isSymbols && q.isSymbols) = false) :
    HasThreeSymbols (q :: l) := by
  obtain ⟨x, y, z, hinside, hx, hy, hz⟩ := h
  rcases List.infix_cons_iff.mp hinside with hfirst | hrest
  · obtain ⟨rfl, hsecond⟩ := List.cons_prefix_cons.mp hfirst
    obtain ⟨rfl, -⟩ := List.cons_prefix_cons.mp hsecond
    simp [hx, hy] at hpq
  · exact ⟨x, y, z, hrest, hx, hy, hz⟩

/-- Three symbol pieces do not begin with a pair that no symbol piece follows. -/
theorem HasThreeSymbols.of_pair {p q : Piece} {l : List Piece} (h : HasThreeSymbols (p :: q :: l))
    (hl : ∀ r ∈ l.head?, r.isSymbols = false) : HasThreeSymbols l := by
  cases l with
  | nil => exact absurd h.length_le (by simp)
  | cons r l =>
    have hr : r.isSymbols = false := hl r (by simp)
    obtain ⟨x, y, z, hinside, hx, hy, hz⟩ := h
    rcases List.infix_cons_iff.mp hinside with hfirst | hrest
    · simp only [List.cons_prefix_cons] at hfirst
      obtain ⟨-, -, rfl, -⟩ := hfirst
      rw [hz] at hr
      exact absurd hr (by decide)
    · have hthree : HasThreeSymbols (q :: r :: l) := ⟨x, y, z, hrest, hx, hy, hz⟩
      exact hthree.of_cons_cons (by simp [hr])

/-- A piece in front changes nothing for the symbol pieces that stand alone behind it. The
condition on a policy passes to what is left of it by it. -/
theorem SwallowsLetters.cons {p q : Piece} {l : List Piece} (h : SwallowsLetters (q :: l))
    (hpq : (p.isSymbols && q.isSymbols) = false) : SwallowsLetters (p :: q :: l) := by
  obtain ⟨before, x, y, after, hl, halone, hx, hafter, hy⟩ := h
  refine ⟨p :: before, x, y, after, by rw [hl, List.cons_append], ?_, hx, hafter, hy⟩
  cases before with
  | nil =>
    obtain ⟨rfl, -⟩ := List.cons.inj hl
    simpa [hx] using hpq
  | cons o before => rwa [List.getLast?_cons_cons]

/-- Pieces in front of a list that begins with no symbol piece change nothing for it. -/
theorem SwallowsLetters.append {l : List Piece} (h : SwallowsLetters l)
    (hhead : ∀ r ∈ l.head?, r.isSymbols = false) (front : List Piece) :
    SwallowsLetters (front ++ l) := by
  obtain ⟨before, x, y, after, rfl, halone, hx, hafter, hy⟩ := h
  refine ⟨front ++ before, x, y, after, by rw [List.append_assoc], ?_, hx, hafter, hy⟩
  cases before with
  | nil =>
    have hfalse := hhead x (by simp)
    simp [hx] at hfalse
  | cons o before => rwa [List.getLast?_append_of_ne_nil _ (List.cons_ne_nil o before)]

/-- Behind the first piece, unless that is the one that swallows. -/
theorem SwallowsLetters.of_cons_cons {p q : Piece} {l : List Piece}
    (h : SwallowsLetters (p :: q :: l))
    (hpq : ¬(p.isSymbols = true ∧ p.after = some semicolon ∧ q.isSymbols = false)) :
    SwallowsLetters (q :: l) := by
  obtain ⟨before, x, y, after, hl, halone, hx, hafter, hy⟩ := h
  cases before with
  | nil =>
    obtain ⟨rfl, hrest⟩ := List.cons.inj hl
    obtain ⟨rfl, -⟩ := List.cons.inj hrest
    exact absurd ⟨hx, hafter, hy⟩ hpq
  | cons o before =>
    refine ⟨before, x, y, after, (List.cons.inj hl).2, ?_, hx, hafter, hy⟩
    cases before with
    | nil => simp
    | cons o' before => rwa [List.getLast?_cons_cons] at halone

/-- Behind two symbol pieces. -/
theorem swallowsLetters_of_pair {p q : Piece} {l : List Piece} (hp : p.isSymbols = true)
    (hq : q.isSymbols = true) (h : SwallowsLetters (p :: q :: l)) : SwallowsLetters l := by
  obtain ⟨before, x, y, after, hl, halone, hx, hafter, hy⟩ := h
  rcases before with _ | ⟨a, _ | ⟨b, before⟩⟩
  · obtain ⟨rfl, hrest⟩ := List.cons.inj hl
    obtain ⟨rfl, -⟩ := List.cons.inj hrest
    simp [hq] at hy
  · obtain ⟨rfl, -⟩ := List.cons.inj hl
    have hfalse := halone p (by simp)
    simp [hp] at hfalse
  · obtain ⟨rfl, hrest⟩ := List.cons.inj hl
    obtain ⟨rfl, hbefore⟩ := List.cons.inj hrest
    refine ⟨before, x, y, after, hbefore, ?_, hx, hafter, hy⟩
    cases before with
    | nil => simp
    | cons o before => rwa [List.getLast?_cons_cons, List.getLast?_cons_cons] at halone

/-- In front of a piece of letters, or of nothing, a pair of symbol pieces is a run. -/
theorem typeRuns_pair {p q : Piece} {l : List Piece} (hp : p.isSymbols = true)
    (hq : q.isSymbols = true) (hl : ∀ r ∈ l.head?, r.isSymbols = false) :
    typeRuns (p :: q :: l) = [p, q] :: typeRuns l := by
  have hsplit := List.splitBy_append (r := fun p q : Piece => p.isSymbols && q.isSymbols)
    (l := [p, q]) (m := l) (by
      intro x _ y hy
      simp [hl y hy])
  have hpair : [p, q].splitBy (fun p q : Piece => p.isSymbols && q.isSymbols) = [[p, q]] :=
    List.splitBy_of_isChain (List.cons_ne_nil _ _) (by simp [hp, hq])
  rw [hpair] at hsplit
  exact hsplit

/-- A run of one piece is hit in the piece. It is the case of a group that is not fused. -/
theorem hitsRun_singleton (pw : Bytes) (p : Piece) : hitsRun pw [p] = sharesByte pw p.text := by
  simp [hitsRun]

/-- A fused piece is hit in one of its pieces or in the separator. The separator counts because
the source copies it into the group. -/
theorem sharesByte_fused (pw : Bytes) (p q : Piece) :
    sharesByte pw (p.text ++ semicolon :: q.text) =
      (sharesByte pw p.text || decide (semicolon ∈ pw) || sharesByte pw q.text) := by
  rw [Bool.eq_iff_iff]
  simp only [sharesByte, Bool.or_eq_true, List.any_eq_true, decide_eq_true_eq, List.mem_append,
    List.mem_cons]
  constructor
  · rintro ⟨c, hc, hmem | rfl | hmem⟩
    · exact Or.inl (Or.inl ⟨c, hc, hmem⟩)
    · exact Or.inl (Or.inr hc)
    · exact Or.inr ⟨c, hc, hmem⟩
  · rintro ((⟨c, hc, hmem⟩ | hc) | ⟨c, hc, hmem⟩)
    · exact ⟨c, hc, Or.inl hmem⟩
    · exact ⟨semicolon, hc, Or.inr (Or.inl rfl)⟩
    · exact ⟨c, hc, Or.inr (Or.inr hmem)⟩

/-- A run of two pieces is hit where the fused piece is. A pair and nothing behind it is counted
rightly. -/
theorem hitsRun_pair (pw : Bytes) (p q : Piece) :
    hitsRun pw [p, q] = sharesByte pw (p.text ++ semicolon :: q.text) := by
  rw [sharesByte_fused]
  by_cases hseparator : semicolon ∈ pw
  · simp [hitsRun, hseparator]
  · simp [hitsRun, hseparator]

/-- A longer run is hit in its first two pieces or behind them. The second part is what the loop
counts once more. -/
theorem hitsRun_cons_cons (pw : Bytes) (p q r : Piece) (run : List Piece) :
    hitsRun pw (p :: q :: r :: run) =
      (sharesByte pw (p.text ++ semicolon :: q.text) || hitsRun pw (r :: run)) := by
  rw [sharesByte_fused]
  by_cases hseparator : semicolon ∈ pw
  · simp [hitsRun, hseparator]
  · simp [hitsRun, hseparator, Bool.or_assoc]

/-- One more element is counted if it passes. The counts of both sides grow by the same terms. -/
theorem countP_cons_toNat {α : Type*} (p : α → Bool) (a : α) (l : List α) :
    (a :: l).countP p = l.countP p + (p a).toNat := by
  rw [List.countP_cons]
  cases p a <;> rfl

/-- The groups of pieces that are fused in front. The loop goes on behind both of them. -/
theorem hitGroups_fused {pw : Bytes} {p q : Piece} {l : List Piece}
    (h : (p.text.head?.any isSymbol && p.after.any isSymbol) = true) :
    hitGroups pw (p :: q :: l) =
      hitGroups pw l + (sharesByte pw (p.text ++ semicolon :: q.text)).toNat := by
  unfold hitGroups
  rw [fusePieces, if_pos h, countP_cons_toNat]

/-- The groups of a piece that stays alone. -/
theorem hitGroups_alone {pw : Bytes} {p q : Piece} {l : List Piece}
    (h : ¬(p.text.head?.any isSymbol && p.after.any isSymbol) = true) :
    hitGroups pw (p :: q :: l) = hitGroups pw (q :: l) + (sharesByte pw p.text).toNat := by
  unfold hitGroups
  rw [fusePieces, if_neg h, countP_cons_toNat]

/-- One piece is one group. -/
theorem hitGroups_singleton (pw : Bytes) (p : Piece) :
    hitGroups pw [p] = (sharesByte pw p.text).toNat := by
  unfold hitGroups
  rw [fusePieces, countP_cons_toNat, List.countP_nil, Nat.zero_add]

/-- One piece is one run. -/
theorem hitRuns_singleton (pw : Bytes) (p : Piece) :
    hitRuns pw [p] = (sharesByte pw p.text).toNat := by
  have hruns : typeRuns [p] = [[p]] := rfl
  unfold hitRuns
  rw [hruns, countP_cons_toNat, List.countP_nil, hitsRun_singleton, Nat.zero_add]

/-- The runs behind a piece that is a run by itself. -/
theorem hitRuns_cons_of_false {pw : Bytes} {p q : Piece} {l : List Piece}
    (h : (p.isSymbols && q.isSymbols) = false) :
    hitRuns pw (p :: q :: l) = hitRuns pw (q :: l) + (sharesByte pw p.text).toNat := by
  unfold hitRuns
  rw [typeRuns_cons_of_false h, countP_cons_toNat, hitsRun_singleton]

/-- The runs behind a pair of symbol pieces that is a run by itself. -/
theorem hitRuns_pair {pw : Bytes} {p q : Piece} {l : List Piece} (hp : p.isSymbols = true)
    (hq : q.isSymbols = true) (hl : ∀ r ∈ l.head?, r.isSymbols = false) :
    hitRuns pw (p :: q :: l) =
      hitRuns pw l + (sharesByte pw (p.text ++ semicolon :: q.text)).toNat := by
  unfold hitRuns
  rw [typeRuns_pair hp hq hl, countP_cons_toNat, hitsRun_pair]

/-- Behind two symbol pieces, unless there are three, comes no other one. -/
theorem head_isSymbols_of_not_three {p q : Piece} {l : List Piece} (hp : p.isSymbols = true)
    (hq : q.isSymbols = true) (h : ¬HasThreeSymbols (p :: q :: l)) :
    ∀ r ∈ l.head?, r.isSymbols = false := by
  intro r hr
  rw [← Bool.not_eq_true]
  intro hsymbols
  obtain ⟨l', rfl⟩ := List.head?_eq_some_iff.mp hr
  exact h ⟨p, q, r, ⟨[], l', rfl⟩, hp, hq, hsymbols⟩

/-- A piece of letters behind a symbol piece begins a run of its own. -/
theorem hitRuns_cons_of_letters {pw : Bytes} {q : Piece} {l : List Piece}
    (hq : q.isSymbols = false) :
    hitRuns pw (q :: l) = hitRuns pw l + (sharesByte pw q.text).toNat := by
  cases l with
  | nil =>
    rw [hitRuns_singleton]
    exact (Nat.zero_add _).symm
  | cons r l => exact hitRuns_cons_of_false (by simp [hq])

/-- A run that does not go on is not hit again. -/
theorem hitsNextRun_eq_false {pw : Bytes} {l : List Piece}
    (hl : ∀ r ∈ l.head?, r.isSymbols = false) : hitsNextRun pw l = false := by
  cases l with
  | nil => rfl
  | cons r l => simp [hitsNextRun, hl r (by simp)]

/-- The runs behind a pair of symbol pieces, whose own run may go on. The surplus is what the two
ways of counting differ in. -/
theorem hitRuns_pair_add (pw : Bytes) {p q : Piece} (l : List Piece) (hp : p.isSymbols = true)
    (hq : q.isSymbols = true) :
    hitRuns pw (p :: q :: l) +
        (sharesByte pw (p.text ++ semicolon :: q.text) && hitsNextRun pw l).toNat =
      hitRuns pw l + (sharesByte pw (p.text ++ semicolon :: q.text)).toNat := by
  by_cases hl : ∀ r ∈ l.head?, r.isSymbols = false
  · rw [hitsNextRun_eq_false hl, hitRuns_pair hp hq hl]
    simp
  · -- the run of the pair goes on with the first run of the rest
    obtain ⟨r, l, rfl, hr⟩ : ∃ r l', l = r :: l' ∧ r.isSymbols = true := by
      cases l with
      | nil => simp at hl
      | cons r l => exact ⟨r, l, rfl, by simpa using hl⟩
    obtain ⟨run, more, hrest, hruns⟩ := typeRuns_cons_of_true (p := q) (q := r) (l := l)
      (by simp [hq, hr])
    obtain ⟨run', more', hrest', hruns'⟩ := typeRuns_cons_of_true (p := p) (q := q) (l := r :: l)
      (by simp [hp, hq])
    rw [hruns, List.cons.injEq, List.cons.injEq] at hrest'
    obtain ⟨⟨-, rfl⟩, rfl⟩ := hrest'
    have hnext : hitsNextRun pw (r :: l) = hitsRun pw (r :: run) := by
      simp [hitsNextRun, hr, hrest]
    unfold hitRuns
    rw [hruns', hrest, hnext, countP_cons_toNat, countP_cons_toNat, hitsRun_cons_cons]
    cases sharesByte pw (p.text ++ semicolon :: q.text) <;> cases hitsRun pw (r :: run) <;> rfl

/-- A swallowed piece and the piece that swallows it, as one group and as two types. -/
theorem toNat_sharesByte_fused (pw : Bytes) (p q : Piece) :
    ((sharesByte pw (p.text ++ semicolon :: q.text)).toNat : ℤ) =
      (sharesByte pw p.text).toNat + (sharesByte pw q.text).toNat + swallowSurplus pw p q := by
  rw [sharesByte_fused]
  unfold swallowSurplus
  by_cases hseparator : semicolon ∈ pw
  · cases sharesByte pw p.text <;> cases sharesByte pw q.text <;> simp [hseparator]
  · cases sharesByte pw p.text <;> cases sharesByte pw q.text <;> simp [hseparator]

/-- **Counting.** The groups that a password hits are its types and the surplus. -/
theorem hitGroups_eq_add_surplus {l : List Piece} (h : Sorted l) (pw : Bytes) :
    (hitGroups pw l : ℤ) = hitRuns pw l + surplus pw l := by
  induction l using fusePieces.induct with
  | case1 => rfl
  | case2 p =>
    rw [hitGroups_singleton, hitRuns_singleton, surplus]
    omega
  | case3 p q l hfuse ih =>
    obtain ⟨hp, hnext⟩ := h.fuses_iff.mp hfuse
    have hrest := ih h.tail.tail
    rw [hitGroups_fused hfuse, surplus]
    cases hq : q.isSymbols with
    | true =>
      have hruns := hitRuns_pair_add pw l hp hq
      rw [if_pos (by simp [hp])]
      omega
    | false =>
      have hdouble : p.after = some semicolon := by
        rcases hnext with hsymbols | hdouble
        · rw [hq] at hsymbols
          exact absurd hsymbols (by decide)
        · exact hdouble
      have hgroup := toNat_sharesByte_fused pw p q
      rw [if_neg (by simp), if_pos (by simp [hp, hdouble]),
        hitRuns_cons_of_false (by simp [hq]), hitRuns_cons_of_letters hq]
      omega
  | case4 p q l hfuse ih =>
    have hpq := h.apart_of_not_fuses hfuse
    have hrest := ih h.tail
    have hkept : ¬(p.isSymbols && p.after == some semicolon) = true := by
      rw [Bool.and_eq_true, beq_iff_eq]
      rintro ⟨hp, hdouble⟩
      exact hfuse (h.fuses_iff.mpr ⟨hp, Or.inr hdouble⟩)
    rw [hitGroups_alone hfuse, hitRuns_cons_of_false hpq, surplus, if_neg (by simp [hpq]),
      if_neg hkept]
    omega

/-- Without three symbol pieces in a row and without a swallowed piece of letters there is no
surplus. -/
theorem surplus_eq_zero {l : List Piece} (hthree : ¬HasThreeSymbols l)
    (hswallow : ¬SwallowsLetters l) (pw : Bytes) : surplus pw l = 0 := by
  fun_induction surplus pw l with
  | case1 => rfl
  | case2 => rfl
  | case3 p q l hsymbols ih =>
    obtain ⟨hp, hq⟩ := Bool.and_eq_true_iff.mp hsymbols
    have hhead := head_isSymbols_of_not_three hp hq hthree
    have hthree' : ¬HasThreeSymbols l := fun hl => hthree ((hl.cons q).cons p)
    have hswallow' : ¬SwallowsLetters l := fun hl => hswallow (hl.append hhead [p, q])
    rw [ih hthree' hswallow', hitsNextRun_eq_false hhead]
    simp
  | case4 p q l hapart hdouble ih =>
    -- the symbol piece in front swallows the next one
    obtain ⟨hp, hafter⟩ := Bool.and_eq_true_iff.mp hdouble
    have hq : q.isSymbols = false := by simpa [hp] using hapart
    exact absurd ⟨[], p, q, l, rfl, by simp, hp, by simpa using hafter, hq⟩ hswallow
  | case5 p q l hapart hdouble ih =>
    have hpq : (p.isSymbols && q.isSymbols) = false := by simpa using hapart
    exact ih (fun hl => hthree (hl.cons p)) (fun hl => hswallow (hl.cons hpq))

/-- A run that goes on with a piece that is hit is hit again. -/
theorem hitsNextRun_of_hit {pw : Bytes} {r : Piece} {l : List Piece} (hr : r.isSymbols = true)
    (hhit : sharesByte pw r.text = true) : hitsNextRun pw (r :: l) = true := by
  obtain ⟨run, more, hruns⟩ := exists_typeRuns_cons r l
  simp [hitsNextRun, hitsRun, hruns, hr, hhit]

/-- Three symbol pieces in a row give a surplus to a password of the symbols of a policy. The
policy then fails for this password. -/
theorem surplus_pos {l : List Piece} {pw : Bytes}
    (hsymbols : ∀ p ∈ l, p.isSymbols = true → sharesByte pw p.text = true)
    (hletters : ∀ p ∈ l, p.isSymbols = false → sharesByte pw p.text = false) :
    0 ≤ surplus pw l ∧ (HasThreeSymbols l → 0 < surplus pw l) := by
  fun_induction surplus pw l with
  | case1 => exact ⟨le_rfl, fun hthree => absurd hthree.length_le (by simp)⟩
  | case2 => exact ⟨le_rfl, fun hthree => absurd hthree.length_le (by simp)⟩
  | case3 p q l hpair ih =>
    obtain ⟨hp, hq⟩ := Bool.and_eq_true_iff.mp hpair
    rw [List.forall_mem_cons, List.forall_mem_cons] at hsymbols hletters
    obtain ⟨hle, hlt⟩ := ih hsymbols.2.2 hletters.2.2
    refine ⟨by omega, fun hthree => ?_⟩
    by_cases hl : ∀ r ∈ l.head?, r.isSymbols = false
    · have hpos := hlt (hthree.of_pair hl)
      omega
    · -- the third symbol piece goes on with the run, but begins a new group
      cases l with
      | nil => simp at hl
      | cons r l =>
        have hr : r.isSymbols = true := by simpa using hl
        have hpairHit : sharesByte pw (p.text ++ semicolon :: q.text) = true := by
          rw [sharesByte_fused, hsymbols.1 hp]
          rfl
        have hnext : hitsNextRun pw (r :: l) = true :=
          hitsNextRun_of_hit hr (hsymbols.2.2 r List.mem_cons_self hr)
        rw [hpairHit, hnext, Bool.and_true, Bool.toNat_true]
        omega
  | case4 p q l hapart hdouble ih =>
    -- the swallowed piece is not hit, so that its type is not missed
    obtain ⟨hp, -⟩ := Bool.and_eq_true_iff.mp hdouble
    have hq : q.isSymbols = false := by simpa [hp] using hapart
    rw [List.forall_mem_cons, List.forall_mem_cons] at hsymbols hletters
    obtain ⟨hle, hlt⟩ := ih hsymbols.2.2 hletters.2.2
    have hswallow : swallowSurplus pw p q = 0 := by
      simp [swallowSurplus, hsymbols.1 hp, hletters.2.1 hq]
    rw [hswallow, add_zero]
    exact ⟨hle, fun hthree => hlt ((hthree.of_cons_cons (by simp [hq])).of_letters hq)⟩
  | case5 p q l hapart hdouble ih =>
    have hpq : (p.isSymbols && q.isSymbols) = false := by simpa using hapart
    obtain ⟨hle, hlt⟩ :=
      ih (List.forall_mem_cons.mp hsymbols).2 (List.forall_mem_cons.mp hletters).2
    exact ⟨hle, fun hthree => hlt (hthree.of_cons_cons hpq)⟩

/-- A swallowed piece of letters makes the surplus of a password of all pieces negative. The
policy then fails for this password. -/
theorem surplus_neg {l : List Piece} {pw : Bytes} (hthree : ¬HasThreeSymbols l)
    (hall : ∀ p ∈ l, sharesByte pw p.text = true) :
    surplus pw l ≤ 0 ∧ (SwallowsLetters l → surplus pw l < 0) := by
  fun_induction surplus pw l with
  | case1 => exact ⟨le_rfl, fun hswallow => absurd hswallow.length_le (by simp)⟩
  | case2 => exact ⟨le_rfl, fun hswallow => absurd hswallow.length_le (by simp)⟩
  | case3 p q l hpair ih =>
    obtain ⟨hp, hq⟩ := Bool.and_eq_true_iff.mp hpair
    rw [List.forall_mem_cons, List.forall_mem_cons] at hall
    have hthree' : ¬HasThreeSymbols l := fun hl => hthree ((hl.cons q).cons p)
    obtain ⟨hle, hlt⟩ := ih hthree' hall.2.2
    rw [hitsNextRun_eq_false (head_isSymbols_of_not_three hp hq hthree), Bool.and_false,
      Bool.toNat_false, Nat.cast_zero, add_zero]
    exact ⟨hle, fun hswallow => hlt (swallowsLetters_of_pair hp hq hswallow)⟩
  | case4 p q l hapart hdouble ih =>
    rw [List.forall_mem_cons, List.forall_mem_cons] at hall
    have hthree' : ¬HasThreeSymbols l := fun hl => hthree ((hl.cons q).cons p)
    obtain ⟨hle, -⟩ := ih hthree' hall.2.2
    have hswallow : swallowSurplus pw p q = -1 := by simp [swallowSurplus, hall.1, hall.2.1]
    rw [hswallow]
    exact ⟨by omega, fun _ => by omega⟩
  | case5 p q l hapart hdouble ih =>
    obtain ⟨hle, hlt⟩ := ih (fun hl => hthree (hl.cons p)) (List.forall_mem_cons.mp hall).2
    refine ⟨hle, fun hswallow => hlt (hswallow.of_cons_cons ?_)⟩
    rintro ⟨hp, hafter, -⟩
    simp [hp, hafter] at hdouble

/-- Fusing keeps every byte of the pieces. No byte of a policy becomes invalid by fusing. -/
theorem exists_mem_fusePieces {l : List Piece} {p : Piece} {c : Byte} (hp : p ∈ l)
    (hc : c ∈ p.text) : ∃ group ∈ fusePieces l, c ∈ group := by
  induction l using fusePieces.induct with
  | case1 => simp at hp
  | case2 x =>
    obtain rfl : p = x := by simpa using hp
    exact ⟨p.text, by simp [fusePieces], hc⟩
  | case3 x y l hfuse ih =>
    rw [fusePieces, if_pos hfuse]
    rcases List.mem_cons.mp hp with rfl | hp
    · exact ⟨_, List.mem_cons_self, List.mem_append_left _ hc⟩
    · rcases List.mem_cons.mp hp with rfl | hp
      · refine ⟨_, List.mem_cons_self, List.mem_append_right _ ?_⟩
        exact List.mem_cons_of_mem _ hc
      · obtain ⟨group, hgroup, hmem⟩ := ih hp
        exact ⟨group, List.mem_cons_of_mem _ hgroup, hmem⟩
  | case4 x y l hfuse ih =>
    rw [fusePieces, if_neg hfuse]
    rcases List.mem_cons.mp hp with rfl | hp
    · exact ⟨_, List.mem_cons_self, hc⟩
    · obtain ⟨group, hgroup, hmem⟩ := ih hp
      exact ⟨group, List.mem_cons_of_mem _ hgroup, hmem⟩

/-- Bytes of ASCII have no high bit. No password of such bytes is taken for Chinese. -/
theorem and_high_bit_eq_zero {c : Byte} (h : c.toNat < 128) : c &&& 0x80 = 0 := by
  rw [← UInt8.toNat_inj, UInt8.toNat_and]
  have hbit := Nat.and_two_pow c.toNat 7
  rw [Nat.testBit_lt_two_pow (by omega : c.toNat < 2 ^ 7)] at hbit
  simpa using hbit

/-- The bytes of a sorted policy are ASCII. -/
theorem Sorted.toNat_lt {l : List Piece} (h : Sorted l) {p : Piece} (hp : p ∈ l) {c : Byte}
    (hc : c ∈ p.text) : c.toNat < 128 := by
  rcases h.sorted p hp with hsymbols | hletters
  · have hsymbol := List.all_eq_true.mp hsymbols c hc
    simp only [isSymbol, Bool.or_eq_true, Bool.and_eq_true, decide_eq_true_eq,
      UInt8.le_iff_toNat_le] at hsymbol
    simp at hsymbol
    omega
  · have hletter := List.all_eq_true.mp hletters c hc
    simp only [isLetterOrDigit, Bool.or_eq_true, Bool.and_eq_true, decide_eq_true_eq,
      UInt8.le_iff_toNat_le] at hletter
    simp at hletter
    omega

/-- A password of bytes of a sorted policy is not invalid. The failing passwords of the two kinds
come as far as the comparison. -/
theorem isTypeValid_ne_invalid {pw policy : Bytes} (hsorted : WellSorted policy)
    (h : ∀ c ∈ pw, ∃ p ∈ pieces policy, c ∈ p.text) (required : ℤ) :
    isTypeValid pw policy required ≠ .characterInvalid := by
  have hearly : ¬(HasHighPair pw ∨ HasForeignByte (seen pw) policy) := by
    rintro (⟨c, d, hinside, hhigh, -⟩ | ⟨c, hc, hnone⟩)
    · obtain ⟨p, hp, hmem⟩ := h c (hinside.mem List.mem_cons_self)
      exact hhigh (and_high_bit_eq_zero (hsorted.sorted_pieces.toNat_lt hp hmem))
    · obtain ⟨p, hp, hmem⟩ := h c ((seen_initial pw).subset hc)
      obtain ⟨group, hgroup, hin⟩ := exists_mem_fusePieces hp hmem
      exact hnone group hgroup hin
  rw [isTypeValid_eq, if_neg hearly]
  split_ifs <;> decide

/-- There are no more than 256 different bytes, so a password that lists some is read whole. -/
theorem length_dedup_lt (l : Bytes) : l.dedup.length < 2 ^ 31 := by
  have hnodup : (l.dedup.map UInt8.toNat).Nodup :=
    l.nodup_dedup.map fun _ _ heq => UInt8.toNat_inj.mp heq
  have hsubset : l.dedup.map UInt8.toNat ⊆ List.range 256 := by
    intro n hn
    obtain ⟨c, -, rfl⟩ := List.mem_map.mp hn
    exact List.mem_range.mpr c.toNat_lt
  have hlength := (List.subperm_of_subset hnodup hsubset).length_le
  rw [List.length_map, List.length_range] at hlength
  omega

/-- A password with the bytes of a piece hits it. It is used for the passwords that are built from
a policy. -/
theorem Sorted.sharesByte {l : List Piece} (h : Sorted l) {pw : Bytes} {p : Piece} (hp : p ∈ l)
    (hbytes : ∀ c ∈ p.text, c ∈ pw) : sharesByte pw p.text = true := by
  obtain ⟨c, s, hc⟩ := List.exists_cons_of_ne_nil (h.nonempty p hp)
  refine List.any_eq_true.mpr ⟨c, hbytes c (by simp [hc]), by simp [hc]⟩

/-- A piece of letters has no symbols. -/
theorem Sorted.isSymbol_eq_false {l : List Piece} (h : Sorted l) {p : Piece} (hp : p ∈ l)
    (hletters : p.isSymbols = false) {c : Byte} (hc : c ∈ p.text) : isSymbol c = false := by
  rcases h.sorted p hp with hsymbols | hsorted
  · rw [hletters] at hsymbols
    exact absurd hsymbols (by decide)
  · exact isSymbol_of_isLetterOrDigit (List.all_eq_true.mp hsorted c hc)

/-- Three symbol pieces in a row are counted too often for the password of all symbols of the
policy. -/
theorem HasThreeSymbols.exists_password {policy : Bytes} (hsorted : WellSorted policy)
    (hthree : HasThreeSymbols (pieces policy)) :
    ∃ pw : Bytes, pw.length < 2 ^ 31 ∧ isTypeValid pw policy 0 ≠ .characterInvalid ∧
      0 < surplus pw (pieces policy) := by
  have hpieces := hsorted.sorted_pieces
  set pw := (((pieces policy).filter Piece.isSymbols).flatMap Piece.text).dedup with hpw
  have hmem (c : Byte) (hc : c ∈ pw) : ∃ p ∈ pieces policy, p.isSymbols = true ∧ c ∈ p.text := by
    obtain ⟨p, hp, hcp⟩ := List.mem_flatMap.mp (List.mem_dedup.mp hc)
    exact ⟨p, (List.mem_filter.mp hp).1, (List.mem_filter.mp hp).2, hcp⟩
  have hsymbols (p : Piece) (hp : p ∈ pieces policy) (hps : p.isSymbols = true) :
      sharesByte pw p.text = true := by
    refine hpieces.sharesByte hp fun c hc => ?_
    exact List.mem_dedup.mpr (List.mem_flatMap.mpr ⟨p, List.mem_filter.mpr ⟨hp, hps⟩, hc⟩)
  have hletters (p : Piece) (hp : p ∈ pieces policy) (hps : p.isSymbols = false) :
      sharesByte pw p.text = false := by
    rw [← Bool.not_eq_true]
    intro hshares
    obtain ⟨c, hc, hcp⟩ := List.any_eq_true.mp hshares
    obtain ⟨q, -, hqs, hcq⟩ := hmem c hc
    have hsymbol : isSymbol c = true := List.all_eq_true.mp hqs c hcq
    rw [hpieces.isSymbol_eq_false hp hps (by simpa using hcp)] at hsymbol
    exact absurd hsymbol (by decide)
  refine ⟨pw, length_dedup_lt _, isTypeValid_ne_invalid hsorted (fun c hc => ?_) 0, ?_⟩
  · obtain ⟨p, hp, -, hcp⟩ := hmem c hc
    exact ⟨p, hp, hcp⟩
  · exact (surplus_pos hsymbols hletters).2 hthree

/-- A swallowed piece of letters is missing for the password of all bytes of the policy. -/
theorem SwallowsLetters.exists_password {policy : Bytes} (hsorted : WellSorted policy)
    (hthree : ¬HasThreeSymbols (pieces policy)) (hswallow : SwallowsLetters (pieces policy)) :
    ∃ pw : Bytes, pw.length < 2 ^ 31 ∧ isTypeValid pw policy 0 ≠ .characterInvalid ∧
      surplus pw (pieces policy) < 0 := by
  have hpieces := hsorted.sorted_pieces
  set pw := ((pieces policy).flatMap Piece.text).dedup with hpw
  have hall (p : Piece) (hp : p ∈ pieces policy) : sharesByte pw p.text = true :=
    hpieces.sharesByte hp fun c hc => List.mem_dedup.mpr (List.mem_flatMap.mpr ⟨p, hp, hc⟩)
  have hvalid := @isTypeValid_ne_invalid pw _ hsorted
    (fun c hc => List.mem_flatMap.mp (List.mem_dedup.mp hc)) 0
  refine ⟨pw, length_dedup_lt _, hvalid, ?_⟩
  exact (surplus_neg hthree hall).2 hswallow

/-- The loop counts the types and the surplus of what it reads. -/
theorem typeLoop_pass_eq {policy : Bytes} (hsorted : WellSorted policy) (pw : Bytes) :
    ((typeLoop pw policy ⟨[], 0⟩).pass : ℤ) =
      hitRuns (seen pw) (pieces policy) + surplus (seen pw) (pieces policy) := by
  rw [← hitGroups_eq_add_surplus hsorted.sorted_pieces, typeLoop_eq]
  rfl

/-- A run that is hit by what is read of a password is hit by the password. A type that is not
read can only be missing. -/
theorem hitsRun_of_seen {pw : Bytes} {run : List Piece} (h : hitsRun (seen pw) run = true) :
    hitsRun pw run = true := by
  have hsubset := (seen_initial pw).subset
  unfold hitsRun at h ⊢
  rw [Bool.or_eq_true, Bool.and_eq_true, List.any_eq_true, decide_eq_true_eq,
    decide_eq_true_eq] at h ⊢
  rcases h with ⟨p, hp, hshares⟩ | ⟨hlong, hseparator⟩
  · exact Or.inl ⟨p, hp, sharesByte_of_subset hsubset hshares⟩
  · exact Or.inr ⟨hlong, hsubset hseparator⟩

/-- The types that a password hits are those that it hits with what is read of it, and others.
What is missing is compared with the surplus. -/
theorem hitRuns_eq_add (pw : Bytes) (l : List Piece) :
    hitRuns pw l = hitRuns (seen pw) l + unreadRuns pw l := by
  unfold hitRuns unreadRuns
  induction typeRuns l with
  | nil => rfl
  | cons run runs ih =>
    rw [List.countP_cons, List.countP_cons, List.countP_cons, ih]
    cases hread : hitsRun (seen pw) run with
    | true =>
      rw [hitsRun_of_seen hread]
      simp
      omega
    | false =>
      cases hitsRun pw run with
      | true =>
        simp
        omega
      | false => simp

/-- A password that is not too long for an `int` has no types that are not read. -/
theorem unreadRuns_of_lt {pw : Bytes} (hint : pw.length < 2 ^ 31) (l : List Piece) :
    unreadRuns pw l = 0 := by
  unfold unreadRuns
  rw [seen_of_lt hint]
  simp

/-- **Symbols as one type.** On a policy of symbol pieces and pieces of letters and digits, the
number that `is_type_valid` compares is that of the types exactly if the surplus of what is read
of the password makes up for the types that are not read: for a password that is not too long for
an `int`, if there is no surplus. It is so for every such password that gets so far exactly if the
policy has no three symbol pieces in a row and swallows no letters. -/
theorem typeLoop_pass_eq_hitRuns_iff {policy : Bytes} (hsorted : WellSorted policy) :
    (∀ pw, (typeLoop pw policy ⟨[], 0⟩).pass = hitRuns pw (pieces policy) ↔
        surplus (seen pw) (pieces policy) = unreadRuns pw (pieces policy)) ∧
      (∀ pw : Bytes, pw.length < 2 ^ 31 →
        ((typeLoop pw policy ⟨[], 0⟩).pass = hitRuns pw (pieces policy) ↔
          surplus pw (pieces policy) = 0)) ∧
      ((∀ (pw : Bytes) (required : ℤ), pw.length < 2 ^ 31 →
          isTypeValid pw policy required ≠ .characterInvalid →
            (typeLoop pw policy ⟨[], 0⟩).pass = hitRuns pw (pieces policy)) ↔
        ¬HasThreeSymbols (pieces policy) ∧ ¬SwallowsLetters (pieces policy)) := by
  have hread (pw : Bytes) : (typeLoop pw policy ⟨[], 0⟩).pass = hitRuns pw (pieces policy) ↔
      surplus (seen pw) (pieces policy) = unreadRuns pw (pieces policy) := by
    have hpass := typeLoop_pass_eq hsorted pw
    have hruns := hitRuns_eq_add pw (pieces policy)
    omega
  have hsurplus (pw : Bytes) (hint : pw.length < 2 ^ 31) :
      (typeLoop pw policy ⟨[], 0⟩).pass = hitRuns pw (pieces policy) ↔
        surplus pw (pieces policy) = 0 := by
    rw [hread, unreadRuns_of_lt hint, seen_of_lt hint]
    rfl
  refine ⟨hread, hsurplus, ?_⟩
  constructor
  · intro hcount
    have hthree : ¬HasThreeSymbols (pieces policy) := by
      intro hthree
      obtain ⟨pw, hint, hreached, hpos⟩ := hthree.exists_password hsorted
      have hzero := (hsurplus pw hint).mp (hcount pw 0 hint hreached)
      omega
    refine ⟨hthree, fun hswallow => ?_⟩
    obtain ⟨pw, hint, hreached, hneg⟩ := hswallow.exists_password hsorted hthree
    have hzero := (hsurplus pw hint).mp (hcount pw 0 hint hreached)
    omega
  · rintro ⟨hthree, hswallow⟩ pw required hint -
    exact (hsurplus pw hint).mpr (surplus_eq_zero hthree hswallow pw)

/-- The equivalences for two symbol pieces behind digits. -/
theorem typeLoop_pass_eq_hitRuns_iff_digits :
    (∀ pw, (typeLoop pw (bytes "123;!;@") ⟨[], 0⟩).pass = hitRuns pw (pieces (bytes "123;!;@")) ↔
        surplus (seen pw) (pieces (bytes "123;!;@")) =
          unreadRuns pw (pieces (bytes "123;!;@"))) ∧
      (∀ pw : Bytes, pw.length < 2 ^ 31 →
        ((typeLoop pw (bytes "123;!;@") ⟨[], 0⟩).pass =
            hitRuns pw (pieces (bytes "123;!;@")) ↔
          surplus pw (pieces (bytes "123;!;@")) = 0)) ∧
      ((∀ (pw : Bytes) (required : ℤ), pw.length < 2 ^ 31 →
          isTypeValid pw (bytes "123;!;@") required ≠ .characterInvalid →
            (typeLoop pw (bytes "123;!;@") ⟨[], 0⟩).pass =
              hitRuns pw (pieces (bytes "123;!;@"))) ↔
        ¬HasThreeSymbols (pieces (bytes "123;!;@")) ∧
          ¬SwallowsLetters (pieces (bytes "123;!;@"))) :=
  typeLoop_pass_eq_hitRuns_iff (by decide)

/-- In `!;@;#` the symbols of the password `!#` count as two types. -/
theorem typeLoop_pass_ne_hitRuns :
    ¬∀ (policy pw : Bytes) (required : ℤ), WellSorted policy →
      isTypeValid pw policy required ≠ .characterInvalid →
        (typeLoop pw policy ⟨[], 0⟩).pass = hitRuns pw (pieces policy) := by
  intro h
  have hcount := h (bytes "!;@;#") (bytes "!#") 1 (by decide +kernel) (by decide +kernel)
  exact absurd hcount (by decide +kernel)

end DeepinPwCheck
