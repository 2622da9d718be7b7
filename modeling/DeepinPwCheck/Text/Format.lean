import DeepinPwCheck.Text.Decimal

/-!
# Formatted output

`snprintf` for arguments that are numbers of type `int` and strings: literal bytes, and conversion
specifications with flags, a width, a precision, a length modifier, and arguments by number. What
C and POSIX leave undefined (a conversion that does not fit its argument, an argument that is not
there, numbered arguments beside others) has no result here. How long the output is follows from
the specifications and their arguments alone.
-/

namespace CText

/-- The percent sign. -/
abbrev percent : Byte := 37
/-- The asterisk: a width or a precision that is an argument. -/
abbrev asterisk : Byte := 42
/-- The minus sign: the flag for output at the left of its field. -/
abbrev minusSign : Byte := 45
/-- The digit zero, also the flag for zeros in front of a number. -/
abbrev zeroDigit : Byte := 48

/-- An argument of the printing functions. A string may be a buffer that nobody wrote. -/
inductive FormatArg where
  | int (z : ℤ)
  | str (s : Option Bytes)

/-- A width or a precision: left out, written in the format, or an argument. -/
inductive Count where
  | absent
  | number (n : ℕ)
  | star (position : Option ℕ)
  deriving DecidableEq

/-- A conversion specification. -/
structure Spec where
  position : Option ℕ
  flags : Bytes
  width : Count
  precision : Count
  modifier : Bytes
  conversion : Byte
  deriving DecidableEq

/-- What the C library and the locale decide about output: the text of a pointer, the grouping of
digits, the bytes of a wide character, the text of the last error, and what is printed for a
percent sign that begins no conversion. The GNU library prints such a specification as it is. -/
structure Platform where
  pointer : Bytes
  grouped : Bytes → Bytes
  wideChar : ℤ → Option Bytes
  lastError : Bytes
  unknown : Spec → Option Bytes

/-- A format is made of bytes and conversion specifications. -/
inductive FormatPiece where
  | byte (c : Byte)
  | directive (spec : Spec)
  deriving DecidableEq

/-- The flags. -/
def isFlag (c : Byte) : Bool := c ∈ bytes "-+ #0'"

/-- The letters of the conversions, also of those that no argument here fits. -/
def isConversion (c : Byte) : Bool := c ∈ bytes "diouxXcsCSpnmaAeEfFgG"

/-- The bytes between a percent sign and the letter of its conversion. -/
def continuesDirective (c : Byte) : Bool := isDigit c || c ∈ bytes "-+ #'$*.hlqjztL"

/-- The number of an argument, if one stands in front, and what follows it. -/
def readPosition (s : Bytes) : Option ℕ × Bytes :=
  match s.dropWhile isDigit with
  | [] => (none, s)
  | c :: rest => if c = 36 then (some (magnitude 10 (s.takeWhile isDigit)), rest) else (none, s)

/-- A width, and what follows it. -/
def readCount : Bytes → Count × Bytes
  | [] => (.absent, [])
  | c :: rest =>
      if c = asterisk then (.star (readPosition rest).1, (readPosition rest).2)
      else if isDigit c then
        (.number (magnitude 10 ((c :: rest).takeWhile isDigit)), (c :: rest).dropWhile isDigit)
      else (.absent, c :: rest)

/-- A precision, and what follows it. A point alone is a precision of zero. -/
def readPrecision : Bytes → Count × Bytes
  | [] => (.absent, [])
  | c :: rest =>
      if c = 46 then
        match readCount rest with
        | (.absent, rest) => (.number 0, rest)
        | found => found
      else (.absent, c :: rest)

/-- The parts of the text between a percent sign and the letter of its conversion. What is left at
the end counts as the length modifier. -/
def readSpec (text : Bytes) (conversion : Byte) : Spec :=
  let position := readPosition text
  let flags := position.2.takeWhile isFlag
  let width := readCount (position.2.dropWhile isFlag)
  let precision := readPrecision width.2
  ⟨position.1, flags, width.1, precision.1, precision.2, conversion⟩

/-- The pieces of a format, or of its rest after a percent sign and some bytes, unless the format
ends in the middle of a specification. -/
def formatPieces : Option Bytes → Bytes → Option (List FormatPiece)
  | none, [] => some []
  | some _, [] => none
  | none, c :: rest =>
      if c = percent then formatPieces (some []) rest
      else (formatPieces none rest).map (.byte c :: ·)
  | some text, c :: rest =>
      if continuesDirective c then formatPieces (some (text ++ [c])) rest
      else if text = [] ∧ c = percent then (formatPieces none rest).map (.byte percent :: ·)
      else (formatPieces none rest).map (.directive (readSpec text c) :: ·)

/-- An argument, the next one or the one with a number, and the index of the next one then. -/
def argument (args : List FormatArg) (next : ℕ) : Option ℕ → Option (FormatArg × ℕ)
  | none => args[next]?.map (·, next + 1)
  | some n => if n = 0 then none else args[n - 1]?.map (·, next)

/-- The value of a width or a precision. -/
def Count.value (args : List FormatArg) (next : ℕ) : Count → Option (Option ℤ × ℕ)
  | absent => some (none, next)
  | number n => if n < 2 ^ 31 then some (some n, next) else none
  | star position =>
      match argument args next position with
      | some (.int z, next) => some (some z, next)
      | _ => none

/-- The output of one conversion before it is brought to its width. -/
structure Field where
  width : ℕ
  left : Bool
  /-- The sign of a number, or the mark of its base. -/
  sign : Bytes
  zeros : ℕ
  body : Bytes
  /-- A NUL character has been written, where the string in the buffer ends. -/
  ends : Bool

/-- The output without blanks. -/
def Field.text (f : Field) : Bytes := f.sign ++ (List.replicate f.zeros zeroDigit ++ f.body)

/-- The output with blanks on the right or on the left of it. -/
def Field.render (f : Field) : Bytes :=
  let blanks := List.replicate (f.width - f.text.length) space
  if f.left then f.text ++ blanks else blanks ++ f.text

/-- The number of bytes of the output. -/
def Field.length (f : Field) : ℕ := max f.width (f.sign.length + f.zeros + f.body.length)

/-- The bits of an `int` that a length modifier keeps. Other modifiers ask for another type. -/
def modifierBits (modifier : Bytes) : Option ℕ :=
  if modifier = [] then some 32
  else if modifier = bytes "h" then some 16
  else if modifier = bytes "hh" then some 8
  else none

/-- The digits of a number in another base, with the letter that stands for ten. -/
def digitsIn (base ten n : ℕ) : Bytes :=
  if n = 0 then [zeroDigit]
  else (Nat.digits base n).reverse.map fun d =>
    UInt8.ofNat (if d < 10 then 48 + d else ten + d - 10)

/-- The output for a number: zeros come from the precision or else from the flag. -/
def numberField (flags : Bytes) (width : ℕ) (left : Bool) (precision : Option ℕ)
    (sign digits : Bytes) : Field :=
  let body := if precision = some 0 ∧ digits = [zeroDigit] then [] else digits
  let zeros := match precision with
    | some p => p - body.length
    | none => if zeroDigit ∈ flags ∧ !left then width - (sign.length + body.length) else 0
  ⟨width, left, sign, zeros, body, false⟩

/-- The output for a text. -/
def textField (width : ℕ) (left : Bool) (precision : Option ℕ) (s : Bytes) : Field :=
  ⟨width, left, [], 0, match precision with | none => s | some p => s.take p, false⟩

/-- The output for a character. A NUL character ends the string, after the blanks before it. -/
def charField (width : ℕ) (left : Bool) (c : Byte) : Field :=
  if c = 0 then ⟨if left then 0 else width - 1, left, [], 0, [], true⟩
  else ⟨width, left, [], 0, [c], false⟩

/-- The conversions `d` and `i`. -/
def signedField (platform : Platform) (spec : Spec) (width : ℕ) (left : Bool)
    (precision : Option ℕ) (z : ℤ) : Option Field :=
  if hash ∈ spec.flags then none
  else (modifierBits spec.modifier).map fun bits =>
    let value := z.bmod (2 ^ bits)
    let sign := if value < 0 then [minusSign] else if 43 ∈ spec.flags then [43]
      else if space ∈ spec.flags then [space] else []
    let digits := decimalNat value.natAbs
    numberField spec.flags width left precision sign
      (if apostrophe ∈ spec.flags then platform.grouped digits else digits)

/-- The conversions `u`, `o`, `x` and `X`. The alternative form marks the base. -/
def unsignedField (platform : Platform) (spec : Spec) (width : ℕ) (left : Bool)
    (precision : Option ℕ) (z : ℤ) : Option Field :=
  (modifierBits spec.modifier).bind fun bits =>
    let value := (z % 2 ^ bits).toNat
    if spec.conversion = 117 then
      if hash ∈ spec.flags then none
      else some (numberField spec.flags width left precision []
        (if apostrophe ∈ spec.flags then platform.grouped (decimalNat value)
          else decimalNat value))
    else if apostrophe ∈ spec.flags then none
    else if spec.conversion = 111 then
      let f := numberField spec.flags width left precision [] (digitsIn 8 97 value)
      some (if hash ∈ spec.flags ∧ f.body.head? ≠ some zeroDigit then
        { f with zeros := max 1 f.zeros } else f)
    else
      let ten := if spec.conversion = 120 then 97 else 65
      let mark := if hash ∈ spec.flags ∧ value ≠ 0 then [zeroDigit, spec.conversion] else []
      some (numberField spec.flags width left precision mark (digitsIn 16 ten value))

/-- The flags that a conversion of a text or of a character may have. -/
def Spec.hasTextFlags (spec : Spec) : Bool :=
  spec.flags.all fun c => c ∈ bytes "-+ "

/-- What a conversion makes of its argument. -/
def Spec.convert (platform : Platform) (spec : Spec) (width : ℕ) (left : Bool)
    (precision : Option ℕ) : FormatArg → Option Field
  | .int z =>
      if spec.conversion ∈ bytes "di" then signedField platform spec width left precision z
      else if spec.conversion ∈ bytes "uoxX" then
        unsignedField platform spec width left precision z
      else if !spec.hasTextFlags || precision ≠ none then none
      else if spec.conversion = 99 ∧ spec.modifier = [] then
        some (charField width left (UInt8.ofNat (z % 256).toNat))
      else if spec.conversion = 67 ∧ spec.modifier = [] ∨
          spec.conversion = 99 ∧ spec.modifier = bytes "l" then
        (platform.wideChar z).map (textField width left none)
      else none
  | .str s =>
      if !spec.hasTextFlags || spec.modifier ≠ [] then none
      else if spec.conversion = 115 then
        if precision = some 0 then some (textField width left none [])
        else s.map (textField width left precision)
      else if spec.conversion = 112 ∧ precision = none then
        some (textField width left none platform.pointer)
      else none

/-- The output of a specification, and the index of the next argument. A negative width stands for
the flag and the width, a negative precision for none. -/
def Spec.field (platform : Platform) (args : List FormatArg) (spec : Spec) (next : ℕ) :
    Option (Field × ℕ) :=
  if !isConversion spec.conversion then
    (platform.unknown spec).map fun s => (textField 0 false none s, next)
  else (spec.width.value args next).bind fun (width, next) =>
    (spec.precision.value args next).bind fun (precision, next) =>
      let left := minusSign ∈ spec.flags || width.any (· < 0)
      let precision := (precision.filter (0 ≤ ·)).map Int.toNat
      let width := (width.getD 0).natAbs
      if spec.conversion = 109 then
        if !spec.hasTextFlags || spec.modifier ≠ [] || spec.position ≠ none then none
        else some (textField width left precision platform.lastError, next)
      else
        (argument args next spec.position).bind fun (arg, next) =>
          (spec.convert platform width left precision arg).map fun field => (field, next)

/-- Where a width or a precision takes its argument from. -/
def Count.positions : Count → List (Option ℕ)
  | star position => [position]
  | _ => []

/-- Where a piece takes its arguments from. -/
def FormatPiece.positions : FormatPiece → List (Option ℕ)
  | byte _ => []
  | directive spec =>
      spec.width.positions ++ (spec.precision.positions ++
        if spec.conversion = 109 || !isConversion spec.conversion then [] else [spec.position])

/-- The arguments are taken in order, or by numbers of which none is left out. -/
def numberedAlike (positions : List (Option ℕ)) : Bool :=
  positions.all (· = none) ||
    positions.all fun position => position.any fun n =>
      (List.range n).all fun i => some (i + 1) ∈ positions

/-- The output for the pieces of a format. -/
def renderPieces (platform : Platform) (args : List FormatArg) :
    List FormatPiece → ℕ → Option Bytes
  | [], _ => some []
  | .byte c :: pieces, next => (renderPieces platform args pieces next).map (c :: ·)
  | .directive spec :: pieces, next =>
      (spec.field platform args next).bind fun (field, next) =>
        (renderPieces platform args pieces next).map fun rest =>
          field.render ++ if field.ends then [] else rest

/-- `snprintf`: the output cut to a buffer of the given size, with its terminator. -/
def snprintf (platform : Platform) (size : ℕ) (format : Bytes) (args : List FormatArg) :
    Option Bytes :=
  ((formatPieces none format).filter fun pieces =>
      numberedAlike (pieces.flatMap FormatPiece.positions)).bind fun pieces =>
    (renderPieces platform args pieces 0).map (·.take (size - 1))

/-- The number of bytes that the pieces of a format come to: one for each literal byte, and for
each specification its width or what its argument needs, whichever is greater. -/
def lengthPieces (platform : Platform) (args : List FormatArg) : List FormatPiece → ℕ → Option ℕ
  | [], _ => some 0
  | .byte _ :: pieces, next => (lengthPieces platform args pieces next).map (· + 1)
  | .directive spec :: pieces, next =>
      (spec.field platform args next).bind fun (field, next) =>
        (lengthPieces platform args pieces next).map fun rest =>
          field.length + if field.ends then 0 else rest

/-- The specifications fit their arguments, and they and the literal bytes come to at most `limit`
bytes. -/
def FormatFits (platform : Platform) (limit : ℕ) (format : Bytes) (args : List FormatArg) : Prop :=
  ∃ pieces n, formatPieces none format = some pieces ∧
    numberedAlike (pieces.flatMap FormatPiece.positions) = true ∧
      lengthPieces platform args pieces 0 = some n ∧ n ≤ limit

/-- Blanks bring the output of a conversion to its width, and leave a longer one as it is. -/
@[simp] theorem Field.length_render (f : Field) : f.render.length = f.length := by
  have htext : f.text.length = f.sign.length + f.zeros + f.body.length := by
    simp [Field.text, Nat.add_assoc]
  unfold Field.render Field.length
  rw [← htext]
  dsimp only
  split_ifs
  · rw [List.length_append, List.length_replicate]
    omega
  · rw [List.length_append, List.length_replicate]
    omega

/-- The output is as long as its pieces come to. Each piece adds its own length, which nothing
that comes after it changes. -/
theorem length_renderPieces (platform : Platform) (args : List FormatArg)
    (pieces : List FormatPiece) (next : ℕ) :
    (renderPieces platform args pieces next).map List.length =
      lengthPieces platform args pieces next := by
  induction pieces generalizing next with
  | nil => rfl
  | cons piece pieces ih =>
    cases piece with
    | byte c =>
      rw [renderPieces, lengthPieces, ← ih next, Option.map_map, Option.map_map]
      rfl
    | directive spec =>
      rw [renderPieces, lengthPieces]
      cases hfield : spec.field platform args next with
      | none => rfl
      | some result =>
        obtain ⟨field, next'⟩ := result
        simp only [Option.bind_some]
        rw [← ih next', Option.map_map, Option.map_map]
        congr 1
        funext rest
        cases hends : field.ends <;> simp

/-- **Length of formatted output.** It has at most `limit` bytes, which the buffer holds, exactly
if the specifications fit their arguments and come to no more with the literal bytes. -/
theorem snprintf_length_le_iff {platform : Platform} {size limit : ℕ} {format : Bytes}
    {args : List FormatArg} (hlimit : limit < size - 1) :
    (∃ s, snprintf platform size format args = some s ∧ s.length ≤ limit) ↔
      FormatFits platform limit format args := by
  have hcut (s : Bytes) : (s.take (size - 1)).length ≤ limit ↔ s.length ≤ limit := by
    rw [List.length_take]
    omega
  constructor
  · rintro ⟨s, hs, hlength⟩
    obtain ⟨pieces, hpieces, hrender⟩ := Option.bind_eq_some_iff.mp hs
    obtain ⟨hparse, hnumbered⟩ := Option.filter_eq_some_iff.mp hpieces
    obtain ⟨out, hout, rfl⟩ := Option.map_eq_some_iff.mp hrender
    have hsum := length_renderPieces platform args pieces 0
    rw [hout, Option.map_some] at hsum
    exact ⟨pieces, out.length, hparse, hnumbered, hsum.symm, (hcut out).mp hlength⟩
  · rintro ⟨pieces, n, hparse, hnumbered, hsum, hle⟩
    rw [← length_renderPieces] at hsum
    obtain ⟨out, hout, rfl⟩ := Option.map_eq_some_iff.mp hsum
    refine ⟨out.take (size - 1), ?_, (hcut out).mpr hle⟩
    refine Option.bind_eq_some_iff.mpr ⟨pieces, ?_, Option.map_eq_some_iff.mpr ⟨out, hout, rfl⟩⟩
    exact Option.filter_eq_some_iff.mpr ⟨hparse, hnumbered⟩

/-- A platform that groups nothing, and prints a percent sign that begins no conversion. -/
def plainPlatform : Platform where
  pointer := bytes "(nil)"
  grouped := id
  wideChar := fun _ => none
  lastError := bytes "Success"
  unknown spec :=
    if spec = readSpec [] spec.conversion then some [percent, spec.conversion] else none

example : snprintf plainPlatform 512 (bytes "%2$d of %1$+5d%% %1$#06x") [.int 42, .int 3] =
    some (bytes "3 of   +42% 0x002a") := by decide

example : snprintf plainPlatform 512 (bytes "%-4i|%*u|%.3d|%c%s") [.int 7, .int 3, .int 5,
    .int (-2), .int 65, .str (some (bytes "bc"))] = some (bytes "7   |  5|-002|Abc") := by decide

end CText
