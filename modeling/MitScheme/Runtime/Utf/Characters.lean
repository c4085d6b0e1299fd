import MitScheme.Runtime.Utf.Bytevector

/-!
A character is its code. The encoders write one character at an index and return the next index;
the decoders read one at an index, where `none` is `#f`, an ill-formed sequence.
-/

namespace MitScheme.Runtime.Utf

open Library

def charCodeLimit : ℕ := 0x110000

def charReplacement : ℕ := 0xFFFD

def charBom : ℕ := 0xFEFF

/-- The primitive `integer->char`, which makes characters with bucky bits too. -/
def integerToChar (n : ℕ) : Except Error ℕ :=
  if n < 2 ^ 25 then .ok n else .error (.badRange n "integer->char")

def utf16Surrogate (cp : ℕ) : Bool := 0xD800 == (0xF800 &&& cp)

def utf16HighSurrogate (cp : ℕ) : Bool := 0xD800 == (0xFC00 &&& cp)

def utf16LowSurrogate (cp : ℕ) : Bool := 0xDC00 == (0xFC00 &&& cp)

def unicodeCodePoint (n : ℕ) : Bool := n < charCodeLimit

def unicodeScalarValue (n : ℕ) : Bool := unicodeCodePoint n && !utf16Surrogate n

def charToScalarValue (char : ℕ) (caller : String) : Except Error ℕ :=
  if unicodeScalarValue char then .ok char else .error (.notA "unicode-scalar-value" char caller)

def extractBits (word mask : ℕ) (shift : ℤ) : ℕ := lsh (word &&& mask) shift

def insertBits (word mask : ℕ) (shift : ℤ) : ℕ := lsh word shift &&& mask

theorem extractBits_eq (word width low : ℕ) : extractBits word (2 ^ width - 1) low = word % 2 ^ width * 2 ^ low := by
  unfold extractBits
  rw [land_ones, lsh_left]

theorem insertBits_eq (word width low : ℕ) : insertBits word (2 ^ width - 1) (-low) = word / 2 ^ low % 2 ^ width := by
  unfold insertBits
  rw [land_ones, lsh_right]

def charUtf8ByteLength (char : ℕ) : Except Error ℕ := do
  let sv ← charToScalarValue char "char-utf8-byte-length"
  .ok (if sv < 0x80 then 1 else if sv < 0x800 then 2 else if sv < 0x10000 then 3 else 4)

def initialByte (sv leader : ℕ) (offset : ℤ) : ℕ := leader ||| lsh sv offset

def trailingByte (sv : ℕ) (offset : ℤ) : ℕ := 0x80 ||| insertBits sv 0x3F offset

def encodeUtf8Char (bytes : Bytevector) (index : Value) (char : ℕ) : Except Error (Bytevector × Value) := do
  let sv ← charToScalarValue char "encode-utf8-char!"
  let index ← index.toIndex "bytevector-u8-set!"
  if sv < 0x80 then do
    let bytes ← bytevectorU8Set bytes index sv
    .ok (bytes, .index (index + 1))
  else if sv < 0x800 then do
    let bytes ← bytevectorU8Set bytes index (initialByte sv 0xC0 (-6))
    let bytes ← bytevectorU8Set bytes (index + 1) (trailingByte sv 0)
    .ok (bytes, .index (index + 2))
  else if sv < 0x10000 then do
    let bytes ← bytevectorU8Set bytes index (initialByte sv 0xE0 (-12))
    let bytes ← bytevectorU8Set bytes (index + 1) (trailingByte sv (-6))
    let bytes ← bytevectorU8Set bytes (index + 2) (trailingByte sv 0)
    .ok (bytes, .index (index + 3))
  else do
    let bytes ← bytevectorU8Set bytes index (initialByte sv 0xF0 (-18))
    let bytes ← bytevectorU8Set bytes (index + 1) (trailingByte sv (-12))
    let bytes ← bytevectorU8Set bytes (index + 2) (trailingByte sv (-6))
    let bytes ← bytevectorU8Set bytes (index + 3) (trailingByte sv 0)
    .ok (bytes, .index (index + 4))

def charUtf16ByteLength (char : ℕ) : Except Error ℕ := do
  let sv ← charToScalarValue char "char-utf16-byte-length"
  .ok (if sv < 0x10000 then 2 else 4)

abbrev Setter := Bytevector → ℕ → ℕ → Except Error Bytevector

abbrev Getter := Bytevector → ℕ → Except Error ℕ

def utf16CharEncoder (setter : Setter) (caller : String) (bytes : Bytevector) (index : Value) (char : ℕ) :
    Except Error (Bytevector × Value) := do
  let sv ← charToScalarValue char caller
  let index ← index.toIndex "integer-add"
  if sv < 0x10000 then do
    let bytes ← setter bytes index sv
    .ok (bytes, .index (index + 2))
  else do
    let n := sv - 0x10000
    let bytes ← setter bytes index (0xD800 ||| insertBits n 0x3FF (-10))
    let bytes ← setter bytes (index + 2) (0xDC00 ||| insertBits n 0x3FF 0)
    .ok (bytes, .index (index + 4))

def charUtf32ByteLength (char : ℕ) : Except Error ℕ := do
  let _ ← charToScalarValue char "char-utf32-byte-length"
  .ok 4

/-- The value is that of the setter, whose last assignment returns nothing of use. -/
def utf32CharEncoder (setter : Setter) (caller : String) (bytes : Bytevector) (index : Value) (char : ℕ) :
    Except Error (Bytevector × Value) := do
  let sv ← charToScalarValue char caller
  let index ← index.toIndex "integer-add"
  let bytes ← setter bytes index sv
  .ok (bytes, .unspecific)

def utf8InitialByte1 (byte : ℕ) : Bool := 0x00 == (0x80 &&& byte)
def utf8InitialByte2 (byte : ℕ) : Bool := byte ≥ 0xC2 && byte ≤ 0xDF
def utf8InitialByte3 (byte : ℕ) : Bool := 0xE0 == (0xF0 &&& byte)
def utf8InitialByte4 (byte : ℕ) : Bool := byte ≥ 0xF0 && byte ≤ 0xF4

def u8In80To8f (byte : ℕ) : Bool := 0x80 == (0xF0 &&& byte)
def u8In80To9f (byte : ℕ) : Bool := 0x80 == (0xE0 &&& byte)
def u8In80ToBf (byte : ℕ) : Bool := 0x80 == (0xC0 &&& byte)
def u8In90ToBf (byte : ℕ) : Bool := byte ≥ 0x90 && byte ≤ 0xBF
def u8InA0ToBf (byte : ℕ) : Bool := byte ≥ 0xA0 && byte ≤ 0xBF

def validUtf8Sequence2 (b0 b1 : ℕ) : Bool := utf8InitialByte2 b0 && u8In80ToBf b1

def validUtf8Sequence3 (b0 b1 b2 : ℕ) : Bool :=
  utf8InitialByte3 b0 &&
    (if b0 = 0xE0 then u8InA0ToBf b1
      else if b0 < 0xED then u8In80ToBf b1
      else if b0 = 0xED then u8In80To9f b1
      else u8In80ToBf b1) &&
    u8In80ToBf b2

def validUtf8Sequence4 (b0 b1 b2 b3 : ℕ) : Bool :=
  utf8InitialByte4 b0 &&
    (if b0 = 0xF0 then u8In90ToBf b1
      else if b0 < 0xF4 then u8In80ToBf b1
      else u8In80To8f b1) &&
    u8In80ToBf b2 && u8In80ToBf b3

/-- `(and test (integer->char n))`. -/
def charIf (test : Bool) (n : ℕ) : Except Error (Option ℕ) :=
  if test then (integerToChar n).map some else .ok none

def initialByteToUtf8CharLength (b0 : ℕ) : Except Error ℕ :=
  if b0 < 256 then
    .ok (if utf8InitialByte1 b0 then 1
      else if utf8InitialByte2 b0 then 2
      else if utf8InitialByte3 b0 then 3
      else if utf8InitialByte4 b0 then 4
      else 1)
  else .error (.notA "u8" b0 "initial-byte->utf8-char-length")

def decodeUtf8Char (bytes : Bytevector) (index : ℕ) : Except Error (Option ℕ) := do
  let b0 ← bytevectorU8Ref bytes index
  if utf8InitialByte1 b0 then charIf true b0
  else if utf8InitialByte2 b0 then do
    let b1 ← bytevectorU8Ref bytes (index + 1)
    charIf (validUtf8Sequence2 b0 b1) (extractBits b0 0x1F 6 ||| extractBits b1 0x3F 0)
  else if utf8InitialByte3 b0 then do
    let b1 ← bytevectorU8Ref bytes (index + 1)
    let b2 ← bytevectorU8Ref bytes (index + 2)
    charIf (validUtf8Sequence3 b0 b1 b2)
      ((extractBits b0 0x0F 12 ||| extractBits b1 0x3F 6) ||| extractBits b2 0x3F 0)
  else if utf8InitialByte4 b0 then do
    let b1 ← bytevectorU8Ref bytes (index + 1)
    let b2 ← bytevectorU8Ref bytes (index + 2)
    let b3 ← bytevectorU8Ref bytes (index + 3)
    charIf (validUtf8Sequence4 b0 b1 b2 b3)
      ((extractBits b0 0x07 18 ||| extractBits b1 0x3F 12) |||
        (extractBits b2 0x3F 6 ||| extractBits b3 0x3F 0))
  else .ok none

def initialU16ToUtf16CharLength (u16 : ℕ) : Except Error ℕ :=
  if u16 < 0x10000 then
    .ok (if !utf16LowSurrogate u16 && utf16HighSurrogate u16 then 4 else 2)
  else .error (.notA "u16" u16 "initial-u16->utf16-char-length")

def utf16CharDecoder (getter : Getter) (bytes : Bytevector) (index : ℕ) : Except Error (Option ℕ) := do
  let d0 ← getter bytes index
  if utf16LowSurrogate d0 then .ok none
  else if utf16HighSurrogate d0 then do
    let d1 ← getter bytes (index + 2)
    charIf (utf16LowSurrogate d1) ((extractBits d0 0x3FF 10 ||| extractBits d1 0x3FF 0) + 0x10000)
  else charIf true d0

def initialU32ToUtf32CharLength (u32 : ℕ) : Except Error ℕ :=
  if u32 ≤ 0xFFFFFFFF then .ok 4 else .error (.notA "u32" u32 "initial-u32->utf32-char-length")

def utf32CharDecoder (getter : Getter) (bytes : Bytevector) (index : ℕ) : Except Error (Option ℕ) := do
  let u32 ← getter bytes index
  charIf (unicodeScalarValue u32) u32

def Scalar (n : ℕ) : Prop := n < 0xD800 ∨ (0xE000 ≤ n ∧ n < 0x110000)

def SurrogateLow (n : ℕ) : Prop := 0xD800 ≤ n % 0x10000 ∧ n % 0x10000 < 0xE000

theorem utf16Surrogate_iff {cp : ℕ} : utf16Surrogate cp = true ↔ SurrogateLow cp := by
  have field : 0xF800 &&& cp = cp / 2 ^ 11 % 2 ^ 5 * 2 ^ 11 := by
    rw [Nat.and_comm]
    exact land_mask cp 5 11
  unfold utf16Surrogate SurrogateLow
  rw [beq_iff_eq]
  omega

theorem utf16HighSurrogate_iff {cp : ℕ} (unit : cp < 0x10000) :
    utf16HighSurrogate cp = true ↔ 0xD800 ≤ cp ∧ cp < 0xDC00 := by
  have field : 0xFC00 &&& cp = cp / 2 ^ 10 % 2 ^ 6 * 2 ^ 10 := by
    rw [Nat.and_comm]
    exact land_mask cp 6 10
  unfold utf16HighSurrogate
  rw [beq_iff_eq]
  omega

theorem utf16LowSurrogate_iff {cp : ℕ} (unit : cp < 0x10000) :
    utf16LowSurrogate cp = true ↔ 0xDC00 ≤ cp ∧ cp < 0xE000 := by
  have field : 0xFC00 &&& cp = cp / 2 ^ 10 % 2 ^ 6 * 2 ^ 10 := by
    rw [Nat.and_comm]
    exact land_mask cp 6 10
  unfold utf16LowSurrogate
  rw [beq_iff_eq]
  omega

theorem unicodeScalarValue_iff {n : ℕ} : unicodeScalarValue n = true ↔ Scalar n ∧ ¬ SurrogateLow n := by
  have surrogate := @utf16Surrogate_iff n
  unfold unicodeScalarValue unicodeCodePoint charCodeLimit Scalar
  unfold SurrogateLow at surrogate ⊢
  cases marked : utf16Surrogate n
  · have apart := (not_congr surrogate).mp (by simp [marked])
    simp only [Bool.not_false, Bool.and_true, decide_eq_true_eq]
    omega
  · have inside := surrogate.mp marked
    simp [inside]

theorem charToScalarValue_ok {char : ℕ} {caller : String} (scalar : Scalar char) (apart : ¬ SurrogateLow char) :
    charToScalarValue char caller = .ok char := by
  unfold charToScalarValue
  rw [if_pos (unicodeScalarValue_iff.mpr ⟨scalar, apart⟩)]

theorem charToScalarValue_error {char : ℕ} {caller : String} (unfit : ¬ (Scalar char ∧ ¬ SurrogateLow char)) :
    charToScalarValue char caller = .error (.notA "unicode-scalar-value" char caller) := by
  unfold charToScalarValue
  rw [if_neg (mt unicodeScalarValue_iff.mp unfit)]

theorem Scalar.lt {n : ℕ} (scalar : Scalar n) : n < 0x110000 := by
  unfold Scalar at scalar
  omega

theorem charIf_true {n : ℕ} (small : n < 0x110000) : charIf true n = .ok (some n) := by
  unfold charIf integerToChar
  rw [if_pos rfl, if_pos (by omega)]
  rfl

end MitScheme.Runtime.Utf
