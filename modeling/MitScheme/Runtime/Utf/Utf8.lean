import MitScheme.Runtime.Utf.Formats

namespace MitScheme.Runtime.Utf

open Library
open UInt8 (ofNat)

/-- One to four bytes, the bits of the character behind a leader and in trailing bytes. -/
def utf8Code (c : ℕ) : Bytevector :=
  if c < 0x80 then [ofNat c]
  else if c < 0x800 then [ofNat (0xC0 + c / 2 ^ 6), ofNat (0x80 + c % 2 ^ 6)]
  else if c < 0x10000 then
    [ofNat (0xE0 + c / 2 ^ 12), ofNat (0x80 + c / 2 ^ 6 % 2 ^ 6), ofNat (0x80 + c % 2 ^ 6)]
  else
    [ofNat (0xF0 + c / 2 ^ 18), ofNat (0x80 + c / 2 ^ 12 % 2 ^ 6),
      ofNat (0x80 + c / 2 ^ 6 % 2 ^ 6), ofNat (0x80 + c % 2 ^ 6)]

theorem utf8Code_length (c : ℕ) :
    (utf8Code c).length = if c < 0x80 then 1 else if c < 0x800 then 2 else if c < 0x10000 then 3 else 4 := by
  unfold utf8Code
  repeat' split
  all_goals rfl

theorem trailingByte_eq (sv low : ℕ) : trailingByte sv (-low) = 0x80 + sv / 2 ^ low % 2 ^ 6 := by
  have field : insertBits sv 0x3F (-low) = sv / 2 ^ low % 2 ^ 6 := insertBits_eq sv 6 low
  unfold trailingByte
  rw [field]
  exact lor_add 2 (sv / 2 ^ low % 2 ^ 6) 6 (by omega)

theorem trailingByte_last (sv : ℕ) : trailingByte sv 0 = 0x80 + sv % 2 ^ 6 := by
  have last := trailingByte_eq sv 0
  rwa [pow_zero, Nat.div_one] at last

theorem initialByte_eq {sv k bits low : ℕ} (small : sv < 2 ^ (low + bits)) :
    initialByte sv (k * 2 ^ bits) (-low) = k * 2 ^ bits + sv / 2 ^ low := by
  unfold initialByte
  rw [lsh_right]
  exact lor_add k (sv / 2 ^ low) bits (Nat.div_lt_of_lt_mul (pow_add 2 low bits ▸ small))

theorem utf8_encodes {c : ℕ} {pre mid post : Bytevector} (fit : Encodable c) (room : mid.length = (utf8Code c).length) :
    encodeUtf8Char (pre ++ mid ++ post) (.index pre.length) c =
    .ok (pre ++ utf8Code c ++ post, .index (pre.length + (utf8Code c).length)) := by
  have small := fit.1.lt
  have written := fun u8s => @setBytes_at _ (fun bytes => .ok (bytes, Value.index (pre.length + (utf8Code c).length)))
    u8s pre mid post
  have trail6 : trailingByte c (-6) = _ := trailingByte_eq c 6
  unfold encodeUtf8Char
  rw [charToScalarValue_ok fit.1 fit.2]
  show (if c < 0x80 then _ else _) = _
  unfold utf8Code at room written ⊢
  by_cases one : c < 0x80
  · simp only [if_pos one] at room written ⊢
    exact written [c] room (by simp; omega)
  by_cases two : c < 0x800
  · have head : initialByte c 0xC0 (-6) = 0xC0 + c / 2 ^ 6 := @initialByte_eq c 6 5 6 two
    simp only [if_neg one, if_pos two] at room written ⊢
    rw [head, trailingByte_last]
    exact written [0xC0 + c / 2 ^ 6, 0x80 + c % 2 ^ 6] room (by simp; omega)
  by_cases three : c < 0x10000
  · have head : initialByte c 0xE0 (-12) = 0xE0 + c / 2 ^ 12 := @initialByte_eq c 14 4 12 three
    simp only [if_neg one, if_neg two, if_pos three] at room written ⊢
    rw [head, trail6, trailingByte_last]
    exact written [0xE0 + c / 2 ^ 12, 0x80 + c / 2 ^ 6 % 2 ^ 6, 0x80 + c % 2 ^ 6] room (by simp; omega)
  · have head : initialByte c 0xF0 (-18) = 0xF0 + c / 2 ^ 18 := @initialByte_eq c 30 3 18 (by omega)
    have trail12 : trailingByte c (-12) = _ := trailingByte_eq c 12
    simp only [if_neg one, if_neg two, if_neg three] at room written ⊢
    rw [head, trail12, trail6, trailingByte_last]
    exact written [0xF0 + c / 2 ^ 18, 0x80 + c / 2 ^ 12 % 2 ^ 6, 0x80 + c / 2 ^ 6 % 2 ^ 6, 0x80 + c % 2 ^ 6]
      room (by simp; omega)

theorem mask_eq_iff (b width low value : ℕ) :
    (value == ((2 ^ width - 1) * 2 ^ low &&& b)) = true ↔ value = b / 2 ^ low % 2 ^ width * 2 ^ low := by
  rw [beq_iff_eq, Nat.and_comm, land_mask]

section
variable {b : ℕ} (small : b < 256)
include small

theorem utf8InitialByte1_iff : utf8InitialByte1 b = true ↔ b < 0x80 :=
  (mask_eq_iff b 1 7 0).trans (by omega)

theorem utf8InitialByte3_iff : utf8InitialByte3 b = true ↔ 0xE0 ≤ b ∧ b ≤ 0xEF :=
  (mask_eq_iff b 4 4 0xE0).trans (by omega)

theorem u8In80To8f_iff : u8In80To8f b = true ↔ 0x80 ≤ b ∧ b ≤ 0x8F :=
  (mask_eq_iff b 4 4 0x80).trans (by omega)

theorem u8In80To9f_iff : u8In80To9f b = true ↔ 0x80 ≤ b ∧ b ≤ 0x9F :=
  (mask_eq_iff b 3 5 0x80).trans (by omega)

theorem u8In80ToBf_iff : u8In80ToBf b = true ↔ 0x80 ≤ b ∧ b ≤ 0xBF :=
  (mask_eq_iff b 2 6 0x80).trans (by omega)

end

theorem utf8InitialByte2_iff {b : ℕ} : utf8InitialByte2 b = true ↔ 0xC2 ≤ b ∧ b ≤ 0xDF := by
  unfold utf8InitialByte2
  simp

theorem utf8InitialByte4_iff {b : ℕ} : utf8InitialByte4 b = true ↔ 0xF0 ≤ b ∧ b ≤ 0xF4 := by
  unfold utf8InitialByte4
  simp

theorem validUtf8Sequence3_iff {b0 b1 b2 : ℕ} (small0 : b0 < 256) (small1 : b1 < 256) (small2 : b2 < 256) :
    validUtf8Sequence3 b0 b1 b2 = true ↔ (0xE0 ≤ b0 ∧ b0 ≤ 0xEF) ∧ (0x80 ≤ b1 ∧ b1 ≤ 0xBF) ∧
      (b0 = 0xE0 → 0xA0 ≤ b1) ∧ (b0 = 0xED → b1 ≤ 0x9F) ∧ 0x80 ≤ b2 ∧ b2 ≤ 0xBF := by
  unfold validUtf8Sequence3
  rw [Bool.and_eq_true, Bool.and_eq_true, utf8InitialByte3_iff small0, u8In80ToBf_iff small2]
  have plain := u8In80ToBf_iff small1
  have lower := u8In80To9f_iff small1
  have upper : u8InA0ToBf b1 = true ↔ 0xA0 ≤ b1 ∧ b1 ≤ 0xBF := by
    unfold u8InA0ToBf
    simp
  split
  · rw [upper]
    omega
  split
  · rw [plain]
    omega
  split
  · rw [lower]
    omega
  · rw [plain]
    omega

theorem validUtf8Sequence4_iff {b0 b1 b2 b3 : ℕ} (small1 : b1 < 256) (small2 : b2 < 256)
    (small3 : b3 < 256) :
    validUtf8Sequence4 b0 b1 b2 b3 = true ↔ (0xF0 ≤ b0 ∧ b0 ≤ 0xF4) ∧ (0x80 ≤ b1 ∧ b1 ≤ 0xBF) ∧
      (b0 = 0xF0 → 0x90 ≤ b1) ∧ (b0 = 0xF4 → b1 ≤ 0x8F) ∧ (0x80 ≤ b2 ∧ b2 ≤ 0xBF) ∧
      0x80 ≤ b3 ∧ b3 ≤ 0xBF := by
  unfold validUtf8Sequence4
  rw [Bool.and_eq_true, Bool.and_eq_true, Bool.and_eq_true, utf8InitialByte4_iff, u8In80ToBf_iff small2,
    u8In80ToBf_iff small3]
  have plain := u8In80ToBf_iff small1
  have lower := u8In80To8f_iff small1
  have upper : u8In90ToBf b1 = true ↔ 0x90 ≤ b1 ∧ b1 ≤ 0xBF := by
    unfold u8In90ToBf
    simp
  split
  · rw [upper]
    omega
  split
  · rw [plain]
    omega
  · rw [lower]
    omega

theorem trail_last {b : ℕ} (trail : 0x80 ≤ b ∧ b ≤ 0xBF) : extractBits b 0x3F 0 = b - 0x80 :=
  (extractBits_eq b 6 0).trans (by omega)

theorem trail_next {b : ℕ} (trail : 0x80 ≤ b ∧ b ≤ 0xBF) : extractBits b 0x3F 6 = (b - 0x80) * 2 ^ 6 :=
  (extractBits_eq b 6 6).trans (by omega)

theorem utf8_value2 {b0 b1 : ℕ} (lead : 0xC2 ≤ b0 ∧ b0 ≤ 0xDF) (trail1 : 0x80 ≤ b1 ∧ b1 ≤ 0xBF) :
    extractBits b0 0x1F 6 ||| extractBits b1 0x3F 0 = (b0 - 0xC0) * 2 ^ 6 + (b1 - 0x80) := by
  have head : extractBits b0 0x1F 6 = (b0 - 0xC0) * 2 ^ 6 := (extractBits_eq b0 5 6).trans (by omega)
  rw [head, trail_last trail1, lor_add _ _ 6 (by omega)]

theorem utf8_value3 {b0 b1 b2 : ℕ} (lead : 0xE0 ≤ b0 ∧ b0 ≤ 0xEF) (trail1 : 0x80 ≤ b1 ∧ b1 ≤ 0xBF)
    (trail2 : 0x80 ≤ b2 ∧ b2 ≤ 0xBF) :
    (extractBits b0 0x0F 12 ||| extractBits b1 0x3F 6) ||| extractBits b2 0x3F 0 =
      ((b0 - 0xE0) * 2 ^ 6 + (b1 - 0x80)) * 2 ^ 6 + (b2 - 0x80) := by
  have head : extractBits b0 0x0F 12 = (b0 - 0xE0) * 2 ^ 12 := (extractBits_eq b0 4 12).trans (by omega)
  have upper : (b0 - 0xE0) * 2 ^ 12 + (b1 - 0x80) * 2 ^ 6 = ((b0 - 0xE0) * 2 ^ 6 + (b1 - 0x80)) * 2 ^ 6 := by omega
  rw [head, trail_next trail1, trail_last trail2, lor_add _ _ 12 (by omega), upper, lor_add _ _ 6 (by omega)]

theorem utf8_value4 {b0 b1 b2 b3 : ℕ} (lead : 0xF0 ≤ b0 ∧ b0 ≤ 0xF4) (trail1 : 0x80 ≤ b1 ∧ b1 ≤ 0xBF)
    (trail2 : 0x80 ≤ b2 ∧ b2 ≤ 0xBF) (trail3 : 0x80 ≤ b3 ∧ b3 ≤ 0xBF) :
    (extractBits b0 0x07 18 ||| extractBits b1 0x3F 12) ||| (extractBits b2 0x3F 6 ||| extractBits b3 0x3F 0) =
      (((b0 - 0xF0) * 2 ^ 6 + (b1 - 0x80)) * 2 ^ 6 + (b2 - 0x80)) * 2 ^ 6 + (b3 - 0x80) := by
  have head : extractBits b0 0x07 18 = (b0 - 0xF0) * 2 ^ 18 := (extractBits_eq b0 3 18).trans (by omega)
  have second : extractBits b1 0x3F 12 = (b1 - 0x80) * 2 ^ 12 := (extractBits_eq b1 6 12).trans (by omega)
  have upper : (b0 - 0xF0) * 2 ^ 18 + (b1 - 0x80) * 2 ^ 12 = ((b0 - 0xF0) * 2 ^ 6 + (b1 - 0x80)) * 2 ^ 12 := by omega
  rw [head, second, trail_next trail2, trail_last trail3, lor_add _ _ 18 (by omega), lor_add _ _ 6 (by omega), upper,
    lor_add _ _ 12 (by omega)]
  ring

section
variable {bytes rest : Bytevector} {index : ℕ} {b0 b1 b2 b3 : UInt8}

theorem utf8_headLength (here : bytes.drop index = b0 :: rest) :
    utf8.headLength bytes index = .ok (if utf8InitialByte1 b0.toNat then 1 else if utf8InitialByte2 b0.toNat then 2
      else if utf8InitialByte3 b0.toNat then 3 else if utf8InitialByte4 b0.toNat then 4 else 1) := by
  have first := @bytevectorU8Ref_at bytes index 0 b0 (by rw [here]; rfl)
  show (bytevectorU8Ref bytes index >>= initialByteToUtf8CharLength) = _
  rw [show index = index + 0 from rfl, first]
  show initialByteToUtf8CharLength b0.toNat = _
  unfold initialByteToUtf8CharLength
  rw [if_pos (byte_lt b0)]

theorem decodeUtf8Char_eq (here : bytes.drop index = b0 :: rest) :
    decodeUtf8Char bytes index =
      if utf8InitialByte1 b0.toNat then charIf true b0.toNat
      else if utf8InitialByte2 b0.toNat then do
        let b1 ← bytevectorU8Ref bytes (index + 1)
        charIf (validUtf8Sequence2 b0.toNat b1) (extractBits b0.toNat 0x1F 6 ||| extractBits b1 0x3F 0)
      else if utf8InitialByte3 b0.toNat then do
        let b1 ← bytevectorU8Ref bytes (index + 1)
        let b2 ← bytevectorU8Ref bytes (index + 2)
        charIf (validUtf8Sequence3 b0.toNat b1 b2)
          ((extractBits b0.toNat 0x0F 12 ||| extractBits b1 0x3F 6) ||| extractBits b2 0x3F 0)
      else if utf8InitialByte4 b0.toNat then do
        let b1 ← bytevectorU8Ref bytes (index + 1)
        let b2 ← bytevectorU8Ref bytes (index + 2)
        let b3 ← bytevectorU8Ref bytes (index + 3)
        charIf (validUtf8Sequence4 b0.toNat b1 b2 b3)
          ((extractBits b0.toNat 0x07 18 ||| extractBits b1 0x3F 12) |||
            (extractBits b2 0x3F 6 ||| extractBits b3 0x3F 0))
      else .ok none := by
  have first := @bytevectorU8Ref_at bytes index 0 b0 (by rw [here]; rfl)
  rw [add_zero] at first
  unfold decodeUtf8Char
  rw [first]
  rfl

theorem decodeUtf8Char_two (here : bytes.drop index = b0 :: b1 :: rest) (not1 : ¬ utf8InitialByte1 b0.toNat = true)
    (lead : utf8InitialByte2 b0.toNat = true) : decodeUtf8Char bytes index =
    charIf (validUtf8Sequence2 b0.toNat b1.toNat) (extractBits b0.toNat 0x1F 6 ||| extractBits b1.toNat 0x3F 0) := by
  have second := @bytevectorU8Ref_at bytes index 1 b1 (by rw [here]; rfl)
  rw [decodeUtf8Char_eq here, if_neg not1, if_pos lead, second]
  rfl

theorem decodeUtf8Char_three (here : bytes.drop index = b0 :: b1 :: b2 :: rest)
    (not1 : ¬ utf8InitialByte1 b0.toNat = true) (not2 : ¬ utf8InitialByte2 b0.toNat = true)
    (lead : utf8InitialByte3 b0.toNat = true) :
    decodeUtf8Char bytes index = charIf (validUtf8Sequence3 b0.toNat b1.toNat b2.toNat)
      ((extractBits b0.toNat 0x0F 12 ||| extractBits b1.toNat 0x3F 6) ||| extractBits b2.toNat 0x3F 0) := by
  have second := @bytevectorU8Ref_at bytes index 1 b1 (by rw [here]; rfl)
  have third := @bytevectorU8Ref_at bytes index 2 b2 (by rw [here]; rfl)
  rw [decodeUtf8Char_eq here, if_neg not1, if_neg not2, if_pos lead, second, third]
  rfl

theorem decodeUtf8Char_four (here : bytes.drop index = b0 :: b1 :: b2 :: b3 :: rest)
    (not1 : ¬ utf8InitialByte1 b0.toNat = true) (not2 : ¬ utf8InitialByte2 b0.toNat = true)
    (not3 : ¬ utf8InitialByte3 b0.toNat = true) (lead : utf8InitialByte4 b0.toNat = true) :
    decodeUtf8Char bytes index = charIf (validUtf8Sequence4 b0.toNat b1.toNat b2.toNat b3.toNat)
      ((extractBits b0.toNat 0x07 18 ||| extractBits b1.toNat 0x3F 12) |||
        (extractBits b2.toNat 0x3F 6 ||| extractBits b3.toNat 0x3F 0)) := by
  have second := @bytevectorU8Ref_at bytes index 1 b1 (by rw [here]; rfl)
  have third := @bytevectorU8Ref_at bytes index 2 b2 (by rw [here]; rfl)
  have fourth := @bytevectorU8Ref_at bytes index 3 b3 (by rw [here]; rfl)
  rw [decodeUtf8Char_eq here, if_neg not1, if_neg not2, if_neg not3, if_pos lead, second, third, fourth]
  rfl

theorem utf8_decodes {c : ℕ} (fit : Encodable c) (here : bytes.drop index = utf8Code c ++ rest) :
    utf8.headLength bytes index = .ok (utf8Code c).length ∧ decodeUtf8Char bytes index = .ok (some c) := by
  have small := fit.1.lt
  have scalar := fit.1
  unfold Scalar at scalar
  rw [utf8Code_length]
  unfold utf8Code at here
  by_cases one : c < 0x80
  · rw [if_pos one] at here ⊢
    have n0 := @toNat_ofNat_small c (by omega)
    have lead := (utf8InitialByte1_iff (byte_lt (.ofNat c))).mpr (by omega)
    rw [utf8_headLength here, decodeUtf8Char_eq here, if_pos lead, if_pos lead, n0, charIf_true small]
    exact ⟨rfl, rfl⟩
  by_cases two : c < 0x800
  · rw [if_neg one, if_pos two] at here
    rw [if_neg one, if_pos two]
    have n0 := @toNat_ofNat_small (0xC0 + c / 2 ^ 6) (by omega)
    have n1 := @toNat_ofNat_small (0x80 + c % 2 ^ 6) (by omega)
    generalize ofNat (0xC0 + c / 2 ^ 6) = b0 at n0 here
    generalize ofNat (0x80 + c % 2 ^ 6) = b1 at n1 here
    have not1 := mt (utf8InitialByte1_iff (byte_lt b0)).mp (by omega)
    have lead := utf8InitialByte2_iff.mpr (show 0xC2 ≤ b0.toNat ∧ b0.toNat ≤ 0xDF by omega)
    have valid : validUtf8Sequence2 b0.toNat b1.toNat = true := by
      unfold validUtf8Sequence2
      rw [lead, (u8In80ToBf_iff (byte_lt b1)).mpr (by omega)]
      rfl
    rw [utf8_headLength here, if_neg not1, if_pos lead, decodeUtf8Char_two here not1 lead, valid,
      utf8_value2 (by omega) (by omega), charIf_true (by omega)]
    exact ⟨rfl, congrArg Except.ok (congrArg some (by omega))⟩
  by_cases three : c < 0x10000
  · rw [if_neg one, if_neg two, if_pos three] at here
    rw [if_neg one, if_neg two, if_pos three]
    have n0 := @toNat_ofNat_small (0xE0 + c / 2 ^ 12) (by omega)
    have n1 := @toNat_ofNat_small (0x80 + c / 2 ^ 6 % 2 ^ 6) (by omega)
    have n2 := @toNat_ofNat_small (0x80 + c % 2 ^ 6) (by omega)
    generalize ofNat (0xE0 + c / 2 ^ 12) = b0 at n0 here
    generalize ofNat (0x80 + c / 2 ^ 6 % 2 ^ 6) = b1 at n1 here
    generalize ofNat (0x80 + c % 2 ^ 6) = b2 at n2 here
    have not1 := mt (utf8InitialByte1_iff (byte_lt b0)).mp (by omega)
    have not2 := mt (@utf8InitialByte2_iff b0.toNat).mp (by omega)
    have lead := (utf8InitialByte3_iff (byte_lt b0)).mpr (by omega)
    have valid := (validUtf8Sequence3_iff (byte_lt b0) (byte_lt b1) (byte_lt b2)).mpr (by omega)
    rw [utf8_headLength here, if_neg not1, if_neg not2, if_pos lead, decodeUtf8Char_three here not1 not2 lead,
      valid, utf8_value3 (by omega) (by omega) (by omega), charIf_true (by omega)]
    exact ⟨rfl, congrArg Except.ok (congrArg some (by omega))⟩
  · rw [if_neg one, if_neg two, if_neg three] at here
    rw [if_neg one, if_neg two, if_neg three]
    have n0 := @toNat_ofNat_small (0xF0 + c / 2 ^ 18) (by omega)
    have n1 := @toNat_ofNat_small (0x80 + c / 2 ^ 12 % 2 ^ 6) (by omega)
    have n2 := @toNat_ofNat_small (0x80 + c / 2 ^ 6 % 2 ^ 6) (by omega)
    have n3 := @toNat_ofNat_small (0x80 + c % 2 ^ 6) (by omega)
    generalize ofNat (0xF0 + c / 2 ^ 18) = b0 at n0 here
    generalize ofNat (0x80 + c / 2 ^ 12 % 2 ^ 6) = b1 at n1 here
    generalize ofNat (0x80 + c / 2 ^ 6 % 2 ^ 6) = b2 at n2 here
    generalize ofNat (0x80 + c % 2 ^ 6) = b3 at n3 here
    have not1 := mt (utf8InitialByte1_iff (byte_lt b0)).mp (by omega)
    have not2 := mt (@utf8InitialByte2_iff b0.toNat).mp (by omega)
    have not3 := mt (utf8InitialByte3_iff (byte_lt b0)).mp (by omega)
    have lead := utf8InitialByte4_iff.mpr (show 0xF0 ≤ b0.toNat ∧ b0.toNat ≤ 0xF4 by omega)
    have valid := (@validUtf8Sequence4_iff b0.toNat _ _ _ (byte_lt b1) (byte_lt b2) (byte_lt b3)).mpr (by omega)
    rw [utf8_headLength here, if_neg not1, if_neg not2, if_neg not3, if_pos lead,
      decodeUtf8Char_four here not1 not2 not3 lead, valid,
      utf8_value4 (by omega) (by omega) (by omega) (by omega), charIf_true (by omega)]
    exact ⟨rfl, congrArg Except.ok (congrArg some (by omega))⟩

theorem utf8_strict_one (here : bytes.drop index = b0 :: rest) (lead : utf8InitialByte1 b0.toNat = true) : ∃ d,
    decodeUtf8Char bytes index = .ok d ∧ ∀ c, d = some c → Scalar c ∧ utf8Code c = [b0] := by
  have low := (utf8InitialByte1_iff (byte_lt b0)).mp lead
  rw [decodeUtf8Char_eq here, if_pos lead, charIf_true (by omega)]
  refine ⟨_, rfl, fun c same => ?_⟩
  rw [← Option.some.inj same]
  refine ⟨.inl (by omega), ?_⟩
  unfold utf8Code
  rw [if_pos low, UInt8.ofNat_toNat]

theorem utf8_strict_two (here : bytes.drop index = b0 :: b1 :: rest) (not1 : ¬ utf8InitialByte1 b0.toNat = true)
    (lead : utf8InitialByte2 b0.toNat = true) : ∃ d, decodeUtf8Char bytes index = .ok d ∧ ∀ c, d = some c → Scalar c ∧
    utf8Code c = [b0, b1] := by
  have range := utf8InitialByte2_iff.mp lead
  rw [decodeUtf8Char_two here not1 lead]
  cases valid : validUtf8Sequence2 b0.toNat b1.toNat with
  | false => exact ⟨none, rfl, nofun⟩
  | true =>
    have trail := (u8In80ToBf_iff (byte_lt b1)).mp (Bool.and_eq_true_iff.mp valid).2
    rw [utf8_value2 range trail, charIf_true (by omega)]
    refine ⟨_, rfl, fun c same => ?_⟩
    have value := Option.some.inj same
    refine ⟨.inl (by omega), ?_⟩
    unfold utf8Code
    rw [if_neg (by omega), if_pos (by omega), ofNat_toNat_eq (b := b0) (by omega), ofNat_toNat_eq (b := b1) (by omega)]

theorem utf8_strict_three (here : bytes.drop index = b0 :: b1 :: b2 :: rest) (not1 : ¬ utf8InitialByte1 b0.toNat = true)
    (not2 : ¬ utf8InitialByte2 b0.toNat = true) (lead : utf8InitialByte3 b0.toNat = true) : ∃ d,
    decodeUtf8Char bytes index = .ok d ∧ ∀ c, d = some c → Scalar c ∧ utf8Code c = [b0, b1, b2] := by
  rw [decodeUtf8Char_three here not1 not2 lead]
  cases valid : validUtf8Sequence3 b0.toNat b1.toNat b2.toNat with
  | false => exact ⟨none, rfl, nofun⟩
  | true =>
    obtain ⟨range, trail1, overlong, surrogate, trail2⟩ :=
      (validUtf8Sequence3_iff (byte_lt b0) (byte_lt b1) (byte_lt b2)).mp valid
    rw [utf8_value3 range trail1 trail2, charIf_true (by omega)]
    refine ⟨_, rfl, fun c same => ?_⟩
    have value := Option.some.inj same
    refine ⟨by unfold Scalar; omega, ?_⟩
    unfold utf8Code
    rw [if_neg (by omega), if_neg (by omega), if_pos (by omega), ofNat_toNat_eq (b := b0) (by omega),
      ofNat_toNat_eq (b := b1) (by omega), ofNat_toNat_eq (b := b2) (by omega)]

theorem utf8_strict_four (here : bytes.drop index = b0 :: b1 :: b2 :: b3 :: rest)
    (not1 : ¬ utf8InitialByte1 b0.toNat = true) (not2 : ¬ utf8InitialByte2 b0.toNat = true)
    (not3 : ¬ utf8InitialByte3 b0.toNat = true) (lead : utf8InitialByte4 b0.toNat = true) : ∃ d,
    decodeUtf8Char bytes index = .ok d ∧ ∀ c, d = some c → Scalar c ∧ utf8Code c = [b0, b1, b2, b3] := by
  rw [decodeUtf8Char_four here not1 not2 not3 lead]
  cases valid : validUtf8Sequence4 b0.toNat b1.toNat b2.toNat b3.toNat with
  | false => exact ⟨none, rfl, nofun⟩
  | true =>
    obtain ⟨range, trail1, overlong, above, trail2, trail3⟩ :=
      (validUtf8Sequence4_iff (byte_lt b1) (byte_lt b2) (byte_lt b3)).mp valid
    rw [utf8_value4 range trail1 trail2 trail3, charIf_true (by omega)]
    refine ⟨_, rfl, fun c same => ?_⟩
    have value := Option.some.inj same
    refine ⟨by unfold Scalar; omega, ?_⟩
    unfold utf8Code
    rw [if_neg (by omega), if_neg (by omega), if_neg (by omega), ofNat_toNat_eq (b := b0) (by omega),
      ofNat_toNat_eq (b := b1) (by omega), ofNat_toNat_eq (b := b2) (by omega), ofNat_toNat_eq (b := b3) (by omega)]

end

theorem utf8_head {bytes : Bytevector} {index : ℕ} (inside : index + 1 ≤ bytes.length) :
    ∃ n, 0 < n ∧ utf8.headLength bytes index = .ok n ∧ (index + n ≤ bytes.length →
      ∃ d, decodeUtf8Char bytes index = .ok d ∧
        ∀ c, d = some c → Scalar c ∧ bytes.drop index = utf8Code c ++ bytes.drop (index + n)) := by
  obtain ⟨b0, rest, start⟩ : ∃ b0 rest, bytes.drop index = b0 :: rest := by
    obtain ⟨first, one, here⟩ := drop_split inside
    obtain ⟨b0, rfl⟩ := List.length_eq_one_iff.mp one
    exact ⟨b0, _, here⟩
  have length := utf8_headLength start
  by_cases lead1 : utf8InitialByte1 b0.toNat = true
  · refine ⟨1, by decide, by rw [length, if_pos lead1], fun room => ?_⟩
    obtain ⟨first, one, here⟩ := drop_split room
    obtain ⟨a0, rfl⟩ := List.length_eq_one_iff.mp one
    obtain ⟨rfl, -⟩ := List.cons.inj (start.symm.trans here)
    obtain ⟨d, decoded, strict⟩ := utf8_strict_one here lead1
    exact ⟨d, decoded, fun c same => ⟨(strict c same).1, by rw [(strict c same).2]; exact here⟩⟩
  by_cases lead2 : utf8InitialByte2 b0.toNat = true
  · refine ⟨2, by decide, by rw [length, if_neg lead1, if_pos lead2], fun room => ?_⟩
    obtain ⟨first, two, here⟩ := drop_split room
    obtain ⟨a0, b1, rfl⟩ := List.length_eq_two.mp two
    obtain ⟨rfl, -⟩ := List.cons.inj (start.symm.trans here)
    obtain ⟨d, decoded, strict⟩ := utf8_strict_two here lead1 lead2
    exact ⟨d, decoded, fun c same => ⟨(strict c same).1, by rw [(strict c same).2]; exact here⟩⟩
  by_cases lead3 : utf8InitialByte3 b0.toNat = true
  · refine ⟨3, by decide, by rw [length, if_neg lead1, if_neg lead2, if_pos lead3], fun room => ?_⟩
    obtain ⟨first, three, here⟩ := drop_split room
    obtain ⟨a0, b1, b2, rfl⟩ := List.length_eq_three.mp three
    obtain ⟨rfl, -⟩ := List.cons.inj (start.symm.trans here)
    obtain ⟨d, decoded, strict⟩ := utf8_strict_three here lead1 lead2 lead3
    exact ⟨d, decoded, fun c same => ⟨(strict c same).1, by rw [(strict c same).2]; exact here⟩⟩
  by_cases lead4 : utf8InitialByte4 b0.toNat = true
  · refine ⟨4, by decide, by rw [length, if_neg lead1, if_neg lead2, if_neg lead3, if_pos lead4], fun room => ?_⟩
    obtain ⟨first, four, here⟩ := drop_split room
    obtain ⟨a0, b1, b2, b3, rfl⟩ := List.length_eq_four.mp four
    obtain ⟨rfl, -⟩ := List.cons.inj (start.symm.trans here)
    obtain ⟨d, decoded, strict⟩ := utf8_strict_four here lead1 lead2 lead3 lead4
    exact ⟨d, decoded, fun c same => ⟨(strict c same).1, by rw [(strict c same).2]; exact here⟩⟩
  · -- no character starts with this byte: it is skipped
    refine ⟨1, by decide, by rw [length, if_neg lead1, if_neg lead2, if_neg lead3, if_neg lead4], fun _ => ?_⟩
    rw [decodeUtf8Char_eq start, if_neg lead1, if_neg lead2, if_neg lead3, if_neg lead4]
    exact ⟨none, rfl, nofun⟩

theorem utf8_lawful : utf8.Lawful utf8Code .index where
  step_pos := show 0 < 1 by decide
  step_le {c} _ := by
    rw [utf8Code_length]
    repeat' split
    all_goals decide
  byteLength {c} fit := by
    show charUtf8ByteLength c = _
    unfold charUtf8ByteLength
    rw [charToScalarValue_ok fit.1 fit.2, utf8Code_length]
    rfl
  unfit {c} unfit := by
    show ∃ e, charUtf8ByteLength c = .error e
    unfold charUtf8ByteLength
    rw [charToScalarValue_error unfit]
    exact ⟨_, rfl⟩
  encodes fit room := utf8_encodes fit room
  stuck {c bytes} fit := by
    show ∃ e, encodeUtf8Char _ _ c = .error e
    unfold encodeUtf8Char
    rw [charToScalarValue_ok fit.1 fit.2]
    exact ⟨_, rfl⟩
  decodes fit here := utf8_decodes fit here
  head inside := utf8_head inside

end MitScheme.Runtime.Utf
