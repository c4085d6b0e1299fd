import MitScheme.Runtime.Utf.Characters

/-!
What the string encoders and decoders are instantiated with, and the code of a character in each
format: the bytes that the encoder writes are the bytes that the decoder takes.
-/

namespace MitScheme.Runtime.Utf

open Library List

/-- The arguments of `string-encoder` and `bytes-decoder`. -/
structure Format where
  charByteLength : ℕ → Except Error ℕ
  encodeChar : Bytevector → Value → ℕ → Except Error (Bytevector × Value)
  getter : Getter
  initialLength : ℕ → Except Error ℕ
  decodeChar : Bytevector → ℕ → Except Error (Option ℕ)
  step : ℕ
  noun : String

def utf8 : Format where
  charByteLength := charUtf8ByteLength
  encodeChar := encodeUtf8Char
  getter := bytevectorU8Ref
  initialLength := initialByteToUtf8CharLength
  decodeChar := decodeUtf8Char
  step := 1
  noun := "UTF-8"

def utf16 (getter : Getter) (setter : Setter) (caller noun : String) : Format where
  charByteLength := charUtf16ByteLength
  encodeChar := utf16CharEncoder setter caller
  getter := getter
  initialLength := initialU16ToUtf16CharLength
  decodeChar := utf16CharDecoder getter
  step := 2
  noun := noun

def utf16be : Format := utf16 bytevectorU16beRef bytevectorU16beSet "encode-utf16be-char!" "UTF-16BE"
def utf16le : Format := utf16 bytevectorU16leRef bytevectorU16leSet "encode-utf16le-char!" "UTF-16LE"

def utf32 (getter : Getter) (setter : Setter) (caller noun : String) : Format where
  charByteLength := charUtf32ByteLength
  encodeChar := utf32CharEncoder setter caller
  getter := getter
  initialLength := initialU32ToUtf32CharLength
  decodeChar := utf32CharDecoder getter
  step := 4
  noun := noun

def utf32be : Format := utf32 bytevectorU32beRef bytevectorU32beSet "encode-utf32be-char!" "UTF-32BE"
def utf32le : Format := utf32 bytevectorU32leRef bytevectorU32leSet "encode-utf32le-char!" "UTF-32LE"

/-- The length of the sequence that starts at an index, by its first unit. -/
def Format.headLength (F : Format) (bytes : Bytevector) (index : ℕ) : Except Error ℕ := do
  let unit ← F.getter bytes index
  F.initialLength unit

def Encodable (c : ℕ) : Prop := Scalar c ∧ ¬ SurrogateLow c

structure Format.Lawful (F : Format) (code : ℕ → Bytevector) (after : ℕ → Value) : Prop where
  step_pos : 0 < F.step
  step_le : ∀ {c}, Encodable c → F.step ≤ (code c).length
  byteLength : ∀ {c}, Encodable c → F.charByteLength c = .ok (code c).length
  unfit : ∀ {c}, ¬ Encodable c → ∃ e, F.charByteLength c = .error e
  encodes : ∀ {c : ℕ} {pre mid post : Bytevector}, Encodable c → mid.length = (code c).length →
    F.encodeChar (pre ++ mid ++ post) (.index pre.length) c =
      .ok (pre ++ code c ++ post, after (pre.length + (code c).length))
  stuck : ∀ {c : ℕ} {bytes : Bytevector}, Encodable c → ∃ e, F.encodeChar bytes .unspecific c = .error e
  decodes : ∀ {c : ℕ} {bytes rest : Bytevector} {index : ℕ}, Encodable c →
    bytes.drop index = code c ++ rest →
    F.headLength bytes index = .ok (code c).length ∧ F.decodeChar bytes index = .ok (some c)
  head : ∀ {bytes : Bytevector} {index : ℕ}, index + F.step ≤ bytes.length →
    ∃ n, 0 < n ∧ F.headLength bytes index = .ok n ∧ (index + n ≤ bytes.length →
      ∃ d, F.decodeChar bytes index = .ok d ∧
        ∀ c, d = some c → Scalar c ∧ bytes.drop index = code c ++ bytes.drop (index + n))

section
variable {getter : Getter} {setter : Setter} {unit : ℕ → Bytevector} {caller noun : String}

theorem utf32_lawful (units : Units 4 0x100000000 getter setter unit) :
    (utf32 getter setter caller noun).Lawful unit fun _ => .unspecific where
  step_pos := show 0 < 4 by decide
  step_le {c} _ := by
    rw [units.length]
    exact le_refl 4
  byteLength {c} fit := by
    show charUtf32ByteLength c = _
    unfold charUtf32ByteLength
    rw [charToScalarValue_ok fit.1 fit.2, units.length]
    rfl
  unfit {c} unfit := by
    show ∃ e, charUtf32ByteLength c = .error e
    unfold charUtf32ByteLength
    rw [charToScalarValue_error unfit]
    exact ⟨_, rfl⟩
  encodes {c pre mid post} fit four := by
    show utf32CharEncoder setter caller _ _ c = _
    have small := fit.1.lt
    have written := @units.sets c pre mid post (by omega) (four.trans (units.length c))
    unfold utf32CharEncoder
    rw [charToScalarValue_ok fit.1 fit.2]
    show (setter _ pre.length c >>= fun bytes => _) = _
    rw [written]
    rfl
  stuck {c bytes} fit := by
    show ∃ e, utf32CharEncoder setter caller _ _ c = .error e
    unfold utf32CharEncoder
    rw [charToScalarValue_ok fit.1 fit.2]
    exact ⟨_, rfl⟩
  decodes {c bytes rest index} fit here := by
    have small := fit.1.lt
    have read := units.reads (by omega) here
    constructor
    · show (getter bytes index >>= initialU32ToUtf32CharLength) = _
      rw [read, units.length]
      show initialU32ToUtf32CharLength c = _
      unfold initialU32ToUtf32CharLength
      rw [if_pos (by omega)]
    · show utf32CharDecoder getter bytes index = _
      unfold utf32CharDecoder
      rw [read]
      show charIf (unicodeScalarValue c) c = _
      rw [unicodeScalarValue_iff.mpr fit, charIf_true small]
  head {bytes index} inside := by
    obtain ⟨u, small, here⟩ := units.covers inside
    have read := units.reads small here
    refine ⟨4, by decide, ?_, fun _ => ?_⟩
    · show (getter bytes index >>= initialU32ToUtf32CharLength) = _
      rw [read]
      show initialU32ToUtf32CharLength u = _
      unfold initialU32ToUtf32CharLength
      rw [if_pos (by omega)]
    · have decoded : utf32CharDecoder getter bytes index = charIf (unicodeScalarValue u) u := by
        unfold utf32CharDecoder
        rw [read]
        rfl
      show ∃ d, utf32CharDecoder getter bytes index = _ ∧ _
      rw [decoded]
      cases valid : unicodeScalarValue u with
      | false => exact ⟨none, rfl, nofun⟩
      | true =>
        obtain ⟨scalar, apart⟩ := unicodeScalarValue_iff.mp valid
        refine ⟨some u, charIf_true scalar.lt, fun c same => ?_⟩
        rw [← Option.some.inj same]
        exact ⟨scalar, here⟩

end

def utf16Code (unit : ℕ → Bytevector) (c : ℕ) : Bytevector :=
  if c < 0x10000 then unit c
  else unit (0xD800 + (c - 0x10000) / 1024) ++ unit (0xDC00 + (c - 0x10000) % 1024)

theorem highSurrogate_eq {n : ℕ} (small : n < 0x100000) : 0xD800 ||| insertBits n 0x3FF (-10) = 0xD800 + n / 1024 := by
  have field : insertBits n 0x3FF (-10) = n / 1024 := by
    rw [show insertBits n 0x3FF (-10) = n / 2 ^ 10 % 2 ^ 10 from insertBits_eq n 10 10]
    omega
  rw [field]
  exact lor_add 54 (n / 1024) 10 (by omega)

theorem lowSurrogate_eq (n : ℕ) : 0xDC00 ||| insertBits n 0x3FF 0 = 0xDC00 + n % 1024 := by
  have field : insertBits n 0x3FF 0 = n % 1024 := by
    rw [show insertBits n 0x3FF 0 = n / 2 ^ 0 % 2 ^ 10 from insertBits_eq n 10 0]
    omega
  rw [field]
  exact lor_add 55 (n % 1024) 10 (by omega)

theorem surrogatePair_eq {d0 d1 : ℕ} (high : 0xD800 ≤ d0 ∧ d0 < 0xDC00) (low : 0xDC00 ≤ d1 ∧ d1 < 0xE000) :
    extractBits d0 0x3FF 10 ||| extractBits d1 0x3FF 0 = (d0 - 0xD800) * 1024 + (d1 - 0xDC00) := by
  have field0 : extractBits d0 0x3FF 10 = (d0 - 0xD800) * 2 ^ 10 := by
    rw [show extractBits d0 0x3FF 10 = d0 % 2 ^ 10 * 2 ^ 10 from extractBits_eq d0 10 10]
    omega
  have field1 : extractBits d1 0x3FF 0 = d1 - 0xDC00 := by
    rw [show extractBits d1 0x3FF 0 = d1 % 2 ^ 10 * 2 ^ 0 from extractBits_eq d1 10 0]
    omega
  rw [field0, field1]
  exact lor_add (d0 - 0xD800) (d1 - 0xDC00) 10 (by omega)

section
variable {getter : Getter} {setter : Setter} {unit : ℕ → Bytevector} {caller noun : String}

theorem utf16Code_length (units : Units 2 0x10000 getter setter unit) (c : ℕ) :
    (utf16Code unit c).length = if c < 0x10000 then 2 else 4 := by
  unfold utf16Code
  split
  · exact units.length c
  · rw [length_append, units.length, units.length]

theorem utf16_encodes (units : Units 2 0x10000 getter setter unit) {c : ℕ} {pre mid post : Bytevector}
    (fit : Encodable c) (room : mid.length = (utf16Code unit c).length) :
    utf16CharEncoder setter caller (pre ++ mid ++ post) (.index pre.length) c =
      .ok (pre ++ utf16Code unit c ++ post, .index (pre.length + (utf16Code unit c).length)) := by
  have small := fit.1.lt
  rw [utf16Code_length units] at room ⊢
  unfold utf16CharEncoder utf16Code
  rw [charToScalarValue_ok fit.1 fit.2]
  by_cases basic : c < 0x10000
  · rw [if_pos basic] at room ⊢
    have written := @units.sets c pre mid post basic room
    show (if c < 0x10000 then setter _ pre.length c >>= fun bytes => _ else _) = _
    rw [if_pos basic, written, if_pos basic]
    rfl
  · rw [if_neg basic] at room ⊢
    obtain ⟨first, second, rfl, two0, two1⟩ : ∃ first second, mid = first ++ second ∧ first.length = 2 ∧
        second.length = 2 := by
      refine ⟨mid.take 2, mid.drop 2, (take_append_drop 2 mid).symm, ?_, ?_⟩
      · rw [length_take, room]
        rfl
      · rw [length_drop, room]
    have written0 := @units.sets (0xD800 + (c - 0x10000) / 1024) pre first (second ++ post) (by omega) two0
    have written1 := @units.sets (0xDC00 + (c - 0x10000) % 1024)
      (pre ++ unit (0xD800 + (c - 0x10000) / 1024)) second post (by omega) two1
    rw [length_append, units.length] at written1
    show (if c < 0x10000 then _ else setter _ pre.length (0xD800 ||| insertBits (c - 0x10000) 0x3FF (-10)) >>=
      fun bytes => setter bytes (pre.length + 2) (0xDC00 ||| insertBits (c - 0x10000) 0x3FF 0) >>= fun _ => _) = _
    rw [if_neg basic, highSurrogate_eq (by omega), lowSurrogate_eq, ← append_assoc pre,
      append_assoc (pre ++ first), written0]
    show (setter _ (pre.length + 2) _ >>= fun _ => _) = _
    rw [← append_assoc, written1, if_neg basic]
    simp only [append_assoc]
    rfl

theorem utf16Length_low {u : ℕ} (unit16 : u < 0x10000) :
    initialU16ToUtf16CharLength u = .ok (if 0xD800 ≤ u ∧ u < 0xDC00 then 4 else 2) := by
  have high := utf16HighSurrogate_iff unit16
  have low := utf16LowSurrogate_iff unit16
  unfold initialU16ToUtf16CharLength
  rw [if_pos unit16]
  by_cases is_high : 0xD800 ≤ u ∧ u < 0xDC00
  · have not_low : utf16LowSurrogate u = false := by
      rw [← Bool.not_eq_true, low]
      omega
    rw [if_pos is_high, if_pos (by rw [not_low, high.mpr is_high]; rfl)]
  · have not_high : utf16HighSurrogate u = false := by
      rw [← Bool.not_eq_true, high]
      exact is_high
    rw [if_neg is_high, if_neg (by rw [not_high, Bool.and_false]; exact Bool.false_ne_true)]

theorem utf16_decode_single {bytes : Bytevector} {index u : ℕ} (unit16 : u < 0x10000)
    (read : getter bytes index = .ok u) (single : ¬ (0xD800 ≤ u ∧ u < 0xDC00)) :
    utf16CharDecoder getter bytes index = .ok (if u < 0xD800 ∨ 0xE000 ≤ u then some u else none) := by
  have high := (not_congr (utf16HighSurrogate_iff unit16)).mpr single
  unfold utf16CharDecoder
  rw [read]
  show (if utf16LowSurrogate u = true then _ else if utf16HighSurrogate u = true then _ else charIf true u) = _
  by_cases is_low : 0xDC00 ≤ u ∧ u < 0xE000
  · rw [if_pos ((utf16LowSurrogate_iff unit16).mpr is_low), if_neg (by omega)]
  · rw [if_neg (mt (utf16LowSurrogate_iff unit16).mp is_low), if_neg high, if_pos (by omega), charIf_true (by omega)]

theorem utf16_decode_pair {bytes : Bytevector} {index d0 d1 : ℕ} (read0 : getter bytes index = .ok d0)
    (read1 : getter bytes (index + 2) = .ok d1) (high : 0xD800 ≤ d0 ∧ d0 < 0xDC00) (unit16 : d1 < 0x10000) :
    utf16CharDecoder getter bytes index = .ok (if 0xDC00 ≤ d1 ∧ d1 < 0xE000 then
      some ((d0 - 0xD800) * 1024 + (d1 - 0xDC00) + 0x10000) else none) := by
  have unit0 : d0 < 0x10000 := by omega
  unfold utf16CharDecoder
  rw [read0]
  show (if utf16LowSurrogate d0 = true then _ else if utf16HighSurrogate d0 = true then
    getter bytes (index + 2) >>= fun d1 => charIf (utf16LowSurrogate d1) _ else _) = _
  rw [if_neg (mt (utf16LowSurrogate_iff unit0).mp (by omega)), if_pos ((utf16HighSurrogate_iff unit0).mpr high), read1]
  show charIf (utf16LowSurrogate d1) ((extractBits d0 0x3FF 10 ||| extractBits d1 0x3FF 0) + 0x10000) = _
  by_cases low : 0xDC00 ≤ d1 ∧ d1 < 0xE000
  · rw [if_pos low, (utf16LowSurrogate_iff unit16).mpr low, surrogatePair_eq high low, charIf_true (by omega)]
  · have not_low := mt (utf16LowSurrogate_iff unit16).mp low
    rw [if_neg low, Bool.eq_false_iff.mpr not_low]
    rfl

theorem utf16_headLength {bytes : Bytevector} {index u : ℕ} (unit16 : u < 0x10000) (read : getter bytes index = .ok u) :
    (utf16 getter setter caller noun).headLength bytes index = .ok (if 0xD800 ≤ u ∧ u < 0xDC00 then 4 else 2) := by
  show (getter bytes index >>= initialU16ToUtf16CharLength) = _
  rw [read]
  exact utf16Length_low unit16

theorem utf16Code_pair {d0 d1 : ℕ} (high : 0xD800 ≤ d0) (low : 0xDC00 ≤ d1 ∧ d1 < 0xE000) :
    utf16Code unit ((d0 - 0xD800) * 1024 + (d1 - 0xDC00) + 0x10000) = unit d0 ++ unit d1 := by
  unfold utf16Code
  rw [if_neg (by omega), show 0xD800 + ((d0 - 0xD800) * 1024 + (d1 - 0xDC00) + 0x10000 - 0x10000) / 1024 = d0 by omega,
    show 0xDC00 + ((d0 - 0xD800) * 1024 + (d1 - 0xDC00) + 0x10000 - 0x10000) % 1024 = d1 by omega]

section
variable (units : Units 2 0x10000 getter setter unit)
include units

theorem utf16_decodes {c : ℕ} {bytes rest : Bytevector} {index : ℕ} (fit : Encodable c)
    (here : bytes.drop index = utf16Code unit c ++ rest) : (utf16 getter setter caller noun).headLength bytes index =
    .ok (utf16Code unit c).length ∧ utf16CharDecoder getter bytes index = .ok (some c) := by
  have scalar := fit.1
  unfold Scalar at scalar
  rw [utf16Code_length units]
  unfold utf16Code at here
  by_cases basic : c < 0x10000
  · rw [if_pos basic] at here ⊢
    have read := units.reads basic here
    rw [utf16_headLength basic read, utf16_decode_single basic read (by omega), if_neg (by omega), if_pos (by omega)]
    exact ⟨rfl, rfl⟩
  · rw [if_neg basic, append_assoc] at here
    rw [if_neg basic]
    have read0 := units.reads (by omega) here
    have next : bytes.drop (index + 2) = unit (0xDC00 + (c - 0x10000) % 1024) ++ rest := by
      rw [← drop_drop, here, drop_left' (units.length _)]
    have read1 := units.reads (by omega) next
    rw [utf16_headLength (by omega) read0, utf16_decode_pair read0 read1 (by omega) (by omega),
      if_pos (by omega), if_pos (by omega)]
    exact ⟨rfl, congrArg Except.ok (congrArg some (by omega))⟩

theorem utf16_head {bytes : Bytevector} {index : ℕ}
    (inside : index + 2 ≤ bytes.length) :
    ∃ n, 0 < n ∧ (utf16 getter setter caller noun).headLength bytes index = .ok n ∧
      (index + n ≤ bytes.length → ∃ d, utf16CharDecoder getter bytes index = .ok d ∧
        ∀ c, d = some c → Scalar c ∧ bytes.drop index = utf16Code unit c ++ bytes.drop (index + n)) := by
  obtain ⟨u, small, here⟩ := units.covers inside
  have read := units.reads small here
  refine ⟨_, ?_, utf16_headLength small read, ?_⟩
  · split <;> decide
  by_cases high : 0xD800 ≤ u ∧ u < 0xDC00
  · rw [if_pos high]
    intro room
    obtain ⟨d1, small1, next⟩ := units.covers (show index + 2 + 2 ≤ bytes.length from room)
    rw [utf16_decode_pair read (units.reads small1 next) high small1]
    refine ⟨_, rfl, fun c same => ?_⟩
    by_cases low : 0xDC00 ≤ d1 ∧ d1 < 0xE000
    · rw [if_pos low] at same
      rw [← Option.some.inj same, utf16Code_pair high.1 low, append_assoc, here, next]
      exact ⟨.inr (by omega), rfl⟩
    · rw [if_neg low] at same
      cases same
  · rw [if_neg high]
    intro _
    rw [utf16_decode_single small read high]
    refine ⟨_, rfl, fun c same => ?_⟩
    by_cases scalar : u < 0xD800 ∨ 0xE000 ≤ u
    · rw [if_pos scalar] at same
      rw [← Option.some.inj same, here]
      refine ⟨by unfold Scalar; omega, ?_⟩
      unfold utf16Code
      rw [if_pos small]
    · rw [if_neg scalar] at same
      cases same

theorem utf16_lawful : (utf16 getter setter caller noun).Lawful (utf16Code unit) .index where
  step_pos := show 0 < 2 by decide
  step_le {c} _ := by
    rw [utf16Code_length units]
    show 2 ≤ _
    split <;> decide
  byteLength {c} fit := by
    show charUtf16ByteLength c = _
    unfold charUtf16ByteLength
    rw [charToScalarValue_ok fit.1 fit.2, utf16Code_length units]
    rfl
  unfit {c} unfit := by
    show ∃ e, charUtf16ByteLength c = .error e
    unfold charUtf16ByteLength
    rw [charToScalarValue_error unfit]
    exact ⟨_, rfl⟩
  encodes fit room := utf16_encodes units fit room
  stuck {c bytes} fit := by
    show ∃ e, utf16CharEncoder setter caller _ _ c = .error e
    unfold utf16CharEncoder
    rw [charToScalarValue_ok fit.1 fit.2]
    exact ⟨_, rfl⟩
  decodes fit here := utf16_decodes units fit here
  head inside := utf16_head units inside

end

end

end MitScheme.Runtime.Utf
