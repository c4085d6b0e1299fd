import MitScheme.Runtime.Utf.RoundTrips

/-!
A codec writes one character into a window of a bytevector, or reads one from it. A window that ends
in the middle of a sequence is no error: the continuation gets `#f` and waits for more bytes.
-/

namespace MitScheme.Runtime.Utf

open List Encoding

/-- The encoder returns the bytes with its value; the decoder returns what it applies the continuation to. `none` is
`#f`. -/
structure CharCodec where
  encoder : Bytevector → ℕ → ℕ → ℕ → Except Error (Bytevector × Option ℕ)
  decoder : Bytevector → ℕ → ℕ → Except Error (Option ℕ × ℕ)

/-- The family `next-char-length:…`: the first unit is read when `available` bytes are in the window. -/
def nextCharLength (available : ℕ) (F : Format) (bv : Bytevector) (bs be : ℕ) : Except Error (Option ℕ) :=
  if bs + available ≤ be then (F.headLength bv bs).map some else .ok none

def nextCharLengthUtf8 : Bytevector → ℕ → ℕ → Except Error (Option ℕ) := nextCharLength 1 utf8
def nextCharLengthUtf16le : Bytevector → ℕ → ℕ → Except Error (Option ℕ) := nextCharLength 2 utf16le
def nextCharLengthUtf16be : Bytevector → ℕ → ℕ → Except Error (Option ℕ) := nextCharLength 2 utf16be
def nextCharLengthUtf32le : Bytevector → ℕ → ℕ → Except Error (Option ℕ) := nextCharLength 2 utf32le
def nextCharLengthUtf32be : Bytevector → ℕ → ℕ → Except Error (Option ℕ) := nextCharLength 2 utf32be

def unicodeCodec (charByteLength : ℕ → Except Error ℕ)
    (encodeChar : Bytevector → Value → ℕ → Except Error (Bytevector × Value))
    (nextCharLength : Bytevector → ℕ → ℕ → Except Error (Option ℕ))
    (decodeChar : Bytevector → ℕ → Except Error (Option ℕ)) : CharCodec where
  encoder bv bs be char := do
    let n ← charByteLength char
    if bs + n ≤ be then do
      let (bv, _) ← encodeChar bv (.index bs) char
      .ok (bv, some (bs + n))
    else .ok (bv, none)
  decoder bv bs be := do
    let n ← nextCharLength bv bs be
    match n with
    | none => .ok (none, bs)
    | some n =>
      if bs + n ≤ be then do
        let char ← decodeChar bv bs
        .ok (some (char.getD charReplacement), bs + n)
      else .ok (none, bs + n)

def iso88591Codec : CharCodec where
  encoder bv bs be char :=
    if bs + 1 ≤ be then do
      let bv ← bytevectorU8Set bv bs char
      .ok (bv, some (bs + 1))
    else .ok (bv, none)
  decoder bv bs be :=
    if bs + 1 ≤ be then do
      let u8 ← bytevectorU8Ref bv bs
      let char ← integerToChar u8
      .ok (some char, bs + 1)
    else .ok (none, bs + 1)

/-- The names that `define-char-codec` gives. -/
inductive Codec where
  | encoding (e : Encoding)
  | iso88591
deriving DecidableEq, Repr

def Encoding.nextCharLength : Encoding → Bytevector → ℕ → ℕ → Except Error (Option ℕ)
  | .utf8 => nextCharLengthUtf8
  | .utf16be => nextCharLengthUtf16be
  | .utf16le => nextCharLengthUtf16le
  | .utf32be => nextCharLengthUtf32be
  | .utf32le => nextCharLengthUtf32le

def Codec.charCodec : Codec → CharCodec
  | .encoding e => unicodeCodec e.format.charByteLength e.format.encodeChar e.nextCharLength e.format.decodeChar
  | .iso88591 => iso88591Codec

def window (bv : Bytevector) (bs be : ℕ) : Bytevector := bytevectorCopy bv bs be

/-- The length of the sequence that a window starts with, where its first bytes tell it. -/
def Encoding.announced : Encoding → Bytevector → Option ℕ
  | .utf8, b0 :: _ =>
    some (if 0xC2 ≤ b0.toNat ∧ b0.toNat ≤ 0xDF then 2
      else if 0xE0 ≤ b0.toNat ∧ b0.toNat ≤ 0xEF then 3
      else if 0xF0 ≤ b0.toNat ∧ b0.toNat ≤ 0xF4 then 4
      else 1)
  | .utf16be, b0 :: _ :: _ => some (if 0xD8 ≤ b0.toNat ∧ b0.toNat < 0xDC then 4 else 2)
  | .utf16le, _ :: b1 :: _ => some (if 0xD8 ≤ b1.toNat ∧ b1.toNat < 0xDC then 4 else 2)
  | .utf32be, _ :: _ :: _ => some 4
  | .utf32le, _ :: _ :: _ => some 4
  | _, _ => none

def Codec.announced : Codec → Bytevector → Option ℕ
  | .encoding e, w => e.announced w
  | .iso88591, _ => some 1

def Codec.Sequence (codec : Codec) (bytes : Bytevector) : Prop := codec.announced bytes = some bytes.length

def Codec.character : Codec → Bytevector → ℕ
  | .encoding e, sequence =>
    match e.format.decodeChar sequence 0 with
    | .ok (some char) => char
    | _ => charReplacement
  | .iso88591, sequence => (sequence.headD 0).toNat

/-- What there is to read in a window: the character, when its sequence is complete, and the length. -/
def Codec.read (codec : Codec) (w : Bytevector) : Option ℕ × ℕ :=
  match codec.announced w with
  | none => (none, 0)
  | some n => (if n ≤ w.length then some (codec.character (w.take n)) else none, n)

def Codec.code : Codec → ℕ → Bytevector
  | .encoding e, char => e.code char
  | .iso88591, char => [UInt8.ofNat char]

def Codec.Accepts : Codec → ℕ → Prop
  | .encoding _, char => Encodable char
  | .iso88591, char => char < 256

section
variable {e : Encoding} {bytes w rest tail : Bytevector} {index k n : ℕ}

theorem Encoding.announced_append (told : e.announced w = some n) : e.announced (w ++ tail) = some n := by
  rcases w with _ | ⟨b0, _ | ⟨b1, w⟩⟩
  all_goals cases e <;> first | exact told | cases told

def Encoding.available : Encoding → ℕ
  | .utf8 => 1
  | _ => 2

theorem Encoding.available_le (told : e.announced w = some n) : e.available ≤ n := by
  rcases w with _ | ⟨b0, _ | ⟨b1, w⟩⟩
  all_goals cases e <;> cases told
  all_goals first | decide | (repeat' split) <;> decide

theorem Encoding.announced_some (enough : e.available ≤ w.length) : ∃ n, e.announced w = some n := by
  rcases w with _ | ⟨b0, _ | ⟨b1, w⟩⟩
  all_goals cases e <;> first | exact ⟨_, rfl⟩ | exact absurd enough (by simp [available])

theorem Encoding.announced_none (short : w.length < e.available) : e.announced w = none := by
  rcases w with _ | ⟨b0, _ | ⟨b1, w⟩⟩
  all_goals cases e <;> first | rfl | exact absurd short (by simp [available])

theorem Encoding.announced_take (told : e.announced w = some n) (inside : n ≤ w.length) :
    e.announced (w.take n) = some n := by
  have enough : e.available ≤ (w.take n).length := by
    rw [length_take_of_le inside]
    exact available_le told
  obtain ⟨m, start⟩ := announced_some enough
  have whole := @announced_append e _ (w.drop n) _ start
  rw [take_append_drop, told] at whole
  rw [start, whole]

theorem Encoding.announced_more (short : w.length < e.available) :
    ∃ n, e.announced (w ++ [0, 0, 0, 0]) = some n ∧ w.length < n ∧ n ≤ w.length + 4 := by
  have enough : e.available ≤ (w ++ [0, 0, 0, 0]).length := by
    cases e <;> simp [available]
  obtain ⟨n, told⟩ := announced_some enough
  refine ⟨n, told, short.trans_le (available_le told), ?_⟩
  rcases w with _ | ⟨b0, _ | ⟨b1, w⟩⟩
  all_goals cases e <;> cases told
  all_goals (repeat' split) <;> simp

section
variable {getter : Getter} {setter : Setter} {unit : ℕ → Bytevector} {width limit : ℕ} {caller noun : String}

theorem Units.getter_window (units : Units width limit getter setter unit) (here : bytes.drop index = w ++ rest)
    (inside : k + width ≤ w.length) : ∃ u < limit, w.drop k = unit u ++ w.drop (k + width) ∧ getter bytes (index + k) =
    .ok u ∧ getter w k = .ok u := by
  obtain ⟨u, small, found⟩ := units.covers inside
  refine ⟨u, small, found, ?_, units.reads small found⟩
  have further : bytes.drop (index + k) = unit u ++ (w.drop (k + width) ++ rest) := by
    rw [← drop_drop, here, drop_append_of_le_length (by omega), found, append_assoc]
  exact units.reads small further

theorem utf16_headLength_window (units : Units 2 0x10000 getter setter unit) (here : bytes.drop index = w ++ rest)
    (told : e.announced w = some n)
    (lead : ∀ u < 0x10000, ∀ tail, e.announced (unit u ++ tail) = some (if 0xD800 ≤ u ∧ u < 0xDC00 then 4 else 2))
    (enough : 2 ≤ w.length) : (utf16 getter setter caller noun).headLength bytes index = .ok n := by
  obtain ⟨u, small, found, read, -⟩ := units.getter_window (k := 0) here (by omega)
  rw [add_zero] at read
  rw [drop_zero] at found
  rw [utf16_headLength small read]
  rw [found, lead u small] at told
  rw [Option.some.inj told]

theorem utf16_decodeChar_window (units : Units 2 0x10000 getter setter unit) (here : bytes.drop index = w ++ rest)
    (long : ∀ u < 0x10000, ∀ tail, w = unit u ++ tail → 0xD800 ≤ u ∧ u < 0xDC00 → 4 ≤ w.length)
    (enough : 2 ≤ w.length) : utf16CharDecoder getter bytes index = utf16CharDecoder getter w 0 := by
  obtain ⟨u, small, found, read, again⟩ := units.getter_window (k := 0) here (by omega)
  rw [add_zero] at read
  by_cases high : 0xD800 ≤ u ∧ u < 0xDC00
  · obtain ⟨d1, small1, -, read1, again1⟩ := units.getter_window (k := 2) here (long u small _ found high)
    rw [utf16_decode_pair read read1 high small1, utf16_decode_pair again again1 high small1]
  · rw [utf16_decode_single small read high, utf16_decode_single small again high]

theorem utf32_headLength_window (units : Units 4 0x100000000 getter setter unit)
    (inside : index + 4 ≤ bytes.length) : (utf32 getter setter caller noun).headLength bytes index = .ok 4 := by
  obtain ⟨u, small, here⟩ := units.covers inside
  show (getter bytes index >>= initialU32ToUtf32CharLength) = _
  rw [units.reads small here]
  show initialU32ToUtf32CharLength u = _
  unfold initialU32ToUtf32CharLength
  rw [if_pos (by omega)]

theorem utf32_decodeChar_window (units : Units 4 0x100000000 getter setter unit) (here : bytes.drop index = w ++ rest)
    (inside : 4 ≤ w.length) : utf32CharDecoder getter bytes index = utf32CharDecoder getter w 0 := by
  obtain ⟨u, -, -, read, again⟩ := units.getter_window (k := 0) here (by omega)
  unfold utf32CharDecoder
  rw [show index = index + 0 from rfl, read, again]

end

theorem utf8_headLength_window (here : bytes.drop index = w ++ rest) (told : Encoding.utf8.announced w = some n) :
    utf8.headLength bytes index = .ok n := by
  cases w with
  | nil => cases told
  | cons b0 w =>
    have one := utf8InitialByte1_iff (byte_lt b0)
    have two := @utf8InitialByte2_iff b0.toNat
    have three := utf8InitialByte3_iff (byte_lt b0)
    have four := @utf8InitialByte4_iff b0.toNat
    rw [utf8_headLength here, ← Option.some.inj told]
    simp only [one, two, three, four]
    congr 1
    repeat' split
    all_goals omega

theorem utf8_decodeChar_window (here : bytes.drop index = w ++ rest)
    (told : Encoding.utf8.announced w = some w.length) : decodeUtf8Char bytes index = decodeUtf8Char w 0 := by
  cases w with
  | nil => cases told
  | cons b0 w =>
    have two := @utf8InitialByte2_iff b0.toNat
    have three := utf8InitialByte3_iff (byte_lt b0)
    have four := @utf8InitialByte4_iff b0.toNat
    have length := Option.some.inj told
    have again : (b0 :: w).drop 0 = b0 :: w := rfl
    by_cases lead1 : utf8InitialByte1 b0.toNat = true
    · rw [decodeUtf8Char_eq here, decodeUtf8Char_eq again, if_pos lead1, if_pos lead1]
    by_cases lead2 : utf8InitialByte2 b0.toNat = true
    · rw [if_pos (two.mp lead2)] at length
      obtain ⟨b1, rfl⟩ := length_eq_one_iff.mp (Nat.succ.inj length.symm)
      rw [decodeUtf8Char_two here lead1 lead2, decodeUtf8Char_two again lead1 lead2]
    by_cases lead3 : utf8InitialByte3 b0.toNat = true
    · rw [if_neg (mt two.mpr lead2), if_pos (three.mp lead3)] at length
      obtain ⟨b1, b2, rfl⟩ := length_eq_two.mp (Nat.succ.inj length.symm)
      rw [decodeUtf8Char_three here lead1 lead2 lead3, decodeUtf8Char_three again lead1 lead2 lead3]
    by_cases lead4 : utf8InitialByte4 b0.toNat = true
    · rw [if_neg (mt two.mpr lead2), if_neg (mt three.mpr lead3), if_pos (four.mp lead4)] at length
      obtain ⟨b1, b2, b3, rfl⟩ := length_eq_three.mp (Nat.succ.inj length.symm)
      rw [decodeUtf8Char_four here lead1 lead2 lead3 lead4, decodeUtf8Char_four again lead1 lead2 lead3 lead4]
    · rw [decodeUtf8Char_eq here, decodeUtf8Char_eq again]
      simp [if_neg lead2, if_neg lead3, if_neg lead4]

theorem announced_unit16be {u : ℕ} (small : u < 0x10000) :
    Encoding.utf16be.announced (unit16be u ++ tail) = some (if 0xD800 ≤ u ∧ u < 0xDC00 then 4 else 2) := by
  have lead := @toNat_ofNat_small (u / 256) (by omega)
  show some (if 0xD8 ≤ (UInt8.ofNat (u / 256)).toNat ∧ (UInt8.ofNat (u / 256)).toNat < 0xDC then 4 else 2) = _
  exact congrArg some (if_congr (by omega) rfl rfl)

theorem announced_unit16le {u : ℕ} (small : u < 0x10000) :
    Encoding.utf16le.announced (unit16le u ++ tail) = some (if 0xD800 ≤ u ∧ u < 0xDC00 then 4 else 2) := by
  have lead := @toNat_ofNat_small (u / 256) (by omega)
  show some (if 0xD8 ≤ (UInt8.ofNat (u / 256)).toNat ∧ (UInt8.ofNat (u / 256)).toNat < 0xDC then 4 else 2) = _
  exact congrArg some (if_congr (by omega) rfl rfl)

theorem announced_wide (wide : e.Wide) (told : e.announced w = some n) : n = 4 := by
  rcases w with _ | ⟨b0, _ | ⟨b1, w⟩⟩
  all_goals rcases wide with rfl | rfl <;> cases told
  all_goals rfl

theorem Encoding.step_le (told : e.announced w = some n) : e.format.step ≤ n := by
  by_cases wide : e.Wide
  · rw [announced_wide wide told]
    rcases wide with rfl | rfl <;> decide
  · have enough := available_le told
    cases e <;> first | exact enough | exact absurd wide (by decide)

theorem Encoding.available_le_step (e : Encoding) : e.available ≤ e.format.step := by
  cases e <;> decide

theorem Encoding.headLength_window (here : bytes.drop index = w ++ rest) (told : e.announced w = some n)
    (inside : index + e.format.step ≤ bytes.length) : e.format.headLength bytes index = .ok n := by
  have enough : e.available ≤ w.length := by
    by_contra short
    rw [announced_none (by omega)] at told
    cases told
  cases e with
  | utf8 => exact utf8_headLength_window here told
  | utf16be => exact utf16_headLength_window units16be here told (fun u small tail => announced_unit16be small) enough
  | utf16le => exact utf16_headLength_window units16le here told (fun u small tail => announced_unit16le small) enough
  | utf32be =>
    rw [announced_wide (.inl rfl) told]
    exact utf32_headLength_window units32be inside
  | utf32le =>
    rw [announced_wide (.inr rfl) told]
    exact utf32_headLength_window units32le inside

theorem Encoding.decodeChar_window (here : bytes.drop index = w ++ rest) (told : e.announced w = some w.length) :
    e.format.decodeChar bytes index = e.format.decodeChar w 0 := by
  have enough := available_le told
  cases e with
  | utf8 => exact utf8_decodeChar_window here told
  | utf16be =>
    refine utf16_decodeChar_window units16be here (fun u small tail found high => ?_) enough
    rw [found, announced_unit16be small, if_pos high, ← found] at told
    exact (Option.some.inj told).le
  | utf16le =>
    refine utf16_decodeChar_window units16le here (fun u small tail found high => ?_) enough
    rw [found, announced_unit16le small, if_pos high, ← found] at told
    exact (Option.some.inj told).le
  | utf32be => exact utf32_decodeChar_window units32be here (le_of_eq (announced_wide (.inl rfl) told).symm)
  | utf32le => exact utf32_decodeChar_window units32le here (le_of_eq (announced_wide (.inr rfl) told).symm)

theorem Encoding.decodeChar_sequence (told : e.announced w = some w.length) : ∃ d, e.format.decodeChar w 0 = .ok d ∧
    d.getD charReplacement = (Codec.encoding e).character w ∧ ∀ c, d = some c → e.code c = w := by
  have here : w.drop 0 = w ++ [] := (append_nil w).symm
  obtain ⟨n, -, length, decodes⟩ := @Format.Lawful.head _ _ _ e.lawful w 0 (by rw [zero_add]; exact step_le told)
  have inside : 0 + e.format.step ≤ w.length := (zero_add _).trans_le (step_le told)
  rw [headLength_window here told inside] at length
  obtain rfl := Except.ok.inj length
  obtain ⟨d, decoded, strict⟩ := decodes (zero_add _).le
  refine ⟨d, decoded, ?_, fun c same => ?_⟩
  · unfold Codec.character
    simp only [decoded]
    cases d <;> rfl
  · have code := (strict c same).2
    rw [zero_add, drop_length, append_nil] at code
    exact code.symm

theorem Encoding.announced_code {c : ℕ} (fit : Encodable c) :
    e.announced (e.code c) = some (e.code c).length ∧ (Codec.encoding e).character (e.code c) = c := by
  have here : (e.code c).drop 0 = e.code c ++ [] := (append_nil _).symm
  obtain ⟨length, decoded⟩ := e.lawful.decodes fit here
  have enough := e.lawful.step_le fit
  obtain ⟨n, told⟩ := announced_some (e.available_le_step.trans enough)
  have again := headLength_window here told ((zero_add _).trans_le enough)
  rw [length] at again
  refine ⟨told.trans (congrArg some (Except.ok.inj again).symm), ?_⟩
  unfold Codec.character
  simp [decoded]

end

section
variable {codec : Codec} {e : Encoding} {bv w head rest : Bytevector} {bs be n char : ℕ}

theorem Codec.announced_append (told : codec.announced w = some n) : codec.announced (w ++ rest) = some n := by
  cases codec with
  | encoding e => exact announced_append told
  | iso88591 => exact told

theorem Codec.announced_take (told : codec.announced w = some n) (inside : n ≤ w.length) :
    codec.announced (w.take n) = some n := by
  cases codec with
  | encoding e => exact announced_take told inside
  | iso88591 => exact told

theorem Codec.announced_more (unknown : codec.announced w = none) :
    ∃ n, codec.announced (w ++ [0, 0, 0, 0]) = some n ∧ w.length < n ∧ n ≤ w.length + 4 := by
  cases codec with
  | encoding e =>
    refine announced_more ?_
    by_contra enough
    obtain ⟨n, told⟩ := announced_some (not_lt.mp enough)
    cases unknown.symm.trans told
  | iso88591 => cases unknown

theorem Codec.read_sequence (complete : codec.Sequence head) :
    codec.read (head ++ rest) = (some (codec.character head), head.length) := by
  unfold read
  rw [announced_append complete]
  simp

theorem Codec.read_none_iff : (codec.read w).1 = none ↔ ∃ tail, tail ≠ [] ∧ codec.Sequence (w ++ tail) := by
  constructor
  · intro waits
    obtain ⟨n, longer, told⟩ : ∃ n, w.length < n ∧ ∃ tail, codec.announced (w ++ tail) = some n ∧
        n ≤ (w ++ tail).length := by
      cases told : codec.announced w with
      | none =>
        obtain ⟨n, more, longer, fits⟩ := announced_more told
        exact ⟨n, longer, _, more, by simpa using fits⟩
      | some n =>
        have longer : w.length < n := by
          by_contra short
          unfold read at waits
          simp [told, not_lt.mp short] at waits
        exact ⟨n, longer, replicate n 0, announced_append told, by simp⟩
    obtain ⟨tail, told, fits⟩ := told
    have whole := announced_take told fits
    rw [take_append, take_of_length_le (longer.le)] at whole
    have length : (w ++ tail.take (n - w.length)).length = n := by
      simp only [length_append, length_take] at fits ⊢
      omega
    refine ⟨tail.take (n - w.length), fun empty => ?_, whole.trans (congrArg some length.symm)⟩
    rw [empty, append_nil] at length
    omega
  · rintro ⟨tail, occupied, complete⟩
    have more := length_pos_iff.mpr occupied
    unfold read
    cases told : codec.announced w with
    | none => rfl
    | some n =>
      have length := Option.some.inj ((announced_append told).symm.trans complete)
      rw [length_append] at length
      simp only [ite_eq_right_iff]
      omega

theorem Codec.character_sequence (complete : codec.Sequence head) :
    codec.character head = charReplacement ∨ codec.code (codec.character head) = head := by
  cases codec with
  | encoding e =>
    obtain ⟨d, -, made, strict⟩ := decodeChar_sequence complete
    rw [← made]
    cases d with
    | none => exact .inl rfl
    | some c => exact .inr (strict c rfl)
  | iso88591 =>
    obtain ⟨b, rfl⟩ := length_eq_one_iff.mp (Option.some.inj complete).symm
    exact .inr (congrArg (· :: []) UInt8.ofNat_toNat)

theorem Codec.sequence_code (accepted : codec.Accepts char) :
    codec.Sequence (codec.code char) ∧ codec.character (codec.code char) = char := by
  cases codec with
  | encoding e => exact announced_code accepted
  | iso88591 => exact ⟨rfl, toNat_ofNat_small accepted⟩

theorem window_length (inside : be ≤ bv.length) : (window bv bs be).length = be - bs := by
  unfold window bytevectorCopy
  rw [length_drop, length_take_of_le inside]

theorem drop_window (ordered : bs ≤ be) (inside : be ≤ bv.length) : bv.drop bs = window bv bs be ++ bv.drop be := by
  unfold window bytevectorCopy
  rw [← drop_append_of_le_length (by rw [length_take_of_le inside]; exact ordered), take_append_drop]

def Codec.Respects (codec : Codec) (bv : Bytevector) (bs be : ℕ) : Prop :=
  codec.charCodec.decoder bv bs be =
    .ok ((codec.read (window bv bs be)).1, bs + (codec.read (window bv bs be)).2)

/-- The formats that want two bytes in the window before they read four. -/
def Codec.Wide (codec : Codec) : Prop := codec = .encoding .utf32be ∨ codec = .encoding .utf32le

instance (codec : Codec) : Decidable codec.Wide := inferInstanceAs (Decidable (_ ∨ _))

theorem Encoding.nextCharLength_eq :
    e.nextCharLength bv bs be = if bs + e.available ≤ be then (e.format.headLength bv bs).map some else .ok none := by
  cases e <;> rfl

theorem Encoding.decoder_eq :
    (Codec.encoding e).charCodec.decoder bv bs be = e.nextCharLength bv bs be >>= fun n =>
      match n with
      | none => .ok (none, bs)
      | some n =>
        if bs + n ≤ be then e.format.decodeChar bv bs >>= fun char => .ok (some (char.getD charReplacement), bs + n)
        else .ok (none, bs + n) := rfl

theorem Encoding.respects (ordered : bs ≤ be) (inside : be ≤ bv.length)
    (room : bs + e.available ≤ be → bs + e.format.step ≤ bv.length) : (Codec.encoding e).Respects bv bs be := by
  have length := @window_length bv bs be inside
  have here := drop_window ordered inside
  unfold Codec.Respects Codec.read
  rw [decoder_eq, nextCharLength_eq]
  by_cases enough : bs + e.available ≤ be
  · obtain ⟨n, told⟩ := @announced_some e (window bv bs be) (by omega)
    have told' : (Codec.encoding e).announced (window bv bs be) = some n := told
    rw [if_pos enough, headLength_window here told (room enough)]
    simp only [told', length]
    show (if bs + n ≤ be then _ else _) = _
    by_cases fits : bs + n ≤ be
    · have complete := announced_take told (by omega)
      have length' : ((window bv bs be).take n).length = n := length_take_of_le (by omega)
      have split : bv.drop bs = (window bv bs be).take n ++ ((window bv bs be).drop n ++ bv.drop be) := by
        rw [← append_assoc, take_append_drop, here]
      generalize (window bv bs be).take n = sequence at complete length' split ⊢
      rw [← length'] at complete
      obtain ⟨d, decoded, made, -⟩ := decodeChar_sequence complete
      rw [if_pos fits, if_pos (by omega), decodeChar_window split complete, decoded]
      show Except.ok (some (d.getD charReplacement), _) = _
      rw [made]
    · rw [if_neg fits, if_neg (by omega)]
  · have unknown : (Codec.encoding e).announced (window bv bs be) = none := announced_none (by omega)
    rw [if_neg enough]
    simp only [unknown]
    rfl

theorem u32Ref_behind {combine : ℕ → ℕ → ℕ → ℕ → ℕ} {caller : String} (behind : bv.length < bs + 4) :
    u32Ref combine caller bv bs = .error (.badRange bs caller) := by
  unfold u32Ref
  rw [if_neg (by omega)]

theorem Encoding.decoder_error (wide : e.Wide) (two : bs + 2 ≤ be) (behind : bv.length < bs + 4) :
    ∃ error, (Codec.encoding e).charCodec.decoder bv bs be = .error error := by
  have fails : ∃ error, e.format.headLength bv bs = .error error := by
    rcases wide with rfl | rfl
    · refine ⟨.badRange bs "bytevector-u32be-ref", ?_⟩
      show (u32Ref bytesToU32be _ bv bs >>= initialU32ToUtf32CharLength) = _
      rw [u32Ref_behind behind]
      rfl
    · refine ⟨.badRange bs "bytevector-u32le-ref", ?_⟩
      show (u32Ref bytesToU32le _ bv bs >>= initialU32ToUtf32CharLength) = _
      rw [u32Ref_behind behind]
      rfl
  have enough : bs + e.available ≤ be := by
    rcases wide with rfl | rfl <;> exact two
  obtain ⟨error, signalled⟩ := fails
  rw [decoder_eq, nextCharLength_eq, if_pos enough, signalled]
  exact ⟨error, rfl⟩

theorem iso88591_respects (inside : be ≤ bv.length) : Codec.iso88591.Respects bv bs be := by
  have length := @window_length bv bs be inside
  show (if bs + 1 ≤ be then _ else _) = Except.ok (if 1 ≤ _ then _ else _, bs + 1)
  by_cases enough : bs + 1 ≤ be
  · have byte : (bv.drop bs)[0]? = (window bv bs be)[0]? := by
      rw [drop_window (by omega) inside, getElem?_append_left (by omega)]
    cases w : window bv bs be with
    | nil =>
      rw [w] at length
      simp at length
      omega
    | cons b tail =>
      rw [w] at byte
      have read := @bytevectorU8Ref_at bv bs 0 b byte
      have small := byte_lt b
      rw [add_zero] at read
      rw [if_pos enough, read]
      show (integerToChar b.toNat >>= fun char => .ok (some char, bs + 1)) = _
      unfold integerToChar
      rw [if_pos (by omega)]
      rfl
  · rw [if_neg enough, if_neg (by omega)]

theorem Codec.respects_iff (ordered : bs ≤ be) (inside : be ≤ bv.length) :
    codec.Respects bv bs be ↔ ¬ (codec.Wide ∧ bs + 2 ≤ be ∧ bv.length < bs + 4) := by
  cases codec with
  | encoding e =>
    constructor
    · rintro respects ⟨wide, two, short⟩
      have wide' : e.Wide := by
        unfold Codec.Wide at wide
        rwa [Codec.encoding.injEq, Codec.encoding.injEq] at wide
      obtain ⟨error, signalled⟩ := decoder_error wide' two short
      unfold Codec.Respects at respects
      rw [signalled] at respects
      cases respects
    · intro sound
      refine respects ordered inside fun enough => ?_
      cases e with
      | utf8 | utf16be | utf16le => exact enough.trans inside
      | utf32be =>
        by_contra short
        exact sound ⟨.inl rfl, enough, not_le.mp short⟩
      | utf32le =>
        by_contra short
        exact sound ⟨.inr rfl, enough, not_le.mp short⟩
  | iso88591 =>
    constructor
    · rintro - ⟨wide, -⟩
      exact absurd wide (by decide)
    · intro _
      exact iso88591_respects inside

/-- The encoder writes the code of a character and nothing else, and the decoder finds it in the window. -/
def Codec.RoundTrips (codec : Codec) (char : ℕ) (bv : Bytevector) (bs be : ℕ) : Prop :=
  ∃ bytes last, codec.charCodec.encoder bv bs be char = .ok (bytes, some last) ∧
    bytes = bv.take bs ++ codec.code char ++ bv.drop last ∧
    codec.charCodec.decoder bytes bs be = .ok (some char, last)

theorem Encoding.encoder_eq :
    (Codec.encoding e).charCodec.encoder bv bs be char = e.format.charByteLength char >>= fun n =>
      if bs + n ≤ be then e.format.encodeChar bv (.index bs) char >>= fun written => .ok (written.1, some (bs + n))
      else .ok (bv, none) := rfl

theorem splice (bv : Bytevector) (bs n : ℕ) : bv = bv.take bs ++ (bv.drop bs).take n ++ bv.drop (bs + n) := by
  rw [append_assoc, ← drop_drop, take_append_drop, take_append_drop]

theorem Codec.encoder_ok (accepted : codec.Accepts char) (ordered : bs ≤ be) (inside : be ≤ bv.length) :
    codec.charCodec.encoder bv bs be char =
      if bs + (codec.code char).length ≤ be then
        .ok (bv.take bs ++ codec.code char ++ bv.drop (bs + (codec.code char).length),
          some (bs + (codec.code char).length))
      else .ok (bv, none) := by
  have start : (bv.take bs).length = bs := length_take_of_le (by omega)
  cases codec with
  | encoding e =>
    show _ = if bs + (e.code char).length ≤ be then Except.ok (_ ++ e.code char ++ _, _) else _
    rw [encoder_eq, e.lawful.byteLength accepted]
    show (if bs + (e.code char).length ≤ be then _ else _) = _
    by_cases fits : bs + (e.code char).length ≤ be
    · have room : ((bv.drop bs).take (e.code char).length).length = (e.code char).length := by
        rw [length_take_of_le]
        rw [length_drop]
        omega
      have written := @Format.Lawful.encodes _ _ _ e.lawful char (bv.take bs) ((bv.drop bs).take (e.code char).length)
        (bv.drop (bs + (e.code char).length)) accepted room
      rw [← splice, start] at written
      rw [if_pos fits, if_pos fits, written]
      rfl
    · rw [if_neg fits, if_neg fits]
  | iso88591 =>
    show (if bs + 1 ≤ be then _ else _) = if bs + 1 ≤ be then Except.ok (_ ++ [UInt8.ofNat char] ++ _, _) else _
    by_cases fits : bs + 1 ≤ be
    · have one : ((bv.drop bs).take 1).length = 1 := length_take_of_le (by rw [length_drop]; omega)
      have written := @setBytes_at _ pure [char] (bv.take bs) _ (bv.drop (bs + 1)) one (forall_mem_singleton.mpr accepted)
      simp only [setBytes, bind_pure] at written
      rw [← splice, start] at written
      rw [if_pos fits, if_pos fits, written]
      rfl
    · rw [if_neg fits, if_neg fits]

theorem Codec.encoder_error (refused : ¬ codec.Accepts char) {bytes : Bytevector} {last : ℕ} :
    codec.charCodec.encoder bv bs be char ≠ .ok (bytes, some last) := by
  cases codec with
  | encoding e =>
    obtain ⟨error, signalled⟩ := e.lawful.unfit refused
    rw [encoder_eq, signalled]
    exact nofun
  | iso88591 =>
    show (if bs + 1 ≤ be then bytevectorU8Set bv bs char >>= _ else _) ≠ _
    unfold bytevectorU8Set
    rw [if_neg (show ¬ char < 256 from refused)]
    split
    · split <;> exact nofun
    · exact nofun

theorem Codec.code_pos (accepted : codec.Accepts char) (wide : codec.Wide) : (codec.code char).length = 4 := by
  rcases wide with rfl | rfl <;> rfl

theorem Codec.roundTrips_iff (ordered : bs ≤ be) (inside : be ≤ bv.length) :
    codec.RoundTrips char bv bs be ↔ codec.Accepts char ∧ bs + (codec.code char).length ≤ be := by
  constructor
  · rintro ⟨bytes, last, written, -⟩
    have accepted : codec.Accepts char := not_not.mp fun refused => encoder_error refused written
    refine ⟨accepted, ?_⟩
    by_contra long
    rw [encoder_ok accepted ordered inside, if_neg long] at written
    cases written
  · rintro ⟨accepted, fits⟩
    refine ⟨_, bs + (codec.code char).length, ?_, rfl, ?_⟩
    · rw [encoder_ok accepted ordered inside, if_pos fits]
    generalize written : bv.take bs ++ codec.code char ++ bv.drop (bs + (codec.code char).length) = bytes
    have start : (bv.take bs).length = bs := length_take_of_le (by omega)
    have length : bytes.length = bv.length := by
      rw [← written]
      simp only [length_append, start, length_drop]
      omega
    have found : ∃ rest, window bytes bs be = codec.code char ++ rest := by
      refine ⟨(bv.drop (bs + (codec.code char).length)).take (be - bs - (codec.code char).length), ?_⟩
      unfold window bytevectorCopy
      rw [← written, append_assoc, take_append, drop_append_of_le_length (by simp; omega), start,
        take_append, take_of_length_le (show (codec.code char).length ≤ be - bs by omega)]
      simp
    obtain ⟨rest, found⟩ := found
    obtain ⟨complete, character⟩ := sequence_code accepted
    have respects : codec.Respects bytes bs be := by
      refine (respects_iff ordered (by omega)).mpr ?_
      rintro ⟨wide, -, behind⟩
      have four := code_pos accepted wide
      omega
    rw [respects, found, read_sequence complete, character]

/-- The decoder reads a character or an unfinished sequence exactly when no four bytes of UTF-32 are read behind the end
of the bytevector, and replaces what is no code; the encoder writes the code of a character exactly when it fits. -/
theorem char_codecs (codec : Codec) :
    (∀ bv bs be, bs ≤ be → be ≤ bv.length →
      (codec.Respects bv bs be ↔ ¬ (codec.Wide ∧ bs + 2 ≤ be ∧ bv.length < bs + 4))) ∧
    (∀ w, (codec.read w).1 = none ↔ ∃ tail, tail ≠ [] ∧ codec.Sequence (w ++ tail)) ∧
    (∀ head rest, codec.Sequence head →
      codec.read (head ++ rest) = (some (codec.character head), head.length)) ∧
    (∀ head, codec.Sequence head →
      codec.character head = charReplacement ∨ codec.code (codec.character head) = head) ∧
    ∀ char bv bs be, bs ≤ be → be ≤ bv.length →
      (codec.RoundTrips char bv bs be ↔ codec.Accepts char ∧ bs + (codec.code char).length ≤ be) :=
  ⟨fun _ _ _ => Codec.respects_iff, fun _ => Codec.read_none_iff, fun _ _ => Codec.read_sequence,
    fun _ => Codec.character_sequence, fun _ _ _ _ => Codec.roundTrips_iff⟩

theorem char_codecs_euro :
    (Codec.encoding .utf8).Respects [0xE2, 0x82] 0 2 ∧ (Codec.encoding .utf8).RoundTrips 0x20AC [0, 0, 0, 0] 1 4 := by
  obtain ⟨respects, -, -, -, roundTrips⟩ := char_codecs (.encoding .utf8)
  refine ⟨(respects _ _ _ (by decide) (by decide)).mpr (by decide), ?_⟩
  exact (roundTrips _ _ _ _ (by decide) (by decide)).mpr
    ⟨⟨by unfold Scalar; omega, by unfold SurrogateLow; omega⟩, by decide⟩

theorem utf32_decoder_two : (Codec.encoding .utf32be).charCodec.decoder [0, 0] 0 2 =
    .error (.badRange 0 "bytevector-u32be-ref") ∧ ¬ (Codec.encoding .utf32be).Respects [0, 0] 0 2 :=
  ⟨rfl, nofun⟩

end

end MitScheme.Runtime.Utf
