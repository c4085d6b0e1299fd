import MitScheme.Runtime.Utf.Strings

/-!
Decoding the encoding of a string gives the string exactly when the encoder accepts its characters and need not use an
index that it was not given, and the string is in NFC. What is decoded without an error has the bytes of its codes, before
it is normalized; decoding that replaces never signals.
-/

namespace MitScheme.Runtime.Utf

open List Encoding

def Encoding.code : Encoding → ℕ → Bytevector
  | .utf8 => utf8Code
  | .utf16be => utf16Code unit16be
  | .utf16le => utf16Code unit16le
  | .utf32be => unit32be
  | .utf32le => unit32le

def Encoding.Wide (e : Encoding) : Prop := e = .utf32be ∨ e = .utf32le

instance (e : Encoding) : Decidable e.Wide := inferInstanceAs (Decidable (_ ∨ _))

def Encoding.after (e : Encoding) (n : ℕ) : Value := if e.Wide then .unspecific else .index n

theorem Encoding.lawful (e : Encoding) : e.format.Lawful e.code e.after := by
  cases e with
  | utf8 => exact utf8_lawful
  | utf16be => exact utf16_lawful units16be
  | utf16le => exact utf16_lawful units16le
  | utf32be => exact utf32_lawful units32be
  | utf32le => exact utf32_lawful units32le

structure Encoding.Writes (e : Encoding) (string : List ℕ) : Prop where
  apart : ∀ c ∈ string, ¬ SurrogateLow c
  short : e.Wide → string.length ≤ 1

theorem Encoding.stringEncoder_ok {e : Encoding} {A : Allocator} {bom : Bool} {caller : String} {string : List ℕ}
    (scalar : ∀ c ∈ marked bom string, Scalar c) (writes : e.Writes (marked bom string)) :
    stringEncoder A e.format bom caller string none none = .ok ((marked bom string).flatMap e.code) := by
  have fit : ∀ c ∈ marked bom string, Encodable c := fun c among => ⟨scalar c among, writes.apart c among⟩
  have lawful := e.lawful
  by_cases wide : e.Wide
  · rw [show e.after = fun _ => .unspecific from funext fun n => if_pos wide] at lawful
    exact stringEncoder_single lawful fit (writes.short wide)
  · rw [show e.after = .index from funext fun n => if_neg wide] at lawful
    exact stringEncoder_chained lawful fit

theorem Encoding.stringEncoder_error {e : Encoding} {A : Allocator} {bom : Bool} {caller : String} {string : List ℕ}
    (fails : ¬ e.Writes (marked bom string)) :
    ∃ error, stringEncoder A e.format bom caller string none none = .error error := by
  have lawful := e.lawful
  by_cases apart : ∀ c ∈ marked bom string, ¬ SurrogateLow c
  · have long : e.Wide ∧ ¬ (marked bom string).length ≤ 1 := by
      by_contra short
      exact fails ⟨apart, fun wide => not_not.mp fun long => short ⟨wide, long⟩⟩
    rw [show e.after = fun _ => .unspecific from funext fun n => if_pos long.1] at lawful
    exact stringEncoder_stuck lawful (by omega)
  · obtain ⟨c, unfit⟩ := not_forall.mp apart
    obtain ⟨among, low⟩ := Classical.not_imp.mp unfit
    exact stringEncoder_unfit lawful ⟨c, among, fun fit => low fit.2⟩

variable {ucd : Ucd} {start stop : Option ℕ} {e : Encoding} {bytes : Bytevector} {string : List ℕ} {A : Allocator}

theorem range_ok {length first last : ℕ} {caller : String}
    (checked : range length start stop caller = .ok (first, last)) : first ≤ last ∧ last ≤ length := by
  unfold range at checked
  dsimp only at checked
  split at checked
  · rename_i inside
    split at checked
    · rename_i ordered
      obtain ⟨rfl, rfl⟩ := Prod.mk.inj (Except.ok.inj checked)
      exact ⟨ordered, inside⟩
    · cases checked
  · cases checked

theorem range_some {length first last : ℕ} {caller : String} (ordered : first ≤ last) (inside : last ≤ length) :
    range length (some first) (some last) caller = .ok (first, last) :=
  @range_of_le length (some first) (some last) caller ordered inside

theorem Encoding.decode_none {replace : Bool} :
    e.decode ucd bytes none none replace = e.decode ucd bytes (some 0) (some bytes.length) replace := by
  unfold decode bytesDecoder
  rw [range_none, range_some (Nat.zero_le _) (le_refl _)]

theorem Encoding.length_le_flatMap {string : List ℕ} (fit : ∀ c ∈ string, Encodable c) :
    string.length ≤ (string.flatMap e.code).length := by
  induction string with
  | nil => exact le_refl 0
  | cons c rest ih =>
    have some_bytes := e.lawful.step_le (fit c mem_cons_self)
    have positive := e.lawful.step_pos
    have later := ih fun d among => fit d (mem_cons_of_mem c among)
    rw [flatMap_cons, length_append, length_cons]
    omega

theorem Encoding.decode_flatMap {e : Encoding} {pre : Bytevector} {replace : Bool} {string : List ℕ}
    (fit : ∀ c ∈ string, Encodable c) :
    e.decode ucd (pre ++ string.flatMap e.code) (some pre.length) (some (pre ++ string.flatMap e.code).length) replace =
      .ok (stringToNfc ucd string) := by
  have many := @length_le_flatMap e string fit
  have ordered : pre.length ≤ (pre ++ string.flatMap e.code).length := by
    rw [length_append]
    exact Nat.le_add_right _ _
  unfold decode bytesDecoder
  rw [range_some ordered (le_refl _)]
  show decodeLoop _ _ _ _ _ pre.length [] >>= _ = _
  rw [decodeLoop_flatMap e.lawful fit (le_refl _) ordered (by rw [drop_left, drop_length, append_nil])
    (by rw [length_append]; omega)]
  rfl

/-- Strict decoding accepts the codes of scalar values, which an encoder writes only for the string itself. -/
theorem Encoding.decode_strict (decodes : e.decode ucd bytes start stop false = .ok string) : ∃ decoded first last,
    string = stringToNfc ucd decoded ∧ (∀ c ∈ decoded, Scalar c) ∧
    range bytes.length start stop e.decoderName = .ok (first, last) ∧
    bytevectorCopy bytes first last = decoded.flatMap e.code ∧
    ∀ other, (∀ c ∈ other, Encodable c) → other.flatMap e.code = decoded.flatMap e.code → other = decoded := by
  unfold decode bytesDecoder at decodes
  cases checked : range bytes.length start stop e.decoderName with
  | error error =>
    rw [checked] at decodes
    cases decodes
  | ok bounds =>
    obtain ⟨first, last⟩ := bounds
    obtain ⟨ordered, inside⟩ := range_ok checked
    rw [checked] at decodes
    change decodeLoop _ _ _ _ _ first [] >>= _ = _ at decodes
    cases looped : decodeLoop e.format bytes last false (bytes.length + 1) first [] with
    | error error =>
      rw [looped] at decodes
      cases decodes
    | ok decoded =>
      rw [looped] at decodes
      obtain ⟨_, rfl, scalar, here⟩ := decodeLoop_strict e.lawful inside ordered looped
      have size := congrArg length here
      rw [length_append, length_drop, length_drop] at size
      refine ⟨_, first, last, (Except.ok.inj decodes).symm, scalar, rfl, ?_, fun other fit same => ?_⟩
      · rw [bytevectorCopy, drop_take, here, take_left' (by omega)]
      · have many := @length_le_flatMap e other fit
        have again := @decodeLoop_flatMap _ _ _ bytes e.lawful false other [] (bytes.length + 1) first last fit inside ordered
          (by rw [same, here]) (by rw [same] at many; omega)
        exact Except.ok.inj (again.symm.trans looped)

theorem Encoding.decode_replaces (ordered : start.getD 0 ≤ stop.getD bytes.length)
    (inside : stop.getD bytes.length ≤ bytes.length) : ∃ string, e.decode ucd bytes start stop true = .ok string := by
  unfold decode bytesDecoder
  rw [range_of_le ordered inside]
  obtain ⟨string, looped⟩ := @decodeLoop_replaces _ _ _ bytes e.lawful (stop.getD bytes.length) bytes.length
    (start.getD 0) [] inside (by omega)
  refine ⟨stringToNfc ucd string, ?_⟩
  change decodeLoop _ _ _ _ _ _ _ >>= _ = _
  rw [looped]
  rfl

theorem Encoding.decode_within {first last : ℕ} (ordered : first ≤ last)
    (inside : last ≤ bytes.length) : ∃ string, e.decode ucd bytes (some first) (some last) true = .ok string :=
  decode_replaces ordered inside

theorem bytevectorU8Ref_zero {b : UInt8} {rest : Bytevector} {k : ℕ} {x : UInt8} (here : (b :: rest)[k]? = some x) :
    bytevectorU8Ref (b :: rest) k = .ok x.toNat := by
  have read := @bytevectorU8Ref_at (b :: rest) 0 k x (by rw [drop_zero, here])
  rwa [zero_add] at read

theorem utf16ToString_eq {host replace : Bool} {first last b0 b1 : ℕ}
    (checked : range bytes.length start stop "utf16->string" = .ok (first, last)) (room : first + 2 ≤ last)
    (read0 : bytevectorU8Ref bytes first = .ok b0) (read1 : bytevectorU8Ref bytes (first + 1) = .ok b1) :
    utf16ToString ucd host bytes start stop replace =
      if b0 = 0xFE ∧ b1 = 0xFF then Encoding.utf16be.decode ucd bytes (some (first + 2)) (some last) replace
      else if b0 = 0xFF ∧ b1 = 0xFE then Encoding.utf16le.decode ucd bytes (some (first + 2)) (some last) replace
      else (if host then Encoding.utf16be else .utf16le).decode ucd bytes (some first) (some last) replace := by
  unfold utf16ToString
  simp [checked, bind, Except.bind, if_pos room, read0, read1]

theorem utf32ToString_eq {host replace : Bool}
    {first last b0 b1 b2 b3 : ℕ} (checked : range bytes.length start stop "utf32->string" = .ok (first, last))
    (room : first + 4 ≤ last) (read0 : bytevectorU8Ref bytes first = .ok b0)
    (read1 : bytevectorU8Ref bytes (first + 1) = .ok b1) (read2 : bytevectorU8Ref bytes (first + 2) = .ok b2)
    (read3 : bytevectorU8Ref bytes (first + 3) = .ok b3) :
    utf32ToString ucd host bytes start stop replace =
      if b0 = 0 ∧ b1 = 0 ∧ b2 = 0xFE ∧ b3 = 0xFF then
        Encoding.utf32be.decode ucd bytes (some (first + 4)) (some last) replace
      else if b0 = 0xFF ∧ b1 = 0xFE ∧ b2 = 0 ∧ b3 = 0 then
        Encoding.utf32le.decode ucd bytes (some (first + 4)) (some last) replace
      else (if host then Encoding.utf32be else .utf32le).decode ucd bytes (some first) (some last) replace := by
  unfold utf32ToString
  simp [checked, bind, Except.bind, if_pos room, read0, read1, read2, read3]

theorem utf16ToString_marked {big host replace : Bool} {rest : Bytevector} :
    utf16ToString ucd host ((if big then unit16be else unit16le) charBom ++ rest) none none replace =
      (if big then Encoding.utf16be else .utf16le).decode ucd ((if big then unit16be else unit16le) charBom ++ rest)
        (some 2) (some ((if big then unit16be else unit16le) charBom ++ rest).length) replace := by
  have read : ∀ {b0 b1 : UInt8}, _ := fun {b0 b1} => @utf16ToString_eq ucd none none (b0 :: b1 :: rest) host replace _ _ _ _
    range_none (Nat.le_add_left 2 _) (bytevectorU8Ref_zero rfl) (bytevectorU8Ref_zero rfl)
  cases big with
  | true => exact read.trans (if_pos ⟨rfl, rfl⟩)
  | false => exact read.trans ((if_neg (by decide)).trans (if_pos ⟨rfl, rfl⟩))

theorem utf32ToString_marked {big host replace : Bool} {rest : Bytevector} :
    utf32ToString ucd host ((if big then unit32be else unit32le) charBom ++ rest) none none replace =
      (if big then Encoding.utf32be else .utf32le).decode ucd ((if big then unit32be else unit32le) charBom ++ rest)
        (some 4) (some ((if big then unit32be else unit32le) charBom ++ rest).length) replace := by
  have read : ∀ {b0 b1 b2 b3 : UInt8}, _ := fun {b0 b1 b2 b3} =>
    @utf32ToString_eq ucd none none (b0 :: b1 :: b2 :: b3 :: rest) host replace _ _ _ _ _ _ range_none (Nat.le_add_left 4 _)
      (bytevectorU8Ref_zero rfl) (bytevectorU8Ref_zero rfl) (bytevectorU8Ref_zero rfl) (bytevectorU8Ref_zero rfl)
  cases big with
  | true => exact read.trans (if_pos ⟨rfl, rfl, rfl, rfl⟩)
  | false => exact read.trans ((if_neg (by decide)).trans (if_pos ⟨rfl, rfl, rfl, rfl⟩))

theorem utf16ToString_replaces {host : Bool}
    (ordered : start.getD 0 ≤ stop.getD bytes.length) (inside : stop.getD bytes.length ≤ bytes.length) :
    ∃ string, utf16ToString ucd host bytes start stop true = .ok string := by
  have checked := @range_of_le _ _ _ "utf16->string" ordered inside
  generalize start.getD 0 = first at ordered checked
  generalize stop.getD bytes.length = last at ordered inside checked
  by_cases room : first + 2 ≤ last
  · obtain ⟨b0, read0⟩ := bytevectorU8Ref_inside (show first < bytes.length by omega)
    obtain ⟨b1, read1⟩ := bytevectorU8Ref_inside (show first + 1 < bytes.length by omega)
    rw [utf16ToString_eq checked room read0 read1]
    repeat' split
    all_goals exact decode_within (by omega) inside
  · unfold utf16ToString
    simp only [checked, bind, Except.bind, if_neg room]
    exact decode_within ordered inside

theorem utf32ToString_replaces {host : Bool}
    (ordered : start.getD 0 ≤ stop.getD bytes.length) (inside : stop.getD bytes.length ≤ bytes.length) :
    ∃ string, utf32ToString ucd host bytes start stop true = .ok string := by
  have checked := @range_of_le _ _ _ "utf32->string" ordered inside
  generalize start.getD 0 = first at ordered checked
  generalize stop.getD bytes.length = last at ordered inside checked
  by_cases room : first + 4 ≤ last
  · obtain ⟨b0, read0⟩ := bytevectorU8Ref_inside (show first < bytes.length by omega)
    obtain ⟨b1, read1⟩ := bytevectorU8Ref_inside (show first + 1 < bytes.length by omega)
    obtain ⟨b2, read2⟩ := bytevectorU8Ref_inside (show first + 2 < bytes.length by omega)
    obtain ⟨b3, read3⟩ := bytevectorU8Ref_inside (show first + 3 < bytes.length by omega)
    rw [utf32ToString_eq checked room read0 read1 read2 read3]
    repeat' split
    all_goals exact decode_within (by omega) inside
  · unfold utf32ToString
    simp only [checked, bind, Except.bind, if_neg room]
    exact decode_within ordered inside

def RoundTrip (encoded : Except Error Bytevector) (decode : Bytevector → Except Error (List ℕ)) (string : List ℕ) :
    Prop :=
  ∃ bytes, encoded = .ok bytes ∧ decode bytes = .ok string

theorem roundTrip_iff {encoded : Except Error Bytevector} {decode : Bytevector → Except Error (List ℕ)} {Written : Prop}
    (fails : ¬Written → ∃ error, encoded = .error error)
    (works : Written → ∃ bytes, encoded = .ok bytes ∧ decode bytes = .ok (stringToNfc ucd string)) :
    RoundTrip encoded decode string ↔ Written ∧ stringToNfc ucd string = string := by
  constructor
  · rintro ⟨bytes, encodes, decodes⟩
    by_cases written : Written
    · obtain ⟨bytes', encodes', decodes'⟩ := works written
      obtain rfl := Except.ok.inj (encodes.symm.trans encodes')
      exact ⟨written, Except.ok.inj (decodes'.symm.trans decodes)⟩
    · obtain ⟨error, signalled⟩ := fails written
      cases encodes.symm.trans signalled
  · rintro ⟨written, normal⟩
    obtain ⟨bytes, encodes, decodes⟩ := works written
    exact ⟨bytes, encodes, normal ▸ decodes⟩

theorem Encoding.roundTrip_iff (scalar : ∀ c ∈ string, Scalar c) :
    RoundTrip (e.encode A string none none) (e.decode ucd · none none false) string ↔
      e.Writes string ∧ stringToNfc ucd string = string := by
  refine Utf.roundTrip_iff (@stringEncoder_error e A false e.encoderName string) fun writes => ?_
  have fit : ∀ c ∈ string, Encodable c := fun c among => ⟨scalar c among, writes.apart c among⟩
  have decoded := @decode_flatMap ucd e [] false string fit
  exact ⟨_, @stringEncoder_ok e A false e.encoderName string scalar writes, decode_none.trans decoded⟩

theorem charBom_scalar (scalar : ∀ c ∈ string, Scalar c) : ∀ c ∈ marked true string, Scalar c :=
  forall_mem_cons.mpr ⟨.inr ⟨by decide, by decide⟩, scalar⟩

theorem charBom_apart : ¬SurrogateLow charBom := by
  unfold SurrogateLow charBom
  omega

theorem stringToUtf16Bom_roundTrip_iff {big host : Bool} (scalar : ∀ c ∈ string, Scalar c) :
    RoundTrip (stringToUtf16Bom A big string none none) (utf16ToString ucd host · none none false) string ↔
      (∀ c ∈ string, ¬ SurrogateLow c) ∧ stringToNfc ucd string = string := by
  have same : stringToUtf16Bom A big string none none =
      stringEncoder A (if big then Encoding.utf16be else .utf16le).format true "string->utf16" string none none := by
    cases big <;> rfl
  rw [same]
  refine roundTrip_iff (fun fails => stringEncoder_error fun writes => ?_) fun apart => ?_
  · exact fails fun c among => writes.apart c (mem_cons_of_mem _ among)
  · have fit : ∀ c ∈ string, Encodable c := fun c among => ⟨scalar c among, apart c among⟩
    have writes : (if big then Encoding.utf16be else .utf16le).Writes (marked true string) := by
      refine ⟨forall_mem_cons.mpr ⟨charBom_apart, apart⟩, ?_⟩
      cases big <;> exact fun wide => absurd wide (by decide)
    refine ⟨_, stringEncoder_ok (charBom_scalar scalar) writes, ?_⟩
    cases big with
    | true => exact (@utf16ToString_marked ucd true host false _).trans (decode_flatMap fit)
    | false => exact (@utf16ToString_marked ucd false host false _).trans (decode_flatMap fit)

theorem stringToUtf32Bom_roundTrip_iff {big host : Bool} :
    RoundTrip (stringToUtf32Bom A big string none none) (utf32ToString ucd host · none none false) string ↔
      string = [] := by
  have same : stringToUtf32Bom A big string none none =
      stringEncoder A (if big then Encoding.utf32be else .utf32le).format true "string->utf32" string none none := by
    cases big <;> rfl
  have wide : (if big then Encoding.utf32be else .utf32le).Wide := by
    cases big <;> decide
  rw [same]
  refine (@roundTrip_iff ucd string _ _ (string = []) (fun occupied => stringEncoder_error fun writes => ?_)
    ?_).trans (and_iff_left_of_imp ?_)
  · exact occupied (length_eq_zero_iff.mp (Nat.le_zero.mp (Nat.succ_le_succ_iff.mp (writes.short wide))))
  · rintro rfl
    have writes : (if big then Encoding.utf32be else .utf32le).Writes (marked true []) :=
      ⟨forall_mem_cons.mpr ⟨charBom_apart, by simp⟩, fun _ => le_refl 1⟩
    refine ⟨_, stringEncoder_ok (charBom_scalar (by simp)) writes, ?_⟩
    have fit : ∀ c ∈ ([] : List ℕ), Encodable c := by simp
    cases big with
    | true => exact (@utf32ToString_marked ucd true host false []).trans (decode_flatMap fit)
    | false => exact (@utf32ToString_marked ucd false host false []).trans (decode_flatMap fit)
  · rintro rfl
    rfl

theorem Encoding.encodes (encoded : e.encode A string none none = .ok bytes) :
    (∀ c ∈ string, Encodable c) ∧ e.Writes string ∧ bytes = string.flatMap e.code := by
  have fit : ∀ c ∈ string, Encodable c := by
    by_contra unfit
    obtain ⟨c, unfit⟩ := not_forall.mp unfit
    obtain ⟨error, signalled⟩ := @stringEncoder_unfit _ _ _ string A false e.encoderName e.lawful
      ⟨c, Classical.not_imp.mp unfit⟩
    cases encoded.symm.trans signalled
  have writes : e.Writes string := by
    by_contra fails
    obtain ⟨error, signalled⟩ := @stringEncoder_error e A false e.encoderName string fails
    cases encoded.symm.trans signalled
  have written := @stringEncoder_ok e A false e.encoderName string (fun c among => (fit c among).1) writes
  exact ⟨fit, writes, Except.ok.inj (encoded.symm.trans written)⟩

/-- A string comes back from its encoding exactly when none of its characters looks like a surrogate in its lower sixteen
bits, UTF-32 has one character to write at most and the string is in NFC; decoding accepts exactly the codes of scalar
values, or replaces what is no code. -/
theorem transformation_formats (A : Allocator) (ucd : Ucd) (host : Bool) :
    (∀ (e : Encoding) (string : List ℕ), (∀ c ∈ string, Scalar c) →
      (RoundTrip (e.encode A string none none) (e.decode ucd · none none false) string ↔
        e.Writes string ∧ stringToNfc ucd string = string)) ∧
    (∀ (big : Bool) (string : List ℕ), (∀ c ∈ string, Scalar c) →
      (RoundTrip (stringToUtf16Bom A big string none none) (utf16ToString ucd host · none none false) string ↔
        (∀ c ∈ string, ¬ SurrogateLow c) ∧ stringToNfc ucd string = string)) ∧
    (∀ (big : Bool) (string : List ℕ), (∀ c ∈ string, Scalar c) →
      (RoundTrip (stringToUtf32Bom A big string none none) (utf32ToString ucd host · none none false) string ↔
        string = [])) ∧
    (∀ (e : Encoding) (bytes : Bytevector) (start stop : Option ℕ) (string : List ℕ),
      e.decode ucd bytes start stop false = .ok string → ∃ decoded first last, string = stringToNfc ucd decoded ∧
        (∀ c ∈ decoded, Scalar c) ∧ range bytes.length start stop e.decoderName = .ok (first, last) ∧
        bytevectorCopy bytes first last = decoded.flatMap e.code ∧
        (e.encode A string none none = .ok (bytevectorCopy bytes first last) ↔
          e.Writes decoded ∧ stringToNfc ucd decoded = decoded)) ∧
    (∀ (bytes : Bytevector) (start stop : Option ℕ), start.getD 0 ≤ stop.getD bytes.length →
      stop.getD bytes.length ≤ bytes.length →
        (∀ e : Encoding, ∃ string, e.decode ucd bytes start stop true = .ok string) ∧
          (∃ string, utf16ToString ucd host bytes start stop true = .ok string) ∧
          ∃ string, utf32ToString ucd host bytes start stop true = .ok string) := by
  refine ⟨fun e string => Encoding.roundTrip_iff, fun big string => stringToUtf16Bom_roundTrip_iff,
    fun big string _ => stringToUtf32Bom_roundTrip_iff, fun e bytes start stop string decodes => ?_,
    fun bytes start stop ordered inside => ⟨fun e => decode_replaces ordered inside,
    utf16ToString_replaces ordered inside, utf32ToString_replaces ordered inside⟩⟩
  obtain ⟨decoded, first, last, rfl, scalar, checked, copied, only⟩ := decode_strict decodes
  refine ⟨decoded, first, last, rfl, scalar, checked, copied, fun encoded => ?_, fun ⟨writes, normal⟩ => ?_⟩
  · obtain ⟨fit, writes, bytes_eq⟩ := encodes encoded
    have normal := only _ fit (bytes_eq.symm.trans copied)
    exact ⟨normal ▸ writes, normal⟩
  · rw [copied, normal]
    exact @stringEncoder_ok e A false e.encoderName decoded scalar writes

def clearing : Allocator := ⟨fun n => List.replicate n 0, fun _ => List.length_replicate⟩

/-- The entries for `e`, U+0301 and U+00E9. -/
def acute : Ucd where
  cccValue char := if char = 0x301 then 230 else 0
  nfcQcValue char := if char = 0x301 then .maybe else .yes
  nfdQuickCheck char := char ≠ 0xE9
  canonicalDmValue char := if char = 0xE9 then .pair 0x65 0x301 else .char char
  canonicalCmValue char := if char = 0x65 then some 0 else none
  canonicalCmSecond _ := [(0x301, 0xE9)]
  depth char := if char = 0xE9 then 1 else 0
  depth_char maps := by split at maps <;> simp_all
  depth_pair maps := by grind

theorem transformation_formats_euro :
    RoundTrip (Encoding.utf8.encode clearing [0x20AC, 0x1F600] none none) (Encoding.utf8.decode acute · none none false)
      [0x20AC, 0x1F600] :=
  ((transformation_formats clearing acute true).1 .utf8 [0x20AC, 0x1F600] (by unfold Scalar; simp)).mpr
    ⟨⟨by unfold SurrogateLow; simp, fun wide => absurd wide (by decide)⟩, by decide⟩

theorem transformation_formats_fail :
    ¬ RoundTrip (Encoding.utf8.encode clearing [0x1D835] none none) (Encoding.utf8.decode acute · none none false)
        [0x1D835] ∧
      ¬ RoundTrip (Encoding.utf32be.encode clearing [0x61, 0x62] none none)
        (Encoding.utf32be.decode acute · none none false) [0x61, 0x62] ∧
      ∃ string, Encoding.utf8.decode acute [0x65, 0xCC, 0x81] none none false = .ok string ∧
        Encoding.utf8.encode clearing string none none ≠ .ok [0x65, 0xCC, 0x81] := by
  refine ⟨?_, ?_, stringToNfc acute [0x65, 0x301], rfl, ?_⟩
  · rintro ⟨bytes, encoded, -⟩
    cases encoded
  · rintro ⟨bytes, encoded, -⟩
    cases encoded
  · have composed : stringToNfc acute [0x65, 0x301] = [0xE9] := by decide +kernel
    rw [composed]
    nofun

end MitScheme.Runtime.Utf
