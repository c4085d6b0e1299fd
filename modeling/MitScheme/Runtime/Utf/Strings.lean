import MitScheme.Runtime.Utf.Normalization
import MitScheme.Runtime.Utf.Utf8

namespace MitScheme.Runtime.Utf

open List

def lengthLoop (F : Format) : List ℕ → ℕ → Except Error ℕ
  | [], count => .ok count
  | char :: rest, count => do
    let n ← F.charByteLength char
    lengthLoop F rest (count + n)

def encodeLoop (F : Format) : List ℕ → Bytevector → Value → Except Error Bytevector
  | [], bytes, _ => .ok bytes
  | char :: rest, bytes, target => do
    let (bytes, target) ← F.encodeChar bytes target char
    encodeLoop F rest bytes target

def encodeBom (F : Format) (bom : Bool) (bytes : Bytevector) : Except Error (Bytevector × Value) :=
  if bom then F.encodeChar bytes (.index 0) charBom else .ok (bytes, .index 0)

def bomLength (F : Format) (bom : Bool) : Except Error ℕ :=
  if bom then F.charByteLength charBom else .ok 0

def stringEncoder (A : Allocator) (F : Format) (bom : Bool) (caller : String) (string : List ℕ)
    (start stop : Option ℕ) : Except Error Bytevector := do
  let (first, last) ← range string.length start stop caller
  let count ← bomLength F bom
  let length ← lengthLoop F ((string.take last).drop first) count
  let (bytes, target) ← encodeBom F bom (A.allocate length)
  encodeLoop F ((string.take last).drop first) bytes target

def complain (F : Format) (bytes : Bytevector) (last : ℕ) (replace : Bool) (adjective : String) (index : ℕ) :
    Except Error ℕ :=
  if replace then .ok charReplacement
  else .error (.simple (adjective ++ " " ++ F.noun ++ " sequence:") (bytevectorCopy bytes index (min (index + 4) last)))

/-- The character that the loop adds for a sequence of `n` bytes. -/
def nextChar (F : Format) (bytes : Bytevector) (last : ℕ) (replace : Bool) (index n : ℕ) : Except Error ℕ :=
  if index + n ≤ last then do
    let decoded ← F.decodeChar bytes index
    match decoded with
    | some char => .ok char
    | none => complain F bytes last replace "Ill-formed" index
  else complain F bytes last replace "Truncated" index

def decodeLoop (F : Format) (bytes : Bytevector) (last : ℕ) (replace : Bool) :
    ℕ → ℕ → List ℕ → Except Error (List ℕ)
  | 0, _, _ => .error .unfinished
  | fuel + 1, index, builder =>
    if index + F.step ≤ last then do
      let n ← F.headLength bytes index
      let char ← nextChar F bytes last replace index n
      decodeLoop F bytes last replace fuel (index + n) (builder ++ [char])
    else if index < last then do
      let char ← complain F bytes last replace "Truncated" index
      .ok (builder ++ [char])
    else .ok builder

/-- The builder delivers its characters through `string->nfc`. -/
def bytesDecoder (ucd : Ucd) (F : Format) (caller : String) (bytes : Bytevector) (start stop : Option ℕ) (replace : Bool) :
    Except Error (List ℕ) := do
  let (first, last) ← range bytes.length start stop caller
  let string ← decodeLoop F bytes last replace (bytes.length + 1) first []
  return stringToNfc ucd string

inductive Encoding where
  | utf8
  | utf16be
  | utf16le
  | utf32be
  | utf32le
deriving DecidableEq, Repr

def Encoding.format : Encoding → Format
  | .utf8 => Utf.utf8
  | .utf16be => Utf.utf16be
  | .utf16le => Utf.utf16le
  | .utf32be => Utf.utf32be
  | .utf32le => Utf.utf32le

def Encoding.encoderName : Encoding → String
  | .utf8 => "string->utf8"
  | .utf16be => "string->utf16be"
  | .utf16le => "string->utf16le"
  | .utf32be => "string->utf32be"
  | .utf32le => "string->utf32le"

def Encoding.decoderName : Encoding → String
  | .utf8 => "utf8->string"
  | .utf16be => "utf16be->string"
  | .utf16le => "utf16le->string"
  | .utf32be => "utf32be->string"
  | .utf32le => "utf32le->string"

/-- `string->utf8` and its siblings without a mark. -/
def Encoding.encode (A : Allocator) (e : Encoding) (string : List ℕ) (start stop : Option ℕ) : Except Error Bytevector :=
  stringEncoder A e.format false e.encoderName string start stop

/-- `utf8->string` and its siblings. -/
def Encoding.decode (ucd : Ucd) (e : Encoding) (bytes : Bytevector) (start stop : Option ℕ) (replace : Bool) :
    Except Error (List ℕ) :=
  bytesDecoder ucd e.format e.decoderName bytes start stop replace

/-- `string->utf16be+bom` and `string->utf16le+bom`. -/
def stringToUtf16Bom (A : Allocator) (big : Bool) (string : List ℕ) (start stop : Option ℕ) : Except Error Bytevector :=
  stringEncoder A (if big then utf16be else utf16le) true "string->utf16" string start stop

/-- `string->utf32be+bom` and `string->utf32le+bom`. -/
def stringToUtf32Bom (A : Allocator) (big : Bool) (string : List ℕ) (start stop : Option ℕ) : Except Error Bytevector :=
  stringEncoder A (if big then utf32be else utf32le) true "string->utf32" string start stop

def utf16ToString (ucd : Ucd) (hostBigEndian : Bool) (bytes : Bytevector) (start stop : Option ℕ) (replace : Bool) :
    Except Error (List ℕ) := do
  let (first, last) ← range bytes.length start stop "utf16->string"
  if first + 2 ≤ last then do
    let b0 ← bytevectorU8Ref bytes first
    let b1 ← bytevectorU8Ref bytes (first + 1)
    if b0 = 0xFE ∧ b1 = 0xFF then Encoding.utf16be.decode ucd bytes (some (first + 2)) (some last) replace
    else if b0 = 0xFF ∧ b1 = 0xFE then Encoding.utf16le.decode ucd bytes (some (first + 2)) (some last) replace
    else (if hostBigEndian then Encoding.utf16be else .utf16le).decode ucd bytes (some first) (some last) replace
  else (if hostBigEndian then Encoding.utf16be else .utf16le).decode ucd bytes (some first) (some last) replace

def utf32ToString (ucd : Ucd) (hostBigEndian : Bool) (bytes : Bytevector) (start stop : Option ℕ) (replace : Bool) :
    Except Error (List ℕ) := do
  let (first, last) ← range bytes.length start stop "utf32->string"
  if first + 4 ≤ last then do
    let b0 ← bytevectorU8Ref bytes first
    let b1 ← bytevectorU8Ref bytes (first + 1)
    let b2 ← bytevectorU8Ref bytes (first + 2)
    let b3 ← bytevectorU8Ref bytes (first + 3)
    if b0 = 0 ∧ b1 = 0 ∧ b2 = 0xFE ∧ b3 = 0xFF then
      Encoding.utf32be.decode ucd bytes (some (first + 4)) (some last) replace
    else if b0 = 0xFF ∧ b1 = 0xFE ∧ b2 = 0 ∧ b3 = 0 then
      Encoding.utf32le.decode ucd bytes (some (first + 4)) (some last) replace
    else (if hostBigEndian then Encoding.utf32be else .utf32le).decode ucd bytes (some first) (some last) replace
  else (if hostBigEndian then Encoding.utf32be else .utf32le).decode ucd bytes (some first) (some last) replace

theorem range_none {length : ℕ} {caller : String} : range length none none caller = .ok (0, length) :=
  @range_of_le length none none caller (Nat.zero_le _) (le_refl _)

section
variable {F : Format} {code : ℕ → Bytevector} {after : ℕ → Value}

variable {string : List ℕ} {A : Allocator} {bom : Bool} {caller : String} {bytes : Bytevector}

theorem lengthLoop_ok (lawful : F.Lawful code after) {count : ℕ} (fit : ∀ c ∈ string, Encodable c) :
    lengthLoop F string count = .ok (count + (string.flatMap code).length) := by
  induction string generalizing count with
  | nil => rfl
  | cons c rest ih =>
    show (F.charByteLength c >>= fun n => lengthLoop F rest (count + n)) = _
    rw [lawful.byteLength (fit c mem_cons_self)]
    show lengthLoop F rest (count + (code c).length) = _
    rw [ih fun d among => fit d (mem_cons_of_mem c among), flatMap_cons, length_append, add_assoc]

theorem lengthLoop_error (lawful : F.Lawful code after) {string : List ℕ} {count : ℕ}
    (unfit : ∃ c ∈ string, ¬ Encodable c) : ∃ e, lengthLoop F string count = .error e := by
  induction string generalizing count with
  | nil =>
    obtain ⟨c, among, -⟩ := unfit
    cases among
  | cons c rest ih =>
    show ∃ e, (F.charByteLength c >>= fun n => lengthLoop F rest (count + n)) = .error e
    by_cases first : Encodable c
    · obtain ⟨d, among, unfit⟩ := unfit
      rw [lawful.byteLength first]
      rcases mem_cons.mp among with rfl | among
      · exact absurd first unfit
      · exact ih ⟨d, among, unfit⟩
    · obtain ⟨e, signalled⟩ := lawful.unfit first
      rw [signalled]
      exact ⟨e, rfl⟩

theorem encodeLoop_chained (lawful : F.Lawful code .index) {string : List ℕ} {pre room : Bytevector}
    (fit : ∀ c ∈ string, Encodable c) (enough : room.length = (string.flatMap code).length) :
    encodeLoop F string (pre ++ room) (.index pre.length) = .ok (pre ++ string.flatMap code) := by
  induction string generalizing pre room with
  | nil =>
    rw [length_eq_zero_iff.mp enough]
    rfl
  | cons c rest ih =>
    rw [flatMap_cons, length_append] at enough
    have mid : (room.take (code c).length).length = (code c).length := by
      rw [length_take]
      omega
    have left : (room.drop (code c).length).length = (rest.flatMap code).length := by
      rw [length_drop]
      omega
    have written := @Format.Lawful.encodes F code _ lawful c pre _ (room.drop (code c).length)
      (fit c mem_cons_self) mid
    rw [append_assoc, take_append_drop] at written
    show (F.encodeChar (pre ++ room) (.index pre.length) c >>= fun result => encodeLoop F rest result.1 result.2) = _
    rw [written]
    show encodeLoop F rest (pre ++ code c ++ room.drop (code c).length) (.index (pre.length + (code c).length)) = _
    have later := @ih (pre ++ code c) (room.drop (code c).length)
      (fun d among => fit d (mem_cons_of_mem c among)) left
    rw [length_append] at later
    rw [later, flatMap_cons, append_assoc]

theorem encodeLoop_stuck (lawful : F.Lawful code fun _ => .unspecific) {c d : ℕ} {rest : List ℕ} {room : Bytevector}
    (fit : ∀ x ∈ c :: d :: rest, Encodable x) (enough : room.length = ((c :: d :: rest).flatMap code).length) : ∃ e,
    encodeLoop F (c :: d :: rest) room (.index 0) = .error e := by
  rw [flatMap_cons, length_append] at enough
  have mid : (room.take (code c).length).length = (code c).length := by
    rw [length_take]
    omega
  have written := @Format.Lawful.encodes F code _ lawful c [] _ (room.drop (code c).length)
    (fit c mem_cons_self) mid
  rw [append_assoc, take_append_drop, nil_append] at written
  obtain ⟨e, signalled⟩ := @Format.Lawful.stuck F code _ lawful d (code c ++ room.drop (code c).length)
    (fit d (mem_cons_of_mem c mem_cons_self))
  show ∃ e, (F.encodeChar room (.index 0) c >>= fun result => encodeLoop F (d :: rest) result.1 result.2) = .error e
  rw [show Value.index 0 = .index ([] : Bytevector).length from rfl, written]
  show ∃ e, (F.encodeChar (code c ++ room.drop (code c).length) .unspecific d >>= _) = .error e
  rw [signalled]
  exact ⟨e, rfl⟩

def marked (bom : Bool) (string : List ℕ) : List ℕ := if bom then charBom :: string else string

theorem stringEncoder_whole : stringEncoder A F bom caller string none none =
    lengthLoop F (marked bom string) 0 >>= fun length => encodeLoop F (marked bom string) (A.allocate length) (.index 0) := by
  have all : (string.take string.length).drop 0 = string := by
    rw [drop_zero, take_length]
  unfold stringEncoder
  rw [range_none]
  show (bomLength F bom >>= fun count => lengthLoop F ((string.take string.length).drop 0) count >>= fun length =>
    encodeBom F bom (A.allocate length) >>= fun result =>
      encodeLoop F ((string.take string.length).drop 0) result.1 result.2) = _
  rw [all]
  cases bom with
  | false => rfl
  | true =>
    show (F.charByteLength charBom >>= _) = ((F.charByteLength charBom >>= _) >>= _)
    cases F.charByteLength charBom with
    | error e => rfl
    | ok n =>
      show (lengthLoop F string n >>= _) = (lengthLoop F string (0 + n) >>= _)
      rw [zero_add]
      rfl

theorem stringEncoder_chained (lawful : F.Lawful code .index) (fit : ∀ c ∈ marked bom string, Encodable c) :
    stringEncoder A F bom caller string none none = .ok ((marked bom string).flatMap code) := by
  rw [stringEncoder_whole, lengthLoop_ok lawful fit]
  have written := @encodeLoop_chained F code lawful (marked bom string) []
    (A.allocate (0 + ((marked bom string).flatMap code).length)) fit
    (by rw [A.length_allocate, zero_add])
  rwa [nil_append] at written

theorem stringEncoder_single (lawful : F.Lawful code fun _ => .unspecific) (fit : ∀ c ∈ marked bom string, Encodable c)
    (short : (marked bom string).length ≤ 1) : stringEncoder A F bom caller string none none =
    .ok ((marked bom string).flatMap code) := by
  rw [stringEncoder_whole, lengthLoop_ok lawful fit]
  show encodeLoop F (marked bom string) (A.allocate _) (.index 0) = _
  have room := A.length_allocate (0 + ((marked bom string).flatMap code).length)
  generalize A.allocate (0 + ((marked bom string).flatMap code).length) = bytes at room ⊢
  generalize marked bom string = characters at fit short room ⊢
  obtain _ | ⟨c, _ | ⟨d, rest⟩⟩ := characters
  · rw [length_eq_zero_iff.mp room]
    rfl
  · have written := @Format.Lawful.encodes F code _ lawful c [] bytes [] (fit c mem_cons_self)
      (by rw [room, flatMap_singleton, zero_add])
    rw [append_nil, nil_append] at written
    show (F.encodeChar bytes (.index 0) c >>= fun result => encodeLoop F [] result.1 result.2) = _
    rw [show Value.index 0 = .index ([] : Bytevector).length from rfl, written, flatMap_singleton, append_nil]
    rfl
  · rw [length_cons, length_cons] at short
    omega

theorem stringEncoder_unfit (lawful : F.Lawful code after) (unfit : ∃ c ∈ marked bom string, ¬ Encodable c) : ∃ e,
    stringEncoder A F bom caller string none none = .error e := by
  obtain ⟨e, signalled⟩ := @lengthLoop_error F code after lawful _ 0 unfit
  rw [stringEncoder_whole, signalled]
  exact ⟨e, rfl⟩

theorem stringEncoder_stuck (lawful : F.Lawful code fun _ => .unspecific) (long : 2 ≤ (marked bom string).length) : ∃ e,
    stringEncoder A F bom caller string none none = .error e := by
  by_cases fit : ∀ c ∈ marked bom string, Encodable c
  · rw [stringEncoder_whole, lengthLoop_ok lawful fit]
    show ∃ e, encodeLoop F (marked bom string) (A.allocate _) (.index 0) = .error e
    have room := A.length_allocate (0 + ((marked bom string).flatMap code).length)
    generalize marked bom string = characters at fit long room ⊢
    obtain _ | ⟨c, _ | ⟨d, rest⟩⟩ := characters
    · exact absurd long (by decide)
    · exact absurd long (Nat.not_succ_le_self 1)
    · exact encodeLoop_stuck lawful fit (by rw [room, zero_add])
  · obtain ⟨c, unfit⟩ := not_forall.mp fit
    obtain ⟨among, unfit⟩ := Classical.not_imp.mp unfit
    exact stringEncoder_unfit lawful ⟨c, among, unfit⟩

theorem decodeLoop_flatMap (lawful : F.Lawful code after) {replace : Bool} {string builder : List ℕ} {fuel index : ℕ}
    {last : ℕ} (fit : ∀ c ∈ string, Encodable c) (inside : last ≤ bytes.length) (ordered : index ≤ last)
    (here : bytes.drop index = string.flatMap code ++ bytes.drop last) (enough : string.length < fuel) :
    decodeLoop F bytes last replace fuel index builder = .ok (builder ++ string) := by
  induction string generalizing fuel index builder with
  | nil =>
    obtain _ | fuel := fuel
    · exact absurd enough (lt_irrefl 0)
    have size := congrArg length here
    rw [flatMap_nil, nil_append, length_drop, length_drop] at size
    have positive := lawful.step_pos
    unfold decodeLoop
    rw [if_neg (by omega), if_neg (by omega), append_nil]
  | cons c rest ih =>
    obtain _ | fuel := fuel
    · exact absurd enough (Nat.not_lt_zero _)
    have first := fit c mem_cons_self
    have size := congrArg length here
    rw [flatMap_cons, length_append, length_append, length_drop, length_drop] at size
    have step_le := lawful.step_le first
    have positive := lawful.step_pos
    rw [flatMap_cons, append_assoc] at here
    obtain ⟨length, decoded⟩ := lawful.decodes first here
    have next : bytes.drop (index + (code c).length) = rest.flatMap code ++ bytes.drop last := by
      rw [← drop_drop, here, drop_left]
    have char : nextChar F bytes last replace index (code c).length = .ok c := by
      unfold nextChar
      rw [if_pos (by omega), decoded]
      rfl
    unfold decodeLoop
    rw [if_pos (by omega), length]
    show (nextChar F bytes last replace index (code c).length >>= _) = _
    rw [char]
    show decodeLoop F bytes last replace fuel (index + (code c).length) (builder ++ [c]) = _
    rw [ih (fun d among => fit d (mem_cons_of_mem c among)) (by omega) next (by rw [length_cons] at enough; omega),
      append_assoc]
    rfl

theorem decodeLoop_strict (lawful : F.Lawful code after) {last fuel index : ℕ} {builder string : List ℕ}
    (inside : last ≤ bytes.length) (start : index ≤ last)
    (decoded : decodeLoop F bytes last false fuel index builder = .ok string) : ∃ rest, string =
    builder ++ rest ∧ (∀ c ∈ rest, Scalar c) ∧ bytes.drop index = rest.flatMap code ++ bytes.drop last := by
  induction fuel generalizing index builder with
  | zero => cases decoded
  | succ fuel ih =>
    unfold decodeLoop at decoded
    by_cases room : index + F.step ≤ last
    · rw [if_pos room] at decoded
      obtain ⟨n, positive, length, head⟩ := lawful.head (room.trans inside)
      rw [length] at decoded
      change (nextChar F bytes last false index n >>= _) = _ at decoded
      unfold nextChar at decoded
      by_cases whole : index + n ≤ last
      · rw [if_pos whole] at decoded
        obtain ⟨d, read, strict⟩ := head (whole.trans inside)
        rw [read] at decoded
        cases d with
        | none => cases decoded
        | some c =>
          obtain ⟨scalar, here⟩ := strict c rfl
          obtain ⟨rest, same, scalars, later⟩ := ih whole decoded
          refine ⟨c :: rest, by rw [same, append_assoc]; rfl, ?_, ?_⟩
          · exact forall_mem_cons.mpr ⟨scalar, scalars⟩
          · rw [here, later, flatMap_cons, append_assoc]
      · rw [if_neg whole] at decoded
        cases decoded
    · rw [if_neg room] at decoded
      by_cases short : index < last
      · rw [if_pos short] at decoded
        cases decoded
      · rw [if_neg short] at decoded
        cases decoded
        have same : index = last := by omega
        exact ⟨[], (append_nil _).symm, by simp, by rw [same]; rfl⟩

theorem decodeLoop_replaces (lawful : F.Lawful code after) {last fuel index : ℕ}
    {builder : List ℕ} (inside : last ≤ bytes.length) (enough : last ≤ index + fuel) :
    ∃ string, decodeLoop F bytes last true (fuel + 1) index builder = .ok string := by
  induction fuel generalizing index builder with
  | zero =>
    have positive := lawful.step_pos
    unfold decodeLoop
    rw [if_neg (by omega), if_neg (by omega)]
    exact ⟨_, rfl⟩
  | succ fuel ih =>
    unfold decodeLoop
    by_cases room : index + F.step ≤ last
    · rw [if_pos room]
      obtain ⟨n, positive, length, head⟩ := lawful.head (room.trans inside)
      rw [length]
      show ∃ string, (nextChar F bytes last true index n >>= _) = .ok string
      obtain ⟨char, next⟩ : ∃ char, nextChar F bytes last true index n = .ok char := by
        unfold nextChar
        by_cases whole : index + n ≤ last
        · obtain ⟨d, read, -⟩ := head (whole.trans inside)
          rw [if_pos whole, read]
          cases d with
          | none => exact ⟨_, rfl⟩
          | some c => exact ⟨_, rfl⟩
        · rw [if_neg whole]
          exact ⟨_, rfl⟩
      rw [next]
      exact @ih (index + n) (builder ++ [char]) (by omega)
    · rw [if_neg room]
      by_cases short : index < last
      · rw [if_pos short]
        exact ⟨_, rfl⟩
      · rw [if_neg short]
        exact ⟨_, rfl⟩

end

end MitScheme.Runtime.Utf
