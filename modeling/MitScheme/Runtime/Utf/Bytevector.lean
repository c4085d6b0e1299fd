import MitScheme.Library.BitFields
import Mathlib.Data.List.Basic

/-!
The accessors for bytes and for 16-bit and 32-bit units of either endianness. A bytevector is the
list of its bytes; every reference and every assignment checks its index.
-/

namespace MitScheme.Runtime.Utf

open Library List
open UInt8 (ofNat)

/-- What an expression can return where the source goes on to use it as an index. -/
inductive Value where
  | index (n : ℕ)
  | unspecific
deriving DecidableEq, Repr

inductive Error where
  | wrongType (argument : Value) (caller : String)
  | badRange (argument : ℕ) (caller : String)
  | notA (predicate : String) (object : ℕ) (caller : String)
  | simple (message : String) (irritant : List UInt8)
  /-- A loop of the model used up its fuel. -/
  | unfinished
deriving DecidableEq, Repr

abbrev Bytevector := List UInt8

/-- An index operand: a value that is not an index fixnum is of the wrong type. -/
def Value.toIndex (caller : String) : Value → Except Error ℕ
  | .index n => .ok n
  | .unspecific => .error (.wrongType .unspecific caller)

/-- The optional arguments `start` and `end`, with the checks of `fix:end-index` and
`fix:start-index`. -/
def range (length : ℕ) (start stop : Option ℕ) (caller : String) : Except Error (ℕ × ℕ) :=
  let last := stop.getD length
  let first := start.getD 0
  if last ≤ length then
    if first ≤ last then .ok (first, last) else .error (.badRange first caller)
  else .error (.badRange last caller)

/-- `allocate-bytevector`, which leaves the bytes as they are in memory. -/
structure Allocator where
  allocate : ℕ → Bytevector
  length_allocate : ∀ n, (allocate n).length = n

def bytevectorU8Ref (bytes : Bytevector) (index : ℕ) : Except Error ℕ :=
  if h : index < bytes.length then .ok (bytes.get ⟨index, h⟩).toNat
  else .error (.badRange index "bytevector-u8-ref")

def bytevectorU8Set (bytes : Bytevector) (index u8 : ℕ) : Except Error Bytevector :=
  if index < bytes.length then
    if u8 < 256 then .ok (bytes.set index (ofNat u8))
    else .error (.badRange u8 "bytevector-u8-set!")
  else .error (.badRange index "bytevector-u8-set!")

/-- `bytevector-copy`, on arguments in range. -/
def bytevectorCopy (bytes : Bytevector) (start stop : ℕ) : Bytevector := (bytes.take stop).drop start

def bytesToU16be (b0 b1 : ℕ) : ℕ := lsh b0 8 ||| b1
def u16beByte0 (u16 : ℕ) : ℕ := lsh u16 (-8)
def u16beByte1 (u16 : ℕ) : ℕ := u16 &&& 0xFF

def bytesToU16le (b0 b1 : ℕ) : ℕ := b0 ||| lsh b1 8
def u16leByte0 (u16 : ℕ) : ℕ := u16 &&& 0xFF
def u16leByte1 (u16 : ℕ) : ℕ := lsh u16 (-8)

/-- A reader of 16-bit units; both endiannesses check the last index first. -/
def u16Ref (combine : ℕ → ℕ → ℕ) (caller : String) (bytes : Bytevector) (index : ℕ) : Except Error ℕ :=
  if index + 1 < bytes.length then do
    let b0 ← bytevectorU8Ref bytes index
    let b1 ← bytevectorU8Ref bytes (index + 1)
    .ok (combine b0 b1)
  else .error (.badRange index caller)

/-- A writer of 16-bit units; the range error names the reader, as in the source. -/
def u16Set (byte0 byte1 : ℕ → ℕ) (reader caller : String) (bytes : Bytevector) (index u16 : ℕ) :
    Except Error Bytevector :=
  if index + 1 < bytes.length then
    if u16 < 0x10000 then do
      let bytes ← bytevectorU8Set bytes index (byte0 u16)
      bytevectorU8Set bytes (index + 1) (byte1 u16)
    else .error (.notA "u16" u16 caller)
  else .error (.badRange index reader)

def bytevectorU16beRef : Bytevector → ℕ → Except Error ℕ := u16Ref bytesToU16be "bytevector-u16be-ref"
def bytevectorU16leRef : Bytevector → ℕ → Except Error ℕ := u16Ref bytesToU16le "bytevector-u16le-ref"

def bytevectorU16beSet : Bytevector → ℕ → ℕ → Except Error Bytevector :=
  u16Set u16beByte0 u16beByte1 "bytevector-u16be-ref" "bytevector-u16be-set!"

def bytevectorU16leSet : Bytevector → ℕ → ℕ → Except Error Bytevector :=
  u16Set u16leByte0 u16leByte1 "bytevector-u16le-ref" "bytevector-u16le-set!"

def bytesToU32be (b0 b1 b2 b3 : ℕ) : ℕ := (lsh b0 24 ||| lsh b1 16) ||| (lsh b2 8 ||| b3)
def u32beByte0 (u32 : ℕ) : ℕ := lsh u32 (-24)
def u32beByte1 (u32 : ℕ) : ℕ := lsh u32 (-16) &&& 0xFF
def u32beByte2 (u32 : ℕ) : ℕ := lsh u32 (-8) &&& 0xFF
def u32beByte3 (u32 : ℕ) : ℕ := u32 &&& 0xFF

def bytesToU32le (b0 b1 b2 b3 : ℕ) : ℕ := bytesToU32be b3 b2 b1 b0
def u32leByte0 : ℕ → ℕ := u32beByte3
def u32leByte1 : ℕ → ℕ := u32beByte2
def u32leByte2 : ℕ → ℕ := u32beByte1
def u32leByte3 : ℕ → ℕ := u32beByte0

def u32Ref (combine : ℕ → ℕ → ℕ → ℕ → ℕ) (caller : String) (bytes : Bytevector) (index : ℕ) : Except Error ℕ :=
  if index + 3 < bytes.length then do
    let b0 ← bytevectorU8Ref bytes index
    let b1 ← bytevectorU8Ref bytes (index + 1)
    let b2 ← bytevectorU8Ref bytes (index + 2)
    let b3 ← bytevectorU8Ref bytes (index + 3)
    .ok (combine b0 b1 b2 b3)
  else .error (.badRange index caller)

def u32Set (byte0 byte1 byte2 byte3 : ℕ → ℕ) (reader caller : String) (bytes : Bytevector)
    (index u32 : ℕ) : Except Error Bytevector :=
  if index + 3 < bytes.length then
    if u32 ≤ 0xFFFFFFFF then do
      let bytes ← bytevectorU8Set bytes index (byte0 u32)
      let bytes ← bytevectorU8Set bytes (index + 1) (byte1 u32)
      let bytes ← bytevectorU8Set bytes (index + 2) (byte2 u32)
      bytevectorU8Set bytes (index + 3) (byte3 u32)
    else .error (.notA "u32" u32 caller)
  else .error (.badRange index reader)

def bytevectorU32beRef : Bytevector → ℕ → Except Error ℕ := u32Ref bytesToU32be "bytevector-u32be-ref"
def bytevectorU32leRef : Bytevector → ℕ → Except Error ℕ := u32Ref bytesToU32le "bytevector-u32le-ref"

def bytevectorU32beSet : Bytevector → ℕ → ℕ → Except Error Bytevector :=
  u32Set u32beByte0 u32beByte1 u32beByte2 u32beByte3 "bytevector-u32be-ref" "bytevector-u32be-set!"

def bytevectorU32leSet : Bytevector → ℕ → ℕ → Except Error Bytevector :=
  u32Set u32leByte0 u32leByte1 u32leByte2 u32leByte3 "bytevector-u32le-ref" "bytevector-u32le-set!"

theorem range_of_le {length : ℕ} {start stop : Option ℕ} {caller : String} (ordered : start.getD 0 ≤ stop.getD length)
    (inside : stop.getD length ≤ length) : range length start stop caller = .ok (start.getD 0, stop.getD length) := by
  unfold range
  rw [if_pos inside, if_pos ordered]

theorem byte_lt (b : UInt8) : b.toNat < 256 := b.toNat_lt

theorem bytevectorU8Ref_at {bytes : Bytevector} {index k : ℕ} {b : UInt8}
    (here : (bytes.drop index)[k]? = some b) : bytevectorU8Ref bytes (index + k) = .ok b.toNat := by
  rw [getElem?_drop] at here
  obtain ⟨inside, at_index⟩ := List.getElem?_eq_some_iff.mp here
  unfold bytevectorU8Ref
  rw [dif_pos inside]
  show Except.ok (bytes[index + k]).toNat = _
  rw [at_index]

theorem bytevectorU8Ref_window {bytes : Bytevector} {start stop k : ℕ} {b : UInt8}
    (here : ((bytes.take stop).drop start)[k]? = some b) : bytevectorU8Ref bytes (start + k) = .ok b.toNat := by
  rw [getElem?_drop, getElem?_take] at here
  split at here
  · exact bytevectorU8Ref_at (by rw [getElem?_drop]; exact here)
  · cases here

variable {bytes : Bytevector} {index n : ℕ}

theorem bytevectorU8Ref_inside (inside : index < bytes.length) : ∃ n, bytevectorU8Ref bytes index = .ok n := by
  unfold bytevectorU8Ref
  rw [dif_pos inside]
  exact ⟨_, rfl⟩

/-- Bytes are set one after the other before the rest of a procedure. -/
def setBytes {α : Type} (next : Bytevector → Except Error α) : List ℕ → Bytevector → ℕ → Except Error α
  | [], bytes, _ => next bytes
  | u8 :: u8s, bytes, index => do
    let bytes ← bytevectorU8Set bytes index u8
    setBytes next u8s bytes (index + 1)

theorem setBytes_at {α : Type} {next : Bytevector → Except Error α} {u8s : List ℕ} {pre mid post : Bytevector}
    (length : mid.length = u8s.length) (small : ∀ u8 ∈ u8s, u8 < 256) :
    setBytes next u8s (pre ++ mid ++ post) pre.length = next (pre ++ u8s.map ofNat ++ post) := by
  induction u8s generalizing pre mid with
  | nil => rw [length_eq_zero_iff.mp length, setBytes, map_nil]
  | cons u8 u8s ih =>
    obtain ⟨small0, small'⟩ := forall_mem_cons.mp small
    obtain ⟨m, mid, rfl⟩ := exists_cons_of_length_eq_add_one length
    have first : bytevectorU8Set (pre ++ m :: mid ++ post) pre.length u8 =
        .ok (pre ++ [.ofNat u8] ++ mid ++ post) := by
      unfold bytevectorU8Set
      rw [if_pos small0]
      simp
    have others := @ih (pre ++ [ofNat u8]) mid (Nat.succ.inj length) small'
    rw [length_append, append_assoc pre [_] (u8s.map _)] at others
    rw [setBytes, first]
    exact others

theorem bytevectorU8Set_byte {b : UInt8} (inside : index < bytes.length) :
    bytevectorU8Set bytes index b.toNat = .ok (bytes.set index b) := by
  unfold bytevectorU8Set
  rw [if_pos inside, if_pos (byte_lt b), UInt8.ofNat_toNat]

structure Units (width limit : ℕ) (getter : Bytevector → ℕ → Except Error ℕ)
    (setter : Bytevector → ℕ → ℕ → Except Error Bytevector) (unit : ℕ → Bytevector) : Prop where
  length : ∀ n, (unit n).length = width
  sets : ∀ {n : ℕ} {pre mid post : Bytevector}, n < limit → mid.length = width →
    setter (pre ++ mid ++ post) pre.length n = .ok (pre ++ unit n ++ post)
  reads : ∀ {n : ℕ} {bytes rest : Bytevector} {index : ℕ}, n < limit →
    bytes.drop index = unit n ++ rest → getter bytes index = .ok n
  covers : ∀ {bytes : Bytevector} {index : ℕ}, index + width ≤ bytes.length →
    ∃ n < limit, bytes.drop index = unit n ++ bytes.drop (index + width)

theorem u16Ref_reads {combine : ℕ → ℕ → ℕ} {caller : String} {bytes rest : Bytevector}
    {b0 b1 : UInt8} (here : bytes.drop index = b0 :: b1 :: rest) :
    u16Ref combine caller bytes index = .ok (combine b0.toNat b1.toNat) := by
  have inside := congrArg length here
  rw [length_drop, length_cons, length_cons] at inside
  have first := @bytevectorU8Ref_at bytes index 0 b0 (by rw [here]; rfl)
  have second := @bytevectorU8Ref_at bytes index 1 b1 (by rw [here]; rfl)
  unfold u16Ref
  rw [if_pos (by omega), show index = index + 0 from rfl, first, second]
  rfl

theorem u32Ref_reads {combine : ℕ → ℕ → ℕ → ℕ → ℕ} {caller : String} {bytes rest : Bytevector}
    {b0 b1 b2 b3 : UInt8} (here : bytes.drop index = b0 :: b1 :: b2 :: b3 :: rest) :
    u32Ref combine caller bytes index = .ok (combine b0.toNat b1.toNat b2.toNat b3.toNat) := by
  have inside := congrArg length here
  simp only [length_drop, length_cons] at inside
  have first := @bytevectorU8Ref_at bytes index 0 b0 (by rw [here]; rfl)
  have second := @bytevectorU8Ref_at bytes index 1 b1 (by rw [here]; rfl)
  have third := @bytevectorU8Ref_at bytes index 2 b2 (by rw [here]; rfl)
  have fourth := @bytevectorU8Ref_at bytes index 3 b3 (by rw [here]; rfl)
  unfold u32Ref
  rw [if_pos (by omega), show index = index + 0 from rfl, first, second, third, fourth]
  rfl

theorem drop_split {index width : ℕ} (inside : index + width ≤ bytes.length) :
    ∃ first, first.length = width ∧ bytes.drop index = first ++ bytes.drop (index + width) := by
  refine ⟨(bytes.drop index).take width, ?_, ?_⟩
  · rw [length_take, length_drop]
    omega
  · rw [← drop_drop]
    exact (take_append_drop width _).symm

theorem bytesToU16be_eq {b0 b1 : ℕ} (small : b1 < 256) : bytesToU16be b0 b1 = b0 * 256 + b1 := by
  show b0 <<< 8 ||| b1 = _
  rw [Nat.shiftLeft_eq]
  exact lor_add b0 b1 8 small

theorem bytesToU16le_eq {b0 b1 : ℕ} (small : b0 < 256) : bytesToU16le b0 b1 = b1 * 256 + b0 := by
  rw [← bytesToU16be_eq small]
  exact Nat.or_comm ..

theorem bytesToU32be_eq {b0 b1 b2 b3 : ℕ} (small1 : b1 < 256) (small2 : b2 < 256) (small3 : b3 < 256) :
    bytesToU32be b0 b1 b2 b3 = ((b0 * 256 + b1) * 256 + b2) * 256 + b3 := by
  have high : b0 <<< 24 ||| b1 <<< 16 = (b0 * 256 + b1) * 2 ^ 16 := by
    rw [Nat.shiftLeft_eq, Nat.shiftLeft_eq, lor_add b0 (b1 * 2 ^ 16) 24 (by omega)]
    omega
  have low : b2 <<< 8 ||| b3 = b2 * 256 + b3 := bytesToU16be_eq small3
  show (b0 <<< 24 ||| b1 <<< 16) ||| (b2 <<< 8 ||| b3) = _
  rw [high, lor_add _ _ 16 (by omega)]
  omega

def unit16be (n : ℕ) : Bytevector := [ofNat (n / 256), ofNat (n % 256)]

def unit16le (n : ℕ) : Bytevector := [ofNat (n % 256), ofNat (n / 256)]

def unit32be (n : ℕ) : Bytevector :=
  [ofNat (n / 2 ^ 24), ofNat (n / 2 ^ 16 % 256), ofNat (n / 2 ^ 8 % 256), ofNat (n % 256)]

def unit32le (n : ℕ) : Bytevector :=
  [ofNat (n % 256), ofNat (n / 2 ^ 8 % 256), ofNat (n / 2 ^ 16 % 256), ofNat (n / 2 ^ 24)]

theorem toNat_ofNat_small {n : ℕ} (small : n < 256) : (ofNat n).toNat = n := by
  exact Nat.mod_eq_of_lt small

theorem ofNat_toNat_eq {b : UInt8} (same : n = b.toNat) : ofNat n = b := by
  rw [same, UInt8.ofNat_toNat]

/-- A unit is given by its bytes as numbers and what they make together. -/
theorem units_of {width limit : ℕ} {getter : Bytevector → ℕ → Except Error ℕ}
    {setter : Bytevector → ℕ → ℕ → Except Error Bytevector} {u8s : ℕ → List ℕ} {combine : Bytevector → ℕ}
    (length : ∀ n, (u8s n).length = width) (small : ∀ {n}, n < limit → ∀ u8 ∈ u8s n, u8 < 256)
    (combines : ∀ {n}, n < limit → combine ((u8s n).map ofNat) = n)
    (parts : ∀ {bs}, bs.length = width → combine bs < limit ∧ u8s (combine bs) = bs.map UInt8.toNat)
    (sets : ∀ {bytes index n}, n < limit → index + width ≤ bytes.length →
      setter bytes index n = setBytes pure (u8s n) bytes index)
    (reads : ∀ {bytes bs rest index}, bs.length = width → bytes.drop index = bs ++ rest →
      getter bytes index = .ok (combine bs)) : Units width limit getter setter fun n => (u8s n).map ofNat where
  length n := by rw [length_map, length]
  sets {n pre mid post} below size := by
    rw [sets below (by simp; omega), setBytes_at (size.trans (length n).symm) (small below)]
    rfl
  reads {n bytes rest index} below here := by rw [reads (by rw [length_map, length]) here, combines below]
  covers {bytes index} inside := by
    obtain ⟨bs, size, here⟩ := drop_split inside
    obtain ⟨below, same⟩ := parts size
    refine ⟨_, below, ?_⟩
    have back : (bs.map UInt8.toNat).map ofNat = bs := by simp [Function.comp_def]
    rw [same, back]
    exact here

theorem units16be : Units 2 0x10000 bytevectorU16beRef bytevectorU16beSet unit16be := by
  refine @units_of 2 _ _ _ (fun n => [n / 256, n % 256]) (foldl (fun n b => n * 256 + b.toNat) 0)
    (fun _ => rfl) (by simp; omega) (by simp; omega) ?_ ?_ ?_
  · intro bs two
    obtain ⟨b0, b1, rfl⟩ := length_eq_two.mp two
    have small0 := byte_lt b0
    have small1 := byte_lt b1
    simp
    omega
  · intro bytes index n below room
    have byte0 : u16beByte0 n = n / 256 := lsh_right n 8
    have byte1 : u16beByte1 n = n % 256 := land_ones n 8
    simp [bytevectorU16beSet, u16Set, setBytes, below, byte0, byte1]
    omega
  · intro bytes bs rest index two here
    obtain ⟨b0, b1, rfl⟩ := length_eq_two.mp two
    refine (u16Ref_reads here).trans (congrArg Except.ok ?_)
    simp [bytesToU16be_eq (byte_lt b1)]

theorem units16le : Units 2 0x10000 bytevectorU16leRef bytevectorU16leSet unit16le := by
  refine @units_of 2 _ _ _ (fun n => [n % 256, n / 256]) (foldr (fun b n => n * 256 + b.toNat) 0)
    (fun _ => rfl) (by simp; omega) (by simp; omega) ?_ ?_ ?_
  · intro bs two
    obtain ⟨b0, b1, rfl⟩ := length_eq_two.mp two
    have small0 := byte_lt b0
    have small1 := byte_lt b1
    simp
    omega
  · intro bytes index n below room
    have byte0 : u16leByte0 n = n % 256 := land_ones n 8
    have byte1 : u16leByte1 n = n / 256 := lsh_right n 8
    simp [bytevectorU16leSet, u16Set, setBytes, below, byte0, byte1]
    omega
  · intro bytes bs rest index two here
    obtain ⟨b0, b1, rfl⟩ := length_eq_two.mp two
    refine (u16Ref_reads here).trans (congrArg Except.ok ?_)
    simp [bytesToU16le_eq (byte_lt b0)]

theorem lsh_byte (n k : ℕ) : lsh n (-k) &&& 0xFF = n / 2 ^ k % 256 := by
  rw [lsh_right]
  exact land_ones _ 8

theorem u32beBytes_eq (n : ℕ) : u32beByte0 n = n / 2 ^ 24 ∧ u32beByte1 n = n / 2 ^ 16 % 256 ∧
    u32beByte2 n = n / 2 ^ 8 % 256 ∧ u32beByte3 n = n % 256 :=
  ⟨lsh_right n 24, lsh_byte n 16, lsh_byte n 8, land_ones n 8⟩

theorem units32be : Units 4 0x100000000 bytevectorU32beRef bytevectorU32beSet unit32be := by
  refine @units_of 4 _ _ _ (fun n => [n / 2 ^ 24, n / 2 ^ 16 % 256, n / 2 ^ 8 % 256, n % 256])
    (foldl (fun n b => n * 256 + b.toNat) 0) (fun _ => rfl) (by simp; omega) (by simp; omega) ?_ ?_ ?_
  · intro bs four
    obtain ⟨b0, b1, b2, b3, rfl⟩ := length_eq_four.mp four
    have small0 := byte_lt b0
    have small1 := byte_lt b1
    have small2 := byte_lt b2
    have small3 := byte_lt b3
    simp
    omega
  · intro bytes index n below room
    have u8s := u32beBytes_eq n
    simp [bytevectorU32beSet, u32Set, setBytes, Nat.le_of_lt_succ below, u8s]
    omega
  · intro bytes bs rest index four here
    obtain ⟨b0, b1, b2, b3, rfl⟩ := length_eq_four.mp four
    refine (u32Ref_reads here).trans (congrArg Except.ok ?_)
    rw [bytesToU32be_eq (byte_lt b1) (byte_lt b2) (byte_lt b3)]
    simp

theorem units32le : Units 4 0x100000000 bytevectorU32leRef bytevectorU32leSet unit32le := by
  refine @units_of 4 _ _ _ (fun n => [n % 256, n / 2 ^ 8 % 256, n / 2 ^ 16 % 256, n / 2 ^ 24])
    (foldr (fun b n => n * 256 + b.toNat) 0) (fun _ => rfl) (by simp; omega) (by simp; omega) ?_ ?_ ?_
  · intro bs four
    obtain ⟨b0, b1, b2, b3, rfl⟩ := length_eq_four.mp four
    have small0 := byte_lt b0
    have small1 := byte_lt b1
    have small2 := byte_lt b2
    have small3 := byte_lt b3
    simp
    omega
  · intro bytes index n below room
    have u8s := u32beBytes_eq n
    simp [bytevectorU32leSet, u32Set, setBytes, u32leByte0, u32leByte1, u32leByte2, u32leByte3, Nat.le_of_lt_succ below, u8s]
    omega
  · intro bytes bs rest index four here
    obtain ⟨b0, b1, b2, b3, rfl⟩ := length_eq_four.mp four
    refine (u32Ref_reads here).trans (congrArg Except.ok ?_)
    rw [bytesToU32le, bytesToU32be_eq (byte_lt b2) (byte_lt b1) (byte_lt b0)]
    simp

end MitScheme.Runtime.Utf
