import MitScheme.Microcode.Bignum.Representation

/-!
The test whether a bignum fits in a word, and the conversions to words that rely on it. Bit counts
and lengths are held in `unsigned int`; a failed assertion or a shift out of range is `none`.
-/

namespace MitScheme.Microcode.Bignum

open Library Nat

def bitsToDigits (n : Nat) : Nat := (n + (digitLength - 1)) / digitLength

/-- Conversion to `unsigned int`. -/
def unsignedInt (n : Nat) : Nat := n % 2 ^ 32

/-- `1UL << count` -/
def oneShifted (count : Int) : Option Nat := if 0 ≤ count ∧ count < 64 then some (2 ^ count.toNat) else none

def magnitudeBits (wordLength : Nat) (twosComplement : Bool) : Nat := if twosComplement then wordLength - 1 else wordLength

def fitsInWordP (x : Bignum) (wordLength : Nat) (twosComplement : Bool) : Option Bool :=
  if !twosComplement && x.negative then some false
  else
    let nBits := unsignedInt (magnitudeBits wordLength twosComplement)
    if nBits = 0 then none
    else
      let length := x.digits.length
      let maxDigits := bitsToDigits nBits
      if unsignedInt length < maxDigits then some true
      else if unsignedInt length > maxDigits then some false
      else do
        let msd ← x.digits[length - 1]?
        let max ← oneShifted (nBits - (length - 1) * digitLength)
        return decide (msd < max) || (twosComplement && decide (msd = max) && x.negative)

def accumulateDigits (digits : List Nat) : BitVec 64 :=
  digits.foldr (fun digit accumulator => accumulator <<< digitLength + BitVec.ofNat 64 digit) 0

/-- The cast to a signed word and the negation keep the bits of the word, also for the least word. -/
def bignumToLong (x : Bignum) : Int :=
  if x.digits = [] then 0
  else if x.negative then (-accumulateDigits x.digits).toInt else (accumulateDigits x.digits).toInt

/-- The same macro as `bignum_to_long`, for a type of the same length. -/
def bignumToIntmax (x : Bignum) : Int := bignumToLong x

def bignumToUlong (x : Bignum) : Option Nat :=
  if x.digits = [] then some 0 else if x.negative then none else some (accumulateDigits x.digits).toNat

/-- An exact integer is a fixnum of 58 bits or a normalized bignum. -/
inductive Integer where
  | fixnum (n : Int) (range : -2 ^ 57 ≤ n ∧ n < 2 ^ 57)
  | bignum (x : Bignum) (normalized : x.Normalized)

namespace Integer

def value : Integer → Int
  | fixnum n _ => n
  | bignum x _ => x.toInt

def integerToLongP : Integer → Option Bool
  | fixnum _ _ => some true
  | bignum x _ => fitsInWordP x 64 true

def integerToLong : Integer → Int
  | fixnum n _ => n
  | bignum x _ => bignumToLong x

def integerToIntmaxP : Integer → Option Bool
  | fixnum _ _ => some true
  | bignum x _ => fitsInWordP x 64 true

def integerToIntmax : Integer → Int
  | fixnum n _ => n
  | bignum x _ => bignumToIntmax x

def integerToUlongP : Integer → Option Bool
  | fixnum n _ => some (!decide (n < 0))
  | bignum x _ => fitsInWordP x 64 false

def integerToUlong : Integer → Option Nat
  | fixnum n _ => some (n % 2 ^ 64).toNat
  | bignum x _ => bignumToUlong x

end Integer

def InWord (n : Int) (wordLength : Nat) (twosComplement : Bool) : Prop :=
  if twosComplement then -2 ^ (wordLength - 1) ≤ n ∧ n < 2 ^ (wordLength - 1) else 0 ≤ n ∧ n < 2 ^ wordLength

instance (n : Int) (wordLength : Nat) (twosComplement : Bool) : Decidable (InWord n wordLength twosComplement) := by
  unfold InWord
  infer_instance

def JudgedRight (x : Bignum) (wordLength : Nat) (twosComplement : Bool) : Prop :=
  fitsInWordP x wordLength twosComplement = some (decide (InWord x.toInt wordLength twosComplement))

/-- Numbers below the range whose leading digit is that of the least number of `n` bits and a sign, and that number itself
where it needs a digit more. -/
def Misleading (value : Int) (n : Nat) : Prop :=
  (¬digitLength ∣ n ∧ -(2 ^ n + (radix : Int) ^ (bitsToDigits n - 1)) < value ∧ value < -2 ^ n) ∨ (digitLength ∣ n ∧ value = -2 ^ n)

/-- When the answer is right. A length of 2^32 digits or more is cut off. -/
def Judgeable (x : Bignum) (wordLength : Nat) (twosComplement : Bool) : Prop :=
  if x.digits.length < 2 ^ 32 then twosComplement = true → ¬Misleading x.toInt (wordLength - 1)
  else (twosComplement = false ∧ x.negative = true) ∨
    bitsToDigits (magnitudeBits wordLength twosComplement) < unsignedInt x.digits.length

variable {x : Bignum} {n wordLength : Nat} {twosComplement : Bool}

theorem bitsToDigits_bounds (positive : 0 < n) :
    1 ≤ bitsToDigits n ∧ (bitsToDigits n - 1) * digitLength < n ∧ n ≤ bitsToDigits n * digitLength := by
  have length : digitLength = 62 := rfl
  rw [bitsToDigits, length]
  omega

theorem radix_pow (k : Nat) : radix ^ k = 2 ^ (k * digitLength) := by rw [radix, ← pow_mul, mul_comm]

theorem unsignedInt_of_lt (small : n < 2 ^ 32) : unsignedInt n = n := mod_eq_of_lt small

theorem inWord_iff (normalized : x.Normalized) :
    InWord x.toInt wordLength twosComplement ↔
      if x.negative then twosComplement = true ∧ x.magnitude ≤ 2 ^ magnitudeBits wordLength twosComplement
      else x.magnitude < 2 ^ magnitudeBits wordLength twosComplement := by
  have cast (k : Nat) : ((2 ^ k : Nat) : Int) = 2 ^ k := by rfl
  cases sign : x.negative with
  | false =>
    rw [toInt_of_nonnegative sign, InWord, magnitudeBits, if_neg Bool.false_ne_true]
    cases twosComplement with
    | false =>
      simp only [Bool.false_eq_true, if_false]
      rw [← cast]
      omega
    | true =>
      simp only [if_true]
      rw [← cast]
      omega
  | true =>
    have negative := normalized.negative_iff.mp sign
    rw [toInt_of_negative sign] at negative ⊢
    rw [InWord, magnitudeBits, if_pos rfl]
    cases twosComplement with
    | false =>
      simp only [Bool.false_eq_true, if_false, false_and, iff_false]
      omega
    | true =>
      simp only [if_true, true_and]
      rw [← cast]
      omega

theorem lt_mul_iff {low msd r s : Nat} (small : low < r) : low + r * msd < r * s ↔ msd < s := by
  constructor
  · intro less
    by_contra large
    have product : r * s ≤ r * msd := mul_le_mul_left r (not_lt.mp large)
    omega
  · intro less
    have product : r * (msd + 1) ≤ r * s := mul_le_mul_left r less
    rw [mul_succ] at product
    omega

theorem two_pow_eq (positive : 0 < n) :
    2 ^ n = radix ^ (bitsToDigits n - 1) * 2 ^ (n - (bitsToDigits n - 1) * digitLength) := by
  obtain ⟨-, below, -⟩ := bitsToDigits_bounds positive
  rw [radix_pow, ← pow_add]
  congr 1
  omega

theorem two_pow_add_le (positive : 0 < n) (partly : ¬digitLength ∣ n) :
    2 ^ n + radix ^ (bitsToDigits n - 1) ≤ radix ^ bitsToDigits n := by
  obtain ⟨one, below, above⟩ := bitsToDigits_bounds positive
  have strict : n < bitsToDigits n * digitLength := by
    refine lt_of_le_of_ne above fun same => partly ?_
    exact ⟨_, same.trans (mul_comm _ _)⟩
  obtain ⟨k, whole⟩ : ∃ k, bitsToDigits n * digitLength = k + 1 := ⟨_, (succ_pred_eq_of_pos (by omega)).symm⟩
  have low : radix ^ (bitsToDigits n - 1) ≤ 2 ^ k := by
    rw [radix_pow]
    exact Nat.pow_le_pow_right (by decide) (by omega)
  have high : 2 ^ n ≤ 2 ^ k := Nat.pow_le_pow_right (by decide) (by omega)
  rw [radix_pow (bitsToDigits n), whole]
  omega

def Accepts (x : Bignum) (n : Nat) (twosComplement : Bool) : Prop :=
  x.magnitude < 2 ^ n ∨ (twosComplement = true ∧ x.negative = true ∧ ¬digitLength ∣ n ∧
    x.magnitude < 2 ^ n + radix ^ (bitsToDigits n - 1))

instance : Decidable (Accepts x n twosComplement) := by
  unfold Accepts
  infer_instance

theorem accepts_of_same_length (twosComplement : Bool) (normalized : x.Normalized) (positive : 0 < n)
    (same : x.digits.length = bitsToDigits n) :
    ∃ msd, x.digits[x.digits.length - 1]? = some msd ∧
      (Accepts x n twosComplement ↔
        msd < 2 ^ (n - (x.digits.length - 1) * digitLength) ∨
          twosComplement = true ∧ msd = 2 ^ (n - (x.digits.length - 1) * digitLength) ∧ x.negative = true) := by
  obtain ⟨one, below, above⟩ := bitsToDigits_bounds positive
  have nonempty : x.digits ≠ [] := by
    intro empty
    rw [empty] at same
    simp at same
    omega
  obtain ⟨init, msd, split⟩ := List.eq_nil_or_concat x.digits |>.resolve_left nonempty
  rw [List.concat_eq_append] at split
  have length : x.digits.length = init.length + 1 := by rw [split]; simp
  have init_length : init.length = bitsToDigits n - 1 := by omega
  have digits := normalized.digits
  rw [split] at digits
  have small : ofDigits radix init < radix ^ (bitsToDigits n - 1) :=
    init_length ▸ ofDigits_lt_base_pow_length one_lt_radix fun d member => digits d (List.mem_append_left _ member)
  have msd_small : msd < radix := digits msd (by simp)
  have magnitude : x.magnitude = ofDigits radix init + radix ^ (bitsToDigits n - 1) * msd := by
    rw [Bignum.magnitude, split, ofDigits_append, ofDigits_singleton, init_length]
  refine ⟨msd, by rw [length, split]; simp, ?_⟩
  have lengths : x.digits.length - 1 = bitsToDigits n - 1 := by omega
  rw [Accepts, magnitude, lengths, two_pow_eq positive, lt_mul_iff small, ← mul_succ, lt_mul_iff small, Nat.lt_succ_iff]
  by_cases whole : digitLength ∣ n
  · have bits : n - (bitsToDigits n - 1) * digitLength = digitLength := by
      obtain ⟨k, multiple⟩ := whole
      have length : digitLength = 62 := rfl
      rw [length] at multiple
      rw [bitsToDigits, length]
      omega
    have less : msd < 2 ^ (n - (bitsToDigits n - 1) * digitLength) := by
      rw [bits]
      exact msd_small
    simp [less]
  · rw [le_iff_lt_or_eq]
    tauto

theorem fitsInWordP_eq (normalized : x.Normalized) (sign : twosComplement = true ∨ x.negative = false)
    (bits : magnitudeBits wordLength twosComplement = n) (positive : 0 < n) (small : n < 2 ^ 32)
    (short : x.digits.length < 2 ^ 32) :
    fitsInWordP x wordLength twosComplement = some (decide (Accepts x n twosComplement)) := by
  obtain ⟨one, below, above⟩ := bitsToDigits_bounds positive
  have unsigned : (!twosComplement && x.negative) = false := by
    rcases sign with complement | nonnegative
    · rw [complement]
      rfl
    · rw [nonnegative, Bool.and_false]
  rw [fitsInWordP, unsigned, if_neg Bool.false_ne_true, bits]
  dsimp only
  rw [unsignedInt_of_lt small, unsignedInt_of_lt short, if_neg (by omega)]
  rcases lt_trichotomy x.digits.length (bitsToDigits n) with shorter | same | longer
  · rw [if_pos shorter]
    have less : x.magnitude < 2 ^ n := by
      calc x.magnitude < radix ^ (bitsToDigits n - 1) := normalized.length_le_iff.mp (by omega)
        _ ≤ 2 ^ n := by
          rw [radix_pow]
          exact Nat.pow_le_pow_right (by decide) below.le
    simp [Accepts, less]
  · obtain ⟨msd, held, accepts⟩ := accepts_of_same_length twosComplement normalized positive same
    have shift : oneShifted ((n : Int) - ((x.digits.length - 1 : Nat) * digitLength : Nat)) =
        some (2 ^ (n - (x.digits.length - 1) * digitLength)) := by
      have length : digitLength = 62 := rfl
      rw [length] at below above
      rw [oneShifted, if_pos]
      · congr 2
        omega
      · rw [length]
        omega
    rw [if_neg (by omega), if_neg (by omega), held]
    have cast : (n : Int) - ((x.digits.length : Int) - 1) * digitLength =
        (n : Int) - ((x.digits.length - 1 : Nat) * digitLength : Nat) := by
      have positive : 1 ≤ x.digits.length := by omega
      push_cast [positive]
      rfl
    rw [cast, shift]
    simp [accepts, Bool.and_assoc]
  · rw [if_neg (by omega), if_pos longer]
    have large := normalized.pow_le_magnitude longer
    have bits_le : 2 ^ n ≤ radix ^ bitsToDigits n := by
      rw [radix_pow]
      exact Nat.pow_le_pow_right (by decide) above
    have rejects : ¬Accepts x n twosComplement := by
      rintro (less | ⟨-, -, partly, less⟩)
      · omega
      · have room := two_pow_add_le positive partly
        omega
    simp [rejects]

theorem misleading_iff (sign : x.negative = true) :
    Misleading x.toInt n ↔
      (¬digitLength ∣ n ∧ x.magnitude < 2 ^ n + radix ^ (bitsToDigits n - 1) ∧ 2 ^ n < x.magnitude) ∨
        (digitLength ∣ n ∧ x.magnitude = 2 ^ n) := by
  have power : ((2 ^ n : Nat) : Int) = 2 ^ n := by rfl
  have rest : ((radix ^ (bitsToDigits n - 1) : Nat) : Int) = (radix : Int) ^ (bitsToDigits n - 1) := by rfl
  rw [Misleading, toInt_of_negative sign]
  omega

theorem not_misleading (sign : x.negative = false) : ¬Misleading x.toInt n := by
  have power : (0 : Int) < 2 ^ n := by positivity
  rw [Misleading, toInt_of_nonnegative sign]
  omega

theorem judgedRight_of_short (normalized : x.Normalized) (sign : twosComplement = true ∨ x.negative = false)
    (positive : 0 < magnitudeBits wordLength twosComplement) (small : magnitudeBits wordLength twosComplement < 2 ^ 32)
    (short : x.digits.length < 2 ^ 32) :
    JudgedRight x wordLength twosComplement ↔ (twosComplement = true → ¬Misleading x.toInt (wordLength - 1)) := by
  rw [JudgedRight, fitsInWordP_eq normalized sign rfl positive small short, Option.some_inj, decide_eq_decide,
    inWord_iff normalized, Accepts]
  cases negative : x.negative with
  | false => simp [not_misleading negative]
  | true =>
    obtain rfl : twosComplement = true := sign.resolve_right (by simp [negative])
    rw [misleading_iff negative]
    have room : 0 < radix ^ (bitsToDigits (wordLength - 1) - 1) := Nat.pow_pos (by decide)
    simp only [magnitudeBits, if_true, true_and, forall_const]
    by_cases whole : digitLength ∣ wordLength - 1
    · omega
    · omega

theorem judgedRight_of_long (normalized : x.Normalized) (sign : twosComplement = true ∨ x.negative = false)
    (positive : 0 < magnitudeBits wordLength twosComplement) (small : magnitudeBits wordLength twosComplement < 2 ^ 32)
    (long : 2 ^ 32 ≤ x.digits.length) : JudgedRight x wordLength twosComplement ↔
    bitsToDigits (magnitudeBits wordLength twosComplement) < unsignedInt x.digits.length := by
  obtain ⟨n, bits⟩ : ∃ n, magnitudeBits wordLength twosComplement = n := ⟨_, rfl⟩
  rw [bits] at positive small ⊢
  have length : digitLength = 62 := rfl
  have large : 2 ^ n < x.magnitude := by
    refine lt_of_lt_of_le ?_ (normalized.pow_le_magnitude (sub_one_lt_of_lt long))
    rw [radix_pow, length]
    exact Nat.pow_lt_pow_right (by decide) (by omega)
  have outside : ¬InWord x.toInt wordLength twosComplement := by
    rw [inWord_iff normalized, bits]
    split
    · exact fun within => absurd within.2 (large.not_ge)
    · exact fun within => absurd within (lt_asymm large)
  have unsigned : (!twosComplement && x.negative) = false := by
    rcases sign with complement | nonnegative
    · rw [complement]
      rfl
    · rw [nonnegative, Bool.and_false]
  rw [JudgedRight, fitsInWordP, unsigned, if_neg Bool.false_ne_true, bits]
  rw [unsignedInt_of_lt small, if_neg (by omega), decide_eq_false outside]
  rcases lt_trichotomy (unsignedInt x.digits.length) (bitsToDigits n) with shorter | same | longer
  · rw [if_pos shorter]
    simp [lt_asymm shorter]
  · have shift : oneShifted ((n : Int) - ((x.digits.length : Int) - 1) * digitLength) = none := by
      rw [oneShifted, if_neg]
      rw [length]
      omega
    rw [if_neg (by omega), shift]
    simp
  · rw [if_neg (by omega)]
    simp [longer]

theorem judgedRight_iff (normalized : x.Normalized) (two : 2 ≤ wordLength)
    (small : magnitudeBits wordLength twosComplement < 2 ^ 32) :
    JudgedRight x wordLength twosComplement ↔ Judgeable x wordLength twosComplement := by
  have positive : 0 < magnitudeBits wordLength twosComplement := by
    unfold magnitudeBits
    split <;> omega
  by_cases sign : twosComplement = true ∨ x.negative = false
  · unfold Judgeable
    split
    · next short => exact judgedRight_of_short normalized sign positive small short
    · next long =>
      rw [judgedRight_of_long normalized sign positive small (not_lt.mp long)]
      have signed : ¬(twosComplement = false ∧ x.negative = true) := by
        rintro ⟨rfl, negative⟩
        rw [negative] at sign
        simp at sign
      simp [signed]
  · rw [not_or, Bool.not_eq_true, Bool.not_eq_false] at sign
    obtain ⟨rfl, negative⟩ := sign
    have outside : ¬InWord x.toInt wordLength false := by
      rw [inWord_iff normalized, negative]
      simp
    have right : JudgedRight x wordLength false := by
      rw [JudgedRight, decide_eq_false outside, fitsInWordP, negative]
      rfl
    have judgeable : Judgeable x wordLength false := by
      unfold Judgeable
      split
      · exact fun twos => absurd twos Bool.false_ne_true
      · exact .inl ⟨rfl, negative⟩
    exact iff_of_true right judgeable

theorem exists_misjudged (large : 2 ^ 32 ≤ magnitudeBits wordLength twosComplement) :
    ∃ x : Bignum, x.Normalized ∧ ¬JudgedRight x wordLength twosComplement := by
  by_cases zero : unsignedInt (magnitudeBits wordLength twosComplement) = 0
  · refine ⟨makeOne false, (represents_makeOne false).normalized, ?_⟩
    rw [JudgedRight, fitsInWordP, if_neg (by simp [makeOne])]
    rw [if_pos zero]
    simp
  · obtain ⟨n, bits⟩ : ∃ n, unsignedInt (magnitudeBits wordLength twosComplement) = n := ⟨_, rfl⟩
    rw [bits] at zero
    have below : n < 2 ^ 32 := bits ▸ mod_lt _ (by decide)
    have digits_small : bitsToDigits n * digitLength < n + digitLength := by
      have length : digitLength = 62 := rfl
      rw [bitsToDigits, length]
      omega
    have length : digitLength = 62 := rfl
    let x : Bignum := { negative := false, digits := List.replicate (bitsToDigits n) 0 ++ [1] }
    have normalized : x.Normalized := by
      refine ⟨fun d member => ?_, by simp [x], by simp [x]⟩
      rcases List.mem_append.mp member with zeros | one
      · rw [List.eq_of_mem_replicate zeros]
        decide
      · rw [List.mem_singleton.mp one]
        decide
    have size : x.digits.length = bitsToDigits n + 1 := by simp [x]
    have value : x.magnitude = radix ^ bitsToDigits n := by
      simp [x, magnitude, ofDigits_append]
    have inside : InWord x.toInt wordLength twosComplement := by
      rw [inWord_iff normalized, value, radix_pow]
      apply Nat.pow_lt_pow_right (by decide)
      have part : n ≤ magnitudeBits wordLength twosComplement - 2 ^ 32 := by
        rw [unsignedInt] at bits
        omega
      omega
    refine ⟨x, normalized, ?_⟩
    rw [JudgedRight, decide_eq_true inside, fitsInWordP, if_neg (by simp)]
    dsimp only
    have short : unsignedInt x.digits.length = bitsToDigits n + 1 := by
      rw [size]
      apply unsignedInt_of_lt
      rw [length] at digits_small
      omega
    rw [bits, if_neg zero, if_neg (by omega), if_pos (by omega)]
    simp

theorem toNat_accumulateDigits (digits : List Nat) : (accumulateDigits digits).toNat = Nat.ofDigits radix digits % 2 ^ 64 := by
  induction digits with
  | nil => rfl
  | cons d digits ih =>
    have step : accumulateDigits (d :: digits) = accumulateDigits digits <<< digitLength + .ofNat 64 d := rfl
    rw [step, BitVec.toNat_add, BitVec.toNat_shiftLeft, BitVec.toNat_ofNat, ih, shiftLeft_eq, ofDigits_cons]
    rw [radix, mod_mul_mod, ← add_mod, add_comm, mul_comm]

theorem toInt_accumulateDigits (digits : List Nat) :
    (accumulateDigits digits).toInt = ((Nat.ofDigits radix digits : Nat) : Int).bmod (2 ^ 64) := by
  rw [BitVec.toInt_eq_toNat_bmod, toNat_accumulateDigits, Int.natCast_mod]
  exact Int.emod_bmod _ (2 ^ 64)

theorem bignumToLong_eq (x : Bignum) : bignumToLong x = x.toInt.bmod (2 ^ 64) := by
  unfold bignumToLong
  split
  · next zero => simp [toInt, magnitude, zero]
  · split
    · next sign => rw [BitVec.toInt_neg, toInt_accumulateDigits, toInt_of_negative sign, magnitude, Int.bmod_neg_bmod]
    · next sign => rw [toInt_accumulateDigits, toInt_of_nonnegative (Bool.not_eq_true _ ▸ sign), magnitude]

theorem bignumToLong_eq_iff (x : Bignum) : bignumToLong x = x.toInt ↔ InWord x.toInt 64 true := by
  rw [bignumToLong_eq, InWord]
  constructor
  · intro same
    rw [← same]
    exact ⟨Int.le_bmod (by decide), Int.bmod_lt (by decide)⟩
  · rintro ⟨least, greatest⟩
    exact Int.bmod_eq_of_le (by simpa using least) (by simpa using greatest)

theorem bignumToUlong_eq_iff (normalized : x.Normalized) :
    (bignumToUlong x).map Int.ofNat = some x.toInt ↔ InWord x.toInt 64 false := by
  rw [inWord_iff normalized]
  unfold bignumToUlong
  split
  · next zero => simp [toInt, magnitude, zero, normalized.zero zero]
  · split
    · simp
    · next sign =>
      rw [toNat_accumulateDigits, toInt_of_nonnegative (Bool.not_eq_true _ ▸ sign)]
      change some ((x.magnitude % 2 ^ 64 : Nat) : Int) = some (x.magnitude : Int) ↔ x.magnitude < 2 ^ 64
      rw [Option.some_inj, Int.ofNat_inj]
      exact ⟨fun same => same ▸ mod_lt _ (by decide), mod_eq_of_lt⟩

theorem judgedRight_iff_inWord (accepted : fitsInWordP x wordLength twosComplement = some true) :
    JudgedRight x wordLength twosComplement ↔ InWord x.toInt wordLength twosComplement := by
  rw [JudgedRight, accepted]
  simp

namespace Integer

def Judgeable (wordLength : Nat) (twosComplement : Bool) : Integer → Prop
  | fixnum _ _ => True
  | bignum x _ => Bignum.Judgeable x wordLength twosComplement

theorem integerToLong_exact_iff (n : Integer) (accepted : n.integerToLongP = some true) :
    n.integerToLong = n.value ↔ n.Judgeable 64 true := by
  cases n with
  | fixnum n range => exact iff_of_true rfl trivial
  | bignum x normalized =>
    calc bignumToLong x = x.toInt ↔ InWord x.toInt 64 true := bignumToLong_eq_iff x
      _ ↔ JudgedRight x 64 true := (judgedRight_iff_inWord accepted).symm
      _ ↔ Bignum.Judgeable x 64 true := judgedRight_iff normalized (by decide) (by decide)

theorem integerToUlong_exact_iff (n : Integer) (accepted : n.integerToUlongP = some true) :
    n.integerToUlong.map Int.ofNat = some n.value ↔ n.Judgeable 64 false := by
  cases n with
  | fixnum n range =>
    have nonnegative : 0 ≤ n := by simpa [integerToUlongP] using accepted
    refine iff_of_true ?_ trivial
    simp only [integerToUlong, value, Option.map_some, Option.some_inj]
    change ((n % 2 ^ 64).toNat : Int) = n
    omega
  | bignum x normalized =>
    calc (bignumToUlong x).map Int.ofNat = some x.toInt ↔ InWord x.toInt 64 false := bignumToUlong_eq_iff normalized
      _ ↔ JudgedRight x 64 false := (judgedRight_iff_inWord accepted).symm
      _ ↔ Bignum.Judgeable x 64 false := judgedRight_iff normalized (by decide) (by decide)

end Integer

/-- The test whether a bignum fits in a word is right exactly where nothing misleads it, and then the conversions of
accepted integers are exact. -/
theorem fits_in_word_iff (two : 2 ≤ wordLength) (twosComplement : Bool) (n : Integer) :
    (magnitudeBits wordLength twosComplement < 2 ^ 32 → ∀ x : Bignum, x.Normalized →
      (JudgedRight x wordLength twosComplement ↔ Judgeable x wordLength twosComplement)) ∧
    (2 ^ 32 ≤ magnitudeBits wordLength twosComplement → ∃ x : Bignum, x.Normalized ∧ ¬JudgedRight x wordLength twosComplement) ∧
    (n.integerToLongP = some true → (n.integerToLong = n.value ↔ n.Judgeable 64 true)) ∧
    (n.integerToIntmaxP = some true → (n.integerToIntmax = n.value ↔ n.Judgeable 64 true)) ∧
    (n.integerToUlongP = some true → (n.integerToUlong.map Int.ofNat = some n.value ↔ n.Judgeable 64 false)) :=
  ⟨fun small _ normalized => judgedRight_iff normalized two small, exists_misjudged,
    n.integerToLong_exact_iff, n.integerToLong_exact_iff, n.integerToUlong_exact_iff⟩

theorem fits_in_word_iff_long :
    let n := Integer.bignum { negative := false, digits := [0, 1] } (by decide)
    (magnitudeBits 64 true < 2 ^ 32 → ∀ x : Bignum, x.Normalized → (JudgedRight x 64 true ↔ Judgeable x 64 true)) ∧
    (2 ^ 32 ≤ magnitudeBits 64 true → ∃ x : Bignum, x.Normalized ∧ ¬JudgedRight x 64 true) ∧
    (n.integerToLongP = some true → (n.integerToLong = n.value ↔ n.Judgeable 64 true)) ∧
    (n.integerToIntmaxP = some true → (n.integerToIntmax = n.value ↔ n.Judgeable 64 true)) ∧
    (n.integerToUlongP = some true → (n.integerToUlong.map Int.ofNat = some n.value ↔ n.Judgeable 64 false)) :=
  fits_in_word_iff (by decide) true _

theorem fits_in_word_misled :
    let x : Bignum := { negative := true, digits := [1, 2] }
    x.Normalized ∧ x.toInt = -2 ^ 63 - 1 ∧ fitsInWordP x 64 true = some true ∧ bignumToLong x = 2 ^ 63 - 1 := by
  decide

end MitScheme.Microcode.Bignum
