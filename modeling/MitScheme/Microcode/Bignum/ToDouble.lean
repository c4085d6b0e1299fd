import MitScheme.Library.Significand
import MitScheme.Microcode.Bignum.Representation
import MitScheme.Runtime.Arithmetic.Flonums

namespace MitScheme.Microcode.Bignum

open Library Runtime.Arithmetic List Nat Flonum

/-- `DBL_MANT_DIG`, with the implicit bit. -/
def doubleMantissaDigits : Nat := 53

def doubleOfDigit (digit : Nat) : Flonum := ofRational digit

/-- The standard library's `ldexp`, of a double that is finite. -/
def ldexp (value : Flonum) (e : Nat) : Flonum := value.denormalize e

/-- Where the loop leaves: with the value, or with the digits from `index` down, `above` being the one before them. -/
inductive Collected where
  | finished (value : Flonum)
  | guarded (value : Flonum) (scaleWords above : Nat) (digits : List Nat) (guardBitMask roundingCorrection : Nat)

/-- The `while` loop. -/
def collectBits (guardBitMask : Nat) :
    (bitsToGet currentDigitBitCount mask : Nat) → (value : Flonum) → (above : Nat) → (digits : List Nat) → Option Collected
  | _, _, _, _, _, [] => none
  | bitsToGet, currentDigitBitCount, mask, value, above, digit :: rest =>
    let more := currentDigitBitCount > bitsToGet
    let guardBitMask := if more then 1 <<< (currentDigitBitCount - bitsToGet - 1) else guardBitMask
    let mask := if more then mask.ldiff (guardBitMask <<< 1 - 1) else mask
    let wanted := if more then bitsToGet else currentDigitBitCount
    let bitsToGet := if more then 0 else bitsToGet - currentDigitBitCount
    let value := (value.mul (doubleOfDigit radix)).add (doubleOfDigit (digit &&& mask))
    if bitsToGet = 0 then
      if wanted = digitLength then
        if rest = [] then some (.finished value)
        else some (.guarded value rest.length digit rest (1 <<< (digitLength - 1)) 1)
      else some (.guarded value rest.length above (digit :: rest) guardBitMask (guardBitMask <<< 1))
    else if rest = [] then some (.finished value)
    else collectBits guardBitMask bitsToGet digitLength (radix - 1) value digit rest

inductive Rounding where
  | up
  | down
  | finished
  deriving DecidableEq

/-- The tests of the bits, `lgfffff`. -/
def rounding (above : Nat) (guardBitMask : Nat) : (digits : List Nat) → Option Rounding
  | [] => none
  | digit :: rest =>
    if digit &&& guardBitMask = 0 then some .down
    else if digit &&& (guardBitMask - 1) ≠ 0 then some .up
    else if (if guardBitMask <<< 1 = radix then above &&& 1 ≠ 0 else digit &&& (guardBitMask <<< 1) ≠ 0) then some .up
    else if rest = [] then some .finished
    else if rest.any (· ≠ 0) then some .up
    else some .down

def scaled (value : Flonum) (scaleWords : Nat) : Flonum :=
  if scaleWords > 0 then ldexp value (scaleWords * digitLength) else value

/-- The rest of `bignum_to_double`, without the sign. -/
def roundCollected : Collected → Option Flonum
  | .finished value => some value
  | .guarded value scaleWords above digits guardBitMask roundingCorrection =>
    (rounding above guardBitMask digits).map fun
      | .up => scaled (value.add (doubleOfDigit roundingCorrection)) scaleWords
      | .down => scaled value scaleWords
      | .finished => value

def bignumToDouble (x : Bignum) : Option Flonum :=
  match x.digits.reverse with
  | [] => some (Flonum.zero false)
  | msd :: rest => do
    let collected ← collectBits (radix >>> 1) doubleMantissaDigits msd.size (1 <<< msd.size - 1) (Flonum.zero false) 0
      (msd :: rest)
    let value ← roundCollected collected
    some (if x.negative then value.negate else value)

theorem one_shiftLeft (n : Nat) : 1 <<< n = 2 ^ n := by rw [Nat.shiftLeft_eq, one_mul]

theorem and_ldiff {digit count g : Nat} (small : digit < 2 ^ count) :
    digit &&& (2 ^ count - 1).ldiff (2 ^ g - 1) = digit / 2 ^ g * 2 ^ g := by
  apply eq_of_testBit_eq
  intro i
  rw [testBit_and, testBit_ldiff, testBit_mul_two_pow, testBit_div_two_pow]
  by_cases low : i < g
  · simp [low]
  · have position : i - g + g = i := Nat.sub_add_cancel (not_lt.mp low)
    by_cases high : i < count
    · simp [high, not_lt.mp low]
    · have none : digit.testBit i = false :=
        testBit_lt_two_pow (small.trans_le (Nat.pow_le_pow_right (by decide) (not_lt.mp high)))
      simp [none, position]

theorem and_wholeMask {digit count : Nat} (small : digit < 2 ^ count) : digit &&& (2 ^ count - 1) = digit := by
  rw [and_two_pow_sub_one_eq_mod, mod_eq_of_lt small]

theorem and_two_pow_ne_zero {digit i : Nat} : digit &&& 2 ^ i ≠ 0 ↔ digit.testBit i = true := by
  rw [and_two_pow]
  simp

section
variable {guardBitMask bitsToGet count digit above : Nat} {value : Flonum} {rest : List Nat}

theorem collectBits_more (more : bitsToGet < count) (short : bitsToGet < digitLength) (small : digit < 2 ^ count) :
    collectBits guardBitMask bitsToGet count (2 ^ count - 1) value above (digit :: rest) =
      some (.guarded ((value.mul (doubleOfDigit radix)).add
          (doubleOfDigit (digit / 2 ^ (count - bitsToGet) * 2 ^ (count - bitsToGet))))
        rest.length above (digit :: rest) (2 ^ (count - bitsToGet - 1)) (2 ^ (count - bitsToGet))) := by
  have double : 2 ^ (count - bitsToGet - 1) <<< 1 = 2 ^ (count - bitsToGet) := by
    rw [Nat.shiftLeft_eq, ← pow_add, Nat.sub_add_cancel (Nat.sub_pos_of_lt more)]
  rw [collectBits]
  simp only [if_pos more, one_shiftLeft, double, and_ldiff small]
  rw [if_pos trivial, if_neg (short.ne)]

theorem collectBits_equal (short : count < digitLength) (small : digit < 2 ^ count) :
    collectBits guardBitMask count count (2 ^ count - 1) value above (digit :: rest) =
      some (.guarded ((value.mul (doubleOfDigit radix)).add (doubleOfDigit digit)) rest.length above (digit :: rest)
        guardBitMask (guardBitMask <<< 1)) := by
  rw [collectBits]
  simp only [if_neg (lt_irrefl count), and_wholeMask small, Nat.sub_self]
  rw [if_pos trivial, if_neg (short.ne)]

theorem collectBits_less (less : count < bitsToGet) (small : digit < 2 ^ count) :
    collectBits guardBitMask bitsToGet count (2 ^ count - 1) value above (digit :: rest) =
      if rest = [] then some (.finished ((value.mul (doubleOfDigit radix)).add (doubleOfDigit digit)))
      else collectBits guardBitMask (bitsToGet - count) digitLength (radix - 1)
        ((value.mul (doubleOfDigit radix)).add (doubleOfDigit digit)) digit rest := by
  rw [collectBits]
  simp only [if_neg (less.le.not_gt), and_wholeMask small]
  rw [if_neg (sub_ne_zero_of_lt less)]

theorem testBit_digit {high low m : Nat} (digit_small : digit < radix) (low_small : low < radix ^ m) (i : Nat) (inside : i < digitLength) :
    ((high * radix + digit) * radix ^ m + low).testBit (digitLength * m + i) = digit.testBit i := by
  have power : radix ^ m = 2 ^ (digitLength * m) := (pow_mul 2 digitLength m).symm
  rw [power] at low_small ⊢
  rw [mul_comm, testBit_two_pow_mul_add _ low_small, if_neg ((le_add_right _ _).not_gt),
    Nat.add_sub_cancel_left, mul_comm high]
  exact (testBit_two_pow_mul_add _ digit_small i).trans (if_pos inside)

theorem mod_digit {high low m i : Nat} (low_small : low < radix ^ m) (inside : i ≤ digitLength) :
    ((high * radix + digit) * radix ^ m + low) % 2 ^ (digitLength * m + i) = digit % 2 ^ i * radix ^ m + low := by
  have power : radix ^ m = 2 ^ (digitLength * m) := (pow_mul 2 digitLength m).symm
  have divides : 2 ^ i ∣ high * radix := dvd_trans (pow_dvd_pow 2 inside) (dvd_mul_left _ _)
  obtain ⟨c, multiple⟩ := divides
  have split := div_add_mod digit (2 ^ i)
  have whole : (high * radix + digit) * radix ^ m + low =
      2 ^ (digitLength * m + i) * (c + digit / 2 ^ i) + (digit % 2 ^ i * radix ^ m + low) := by
    rw [multiple, pow_add, ← power]
    nth_rewrite 1 [← split]
    ring
  rw [whole, mul_add_mod, mod_eq_of_lt]
  calc digit % 2 ^ i * radix ^ m + low < digit % 2 ^ i * radix ^ m + radix ^ m := Nat.add_lt_add_left low_small _
    _ = (digit % 2 ^ i + 1) * radix ^ m := by ring
    _ ≤ 2 ^ i * radix ^ m := mul_le_mul_right _ (mod_lt _ (Nat.two_pow_pos i))
    _ = 2 ^ (digitLength * m + i) := by rw [power, ← pow_add, add_comm]

theorem any_nonzero {ds : List Nat} (digits : Digits radix ds) : ds.reverse.any (· ≠ 0) = true ↔ Nat.ofDigits radix ds ≠ 0 := by
  rw [any_reverse]
  induction ds with
  | nil => simp
  | cons d ds ih =>
    rw [digits_cons] at digits
    have positive : 0 < radix := by decide
    rw [any_cons, ofDigits_cons, Bool.or_eq_true]
    simp only [decide_eq_true_eq, ne_eq, Nat.add_eq_zero_iff, mul_eq_zero]
    tauto

theorem rounding_spec {high g : Nat} {ds : List Nat} (digit_small : digit < radix) (digits : Digits radix ds) (positive : 0 < g)
    (inside : g < digitLength) : ∃ r, rounding above (2 ^ (g - 1)) (digit :: ds.reverse) = some r ∧
      (r = .up ↔ roundsUp ((high * radix + digit) * radix ^ ds.length + Nat.ofDigits radix ds)
        (digitLength * ds.length + (g - 1)) = true) ∧ (r = .finished → ds = []) := by
  obtain ⟨i, rfl⟩ : ∃ i, g = i + 1 := ⟨g - 1, (Nat.sub_add_cancel positive).symm⟩
  rw [Nat.add_sub_cancel]
  have low_small := ofDigits_lt_base_pow_length one_lt_radix digits
  have guard := @testBit_digit digit high _ ds.length digit_small low_small i (lt_of_succ_lt inside)
  have above' := @testBit_digit digit high _ ds.length digit_small low_small (i + 1) inside
  have sticky := @mod_digit digit high _ ds.length i low_small ((lt_of_succ_lt inside).le)
  have double : 2 ^ i <<< 1 = 2 ^ (i + 1) := by rw [Nat.shiftLeft_eq, ← pow_add]
  have other : ¬2 ^ (i + 1) = radix := (Nat.pow_lt_pow_right (by decide) inside).ne
  have low := any_nonzero digits
  have power : 0 < radix ^ ds.length := Nat.pow_pos (by decide)
  have masked : digit &&& (2 ^ i - 1) = digit % 2 ^ i := and_two_pow_sub_one_eq_mod _ _
  unfold rounding roundsUp
  rw [guard, add_assoc, above', sticky, double]
  simp only [if_neg other, masked, and_two_pow_ne_zero]
  by_cases set : digit.testBit i = true
  · rw [if_neg (and_two_pow_ne_zero.mpr set), set]
    by_cases below : digit % 2 ^ i ≠ 0
    · rw [if_pos below]
      have nonzero : digit % 2 ^ i * radix ^ ds.length + ofDigits radix ds ≠ 0 := by
        have := mul_ne_zero below power.ne'
        omega
      rw [decide_eq_true nonzero]
      exact ⟨_, rfl, by simp, nofun⟩
    · rw [if_neg below, not_not.mp below, zero_mul]
      by_cases odd : digit.testBit (i + 1) = true
      · rw [if_pos odd]
        exact ⟨_, rfl, by simp [odd], nofun⟩
      · rw [if_neg odd, Bool.not_eq_true _ |>.mp odd]
        by_cases empty : ds = []
        · subst empty
          exact ⟨_, rfl, by simp, fun _ => rfl⟩
        · rw [if_neg (by simpa using empty)]
          by_cases nonzero : ofDigits radix ds ≠ 0
          · rw [if_pos (low.mpr nonzero)]
            exact ⟨_, rfl, by simp [nonzero], nofun⟩
          · rw [if_neg (fun some => nonzero (low.mp some))]
            exact ⟨_, rfl, by simp [not_not.mp nonzero], nofun⟩
  · rw [if_pos (not_not.mp fun nonzero => set (and_two_pow_ne_zero.mp nonzero)), Bool.not_eq_true _ |>.mp set]
    exact ⟨_, rfl, by simp, nofun⟩

end

structure Exactly (value : Flonum) (n : Nat) : Prop where
  is : value.Is n
  positive : value.negative = false

theorem fits_nat {k j n : Nat} (same : n = k * 2 ^ j) (short : k < 2 ^ 53) (small : n < 2 ^ 1024) : binary64.Fits (n : ℚ) := by
  have value : (n : ℚ) = k * 2 ^ (j : ℤ) := by
    rw [same]
    push_cast
    rfl
  rw [value]
  apply BinaryFormat.fits_of short
  · have least : binary64.emin - binary64.trailing = -1074 := rfl
    omega
  · rw [← value]
    exact_mod_cast small

variable {n : Nat} {negative : Bool} {x : Bignum}

theorem exactly_digit (fits : binary64.Fits (n : ℚ)) : Exactly (doubleOfDigit n) n := by
  have nonneg : (0 : ℚ) ≤ n := cast_nonneg n
  refine ⟨ofRational_is ((abs_of_nonneg nonneg).symm ▸ fits), ?_⟩
  exact decide_eq_false (nonneg.not_gt)

theorem Exactly.add {x y : Flonum} {m n : Nat} (hx : Exactly x m) (hy : Exactly y n) (fits : binary64.Fits ((m + n : Nat) : ℚ)) :
    Exactly (x.add y) (m + n) := by
  have nonneg : (0 : ℚ) ≤ m + n := by positivity
  rw [cast_add] at fits
  refine ⟨?_, ?_⟩
  · rw [cast_add]
    exact hx.is.add hy.is ((abs_of_nonneg nonneg).symm ▸ fits)
  · unfold Flonum.add
    rw [isNan_of_finite hx.is.1, isNan_of_finite hy.is.1, isInfinite_of_finite hx.is.1,
      isInfinite_of_finite hy.is.1, hx.is.2, hy.is.2, hx.positive]
    simp only [Bool.false_eq_true, if_false, Bool.false_and]
    split
    · rfl
    · exact decide_eq_false (nonneg.not_gt)

theorem Exactly.mul {x y : Flonum} {m n : Nat} (hx : Exactly x m) (hy : Exactly y n) (fits : binary64.Fits ((m * n : Nat) : ℚ)) :
    Exactly (x.mul y) (m * n) := by
  have nonneg : (0 : ℚ) ≤ m * n := by positivity
  rw [cast_mul] at fits
  refine ⟨?_, ?_⟩
  · rw [cast_mul]
    exact hx.is.mul hy.is ((abs_of_nonneg nonneg).symm ▸ fits)
  · unfold Flonum.mul
    rw [isNan_of_finite hx.is.1, isNan_of_finite hy.is.1, isInfinite_of_finite hx.is.1,
      isInfinite_of_finite hy.is.1, hx.positive, hy.positive]
    rfl

theorem Exactly.eq {x : Flonum} (exactly : Exactly x n) : x = Flonum.ofMagnitude false n :=
  exactly.is.unique exactly.positive

theorem Exactly.scaled_eq {x : Flonum} {m n : Nat} (exactly : Exactly x m) (int : n * digitLength < 2 ^ 31) :
    Bignum.scaled x n = Flonum.ofMagnitude false ((m * radix ^ n : Nat) : ℚ) := by
  unfold Bignum.scaled
  by_cases some : n > 0
  · have magnitude := exactly.is.magnitude
    have power : ((m * radix ^ n : Nat) : ℚ) = m * 2 ^ ((n * digitLength : Nat) : ℤ) := by
      rw [zpow_natCast, mul_comm n, pow_mul]
      push_cast
      rfl
    rw [abs_of_nonneg (cast_nonneg m)] at magnitude
    rw [if_pos some, ldexp, denormalize, toCInt_eq (by omega) (by omega), magnitude, exactly.positive, power]
  · rw [Nat.eq_zero_of_not_pos some, pow_zero, mul_one]
    exact exactly.eq

theorem exactly_zero : Exactly (Flonum.zero false) 0 := ⟨by simpa using zero_is false, rfl⟩

theorem accumulate {value : Flonum} {v k q g : Nat} (exactly : Exactly value v) (small : v < 2 ^ 53)
    (sum : v * radix + q * 2 ^ g = k * 2 ^ g) (short : q < 2 ^ 53) (short' : k < 2 ^ 53) (shift : g ≤ digitLength) :
    Exactly ((value.mul (doubleOfDigit radix)).add (doubleOfDigit (q * 2 ^ g))) (v * radix + q * 2 ^ g) := by
  have bound : ∀ k < 2 ^ 53, ∀ g ≤ 62, k * 2 ^ g < 2 ^ 1024 := by
    intro k short g shift
    calc k * 2 ^ g ≤ k * 2 ^ 62 := mul_le_mul_left _ (Nat.pow_le_pow_right (by decide) shift)
      _ < 2 ^ 53 * 2 ^ 62 := mul_lt_mul_of_pos_right short (Nat.two_pow_pos _)
      _ ≤ 2 ^ 1024 := by rw [← pow_add]; exact Nat.pow_le_pow_right (by decide) (by decide)
  have base := exactly_digit (@fits_nat 1 62 radix (one_mul _).symm (by decide) (Nat.pow_lt_pow_right (by decide) (by decide)))
  have product := exactly.mul base (@fits_nat v 62 _ rfl small (bound v small 62 le_rfl))
  have digit := exactly_digit (@fits_nat q g _ rfl short (bound q short g shift))
  exact product.add digit (@fits_nat k g _ sum short' (sum ▸ bound k short' g shift))

@[irreducible]
def overflowBound : Nat := 2 ^ 1024 - 2 ^ 970

theorem overflowBound_add : overflowBound + 2 ^ 970 = 2 ^ 1024 := by
  have whole : 2 ^ 970 ≤ 2 ^ 1024 := pow_le_pow_right₀ one_le_two (by omega)
  unfold overflowBound
  rw [Nat.sub_add_cancel whole]

theorem overflowBound_le : overflowBound ≤ 2 ^ 1024 := by
  rw [← overflowBound_add]
  exact le_add_right _ _

theorem nearestEven_finite {n t : Nat} (lower : 2 ^ (52 + (t + 1)) ≤ n) (finite : n < overflowBound) :
    nearestEven n t * 2 ^ (t + 1) < 2 ^ 1024 := by
  have small : t ≤ 970 := by
    have bound : 2 ^ (52 + (t + 1)) < 2 ^ 1024 := lower.trans_lt (finite.trans_le overflowBound_le)
    have := (Nat.pow_lt_pow_iff_right (by decide : 1 < 2)).mp bound
    omega
  calc nearestEven n t * 2 ^ (t + 1) ≤ n + 2 ^ t := nearestEven_mul_le n t
    _ ≤ n + 2 ^ 970 := Nat.add_le_add_left (pow_le_pow_right₀ one_le_two small) _
    _ < overflowBound + 2 ^ 970 := Nat.add_lt_add_right finite _
    _ = 2 ^ 1024 := overflowBound_add

theorem roundCollected_spec {value : Flonum} {above high digit g : Nat} {ds : List Nat}
    (exactly : Exactly value ((high * radix + digit) / 2 ^ g * 2 ^ g)) (digit_small : digit < radix)
    (digits : Digits radix ds) (positive : 0 < g) (inside : g < digitLength)
    (lower : 2 ^ 52 * 2 ^ g ≤ high * radix + digit) (upper : high * radix + digit < 2 ^ 53 * 2 ^ g)
    (int : ds.length * digitLength < 2 ^ 31) :
    roundCollected (.guarded value ds.length above (digit :: ds.reverse) (2 ^ (g - 1)) (2 ^ g)) =
    some (Flonum.ofMagnitude false (((high * radix + digit) * radix ^ ds.length + Nat.ofDigits radix ds : Nat) : ℚ)) := by
  obtain ⟨r, found, isUp, isLast⟩ := @rounding_spec digit above high g ds digit_small digits positive inside
  obtain ⟨n, number⟩ : ∃ n, n = (high * radix + digit) * radix ^ ds.length + ofDigits radix ds := ⟨_, rfl⟩
  obtain ⟨t, exponent⟩ : ∃ t, t = digitLength * ds.length + (g - 1) := ⟨_, rfl⟩
  have exponent' : t + 1 = digitLength * ds.length + g := by omega
  have low_small := ofDigits_lt_base_pow_length one_lt_radix digits
  have power : radix ^ ds.length = 2 ^ (digitLength * ds.length) := (pow_mul 2 digitLength ds.length).symm
  have power' : 2 ^ (t + 1) = radix ^ ds.length * 2 ^ g := by rw [exponent', pow_add, power]
  rw [← number, ← exponent] at isUp
  rw [← number]
  have quotient : n / 2 ^ (t + 1) = (high * radix + digit) / 2 ^ g := by
    rw [power', ← Nat.div_div_eq_div_mul, number, mul_comm, mul_add_div (Nat.pow_pos (by decide)),
      div_eq_of_lt low_small, add_zero]
  have lower' : 2 ^ (binary64.trailing + (t + 1)) ≤ n := by
    rw [pow_add, power', number]
    calc 2 ^ binary64.trailing * (radix ^ ds.length * 2 ^ g) = 2 ^ 52 * 2 ^ g * radix ^ ds.length := by
          rw [mul_comm (radix ^ ds.length), ← mul_assoc]
          rfl
      _ ≤ (high * radix + digit) * radix ^ ds.length := mul_le_mul_right _ lower
      _ ≤ _ := le_add_right _ _
  have upper' : n < 2 ^ (binary64.trailing + (t + 1) + 1) := by
    have room : n < (high * radix + digit + 1) * radix ^ ds.length := by
      rw [number, succ_mul]
      exact Nat.add_lt_add_left low_small _
    calc n < (high * radix + digit + 1) * radix ^ ds.length := room
      _ ≤ 2 ^ 53 * 2 ^ g * radix ^ ds.length := mul_le_mul_right _ upper
      _ = 2 ^ (binary64.trailing + (t + 1) + 1) := by
        rw [add_right_comm, pow_add _ _ (t + 1), power', mul_comm (radix ^ ds.length), ← mul_assoc]
        rfl
  have rounds := BinaryFormat.round_nearestEven lower' upper'
  have cast : ((nearestEven n t : ℕ) : ℚ) * 2 ^ (t + 1) = ((nearestEven n t * 2 ^ g * radix ^ ds.length : ℕ) : ℚ) := by
    have same : nearestEven n t * 2 ^ g * radix ^ ds.length = nearestEven n t * 2 ^ (t + 1) := by
      rw [power', mul_assoc, mul_comm (2 ^ g)]
    rw [same]
    push_cast
    rfl
  rw [cast] at rounds
  have result : .ofMagnitude false ((nearestEven n t * 2 ^ g * radix ^ ds.length : ℕ) : ℚ) =
      Flonum.ofMagnitude false (n : ℚ) := by
    unfold Flonum.ofMagnitude
    simp [rounds]
  rw [roundCollected, found, Option.map_some, ← result]
  congr 1
  have kept : r ≠ .up → nearestEven n t = (high * radix + digit) / 2 ^ g := by
    intro other
    have down : roundsUp n t = false := by rwa [← Bool.not_eq_true, ← isUp]
    rw [nearestEven, quotient, down, Bool.toNat_false, add_zero]
  cases r with
  | up =>
    have rounded : nearestEven n t = (high * radix + digit) / 2 ^ g + 1 := by
      rw [nearestEven, quotient, isUp.mp rfl, Bool.toNat_true]
    have grown : (high * radix + digit) / 2 ^ g * 2 ^ g + 2 ^ g = nearestEven n t * 2 ^ g := by
      rw [rounded, add_mul, one_mul]
    have short : (high * radix + digit) / 2 ^ g + 1 ≤ 2 ^ 53 := by
      rw [succ_le_iff, div_lt_iff_lt_mul (Nat.two_pow_pos g)]
      exact upper
    have bound : ∀ k ≤ 2 ^ 53, k * 2 ^ g < 2 ^ 1024 := by
      intro k le
      calc k * 2 ^ g ≤ 2 ^ 53 * 2 ^ 62 := Nat.mul_le_mul le (Nat.pow_le_pow_right (by decide) inside.le)
        _ < 2 ^ 1024 := by rw [← pow_add]; exact Nat.pow_lt_pow_right (by decide) (by decide)
    have one : 2 ^ g < 2 ^ 1024 := by
      have power := bound 1 (by decide)
      rwa [one_mul] at power
    have correction := exactly_digit (@fits_nat 1 g _ (one_mul _).symm (by decide) one)
    have sum : binary64.Fits (((high * radix + digit) / 2 ^ g * 2 ^ g + 2 ^ g : ℕ) : ℚ) := by
      have small := bound _ short
      rw [succ_mul] at small
      rcases short.lt_or_eq with less | full
      · exact @fits_nat _ g _ (succ_mul _ _).symm less small
      · have power : (high * radix + digit) / 2 ^ g * 2 ^ g + 2 ^ g = 1 * 2 ^ (53 + g) := by
          rw [← succ_mul, succ_eq_add_one, full, one_mul, pow_add]
        exact @fits_nat 1 (53 + g) _ power (by decide) small
    have added := exactly.add correction sum
    rw [grown] at added
    exact added.scaled_eq int
  | down =>
    rw [← kept (by decide)] at exactly
    exact exactly.scaled_eq int
  | finished =>
    rw [← kept (by decide)] at exactly
    rw [isLast rfl, length_nil, pow_zero, mul_one]
    exact exactly.eq

section
variable {msd : Nat} {ds : List Nat}

theorem size_msd (leading : msd ≠ 0) (small : msd < radix) :
    0 < msd.size ∧ msd.size ≤ digitLength ∧ 2 ^ (msd.size - 1) ≤ msd ∧ msd < 2 ^ msd.size := by
  have positive : 0 < msd.size := size_pos.mpr (pos_of_ne_zero leading)
  exact ⟨positive, size_le.mpr small, lt_size.mp (sub_lt positive zero_lt_one), lt_size_self msd⟩

theorem accumulate_msd {q g : Nat} (short : q < 2 ^ 53) (shift : g ≤ digitLength) :
    Exactly (((Flonum.zero false).mul (doubleOfDigit radix)).add (doubleOfDigit (q * 2 ^ g))) (q * 2 ^ g) := by
  have sum := @accumulate _ 0 q q g exactly_zero (by decide) (by rw [zero_mul, zero_add]) short short shift
  rwa [zero_mul, zero_add] at sum

theorem accumulate_short (short : msd < 2 ^ 53) :
    Exactly (((Flonum.zero false).mul (doubleOfDigit radix)).add (doubleOfDigit msd)) msd := by
  have sum := @accumulate_msd msd 0 short (zero_le _)
  rwa [pow_zero, mul_one] at sum

theorem roundCollected_truncates (exact_size : msd.size = 53) :
    ∃ collected, collectBits (radix >>> 1) doubleMantissaDigits msd.size (1 <<< msd.size - 1) (Flonum.zero false) 0
        (msd :: ds.reverse) = some collected ∧
      roundCollected collected = some (scaled (((Flonum.zero false).mul (doubleOfDigit radix)).add (doubleOfDigit msd)) ds.length) := by
  have small : msd < 2 ^ 53 := exact_size ▸ lt_size_self msd
  have collects := @collectBits_equal (radix >>> 1) 53 msd 0 (.zero false) ds.reverse (by decide) small
  rw [exact_size]
  refine ⟨_, collects, ?_⟩
  · have guard : radix >>> 1 = 2 ^ 61 := by decide
    have unset : msd &&& 2 ^ 61 = 0 := by
      have none := testBit_lt_two_pow (small.trans (Nat.pow_lt_pow_right (by decide : 1 < 2) (by decide : 53 < 61)))
      by_contra nonzero
      rw [and_two_pow_ne_zero.mp nonzero] at none
      exact nomatch none
    rw [roundCollected, rounding, guard, if_pos unset, Option.map_some, length_reverse]

theorem roundCollected_rounds (leading : msd ≠ 0) (small : msd < radix) (digits : Digits radix ds)
    (int : ds.length * digitLength < 2 ^ 31) (other : msd.size ≠ 53 ∨ ds = []) :
    ∃ collected, collectBits (radix >>> 1) doubleMantissaDigits msd.size (1 <<< msd.size - 1) (Flonum.zero false) 0
        (msd :: ds.reverse) = some collected ∧
      roundCollected collected = some (Flonum.ofMagnitude false ((msd * radix ^ ds.length + Nat.ofDigits radix ds : Nat) : ℚ)) := by
  obtain ⟨positive, size_le, lower, upper⟩ := size_msd leading small
  have mantissa : doubleMantissaDigits = 53 := rfl
  rcases lt_trichotomy msd.size 53 with less | equal | more
  · have short : msd < 2 ^ 53 := upper.trans (Nat.pow_lt_pow_right (by decide) less)
    rw [mantissa, one_shiftLeft, collectBits_less less upper]
    rcases eq_nil_or_concat ds with rfl | ⟨init, second, rfl⟩
    · refine ⟨_, rfl, ?_⟩
      rw [roundCollected, (accumulate_short short).eq]
      simp
    · rw [concat_eq_append] at digits ⊢
      have second_small : second < radix := digits second (by simp)
      have init_digits : Digits radix init := fun d member => digits d (mem_append_left _ member)
      rw [reverse_append, reverse_singleton, singleton_append, if_neg (cons_ne_nil _ _)]
      have wanted : 53 - msd.size < digitLength := (sub_le _ _).trans_lt (by decide)
      obtain ⟨g, shift⟩ : ∃ g, g = digitLength - (53 - msd.size) := ⟨_, rfl⟩
      have step := @collectBits_more (radix >>> 1) (53 - msd.size) digitLength second msd
        (((Flonum.zero false).mul (doubleOfDigit radix)).add (doubleOfDigit msd)) init.reverse wanted wanted second_small
      rw [← shift] at step
      have base : radix = 2 ^ (53 - msd.size) * 2 ^ g := by
        rw [← pow_add, radix]
        congr 1
        omega
      have quotient : (msd * radix + second) / 2 ^ g = msd * 2 ^ (53 - msd.size) + second / 2 ^ g := by
        rw [base, ← mul_assoc, add_comm, add_mul_div_right _ _ (Nat.two_pow_pos g), add_comm]
      have room : second / 2 ^ g < 2 ^ (53 - msd.size) := by
        rw [div_lt_iff_lt_mul (Nat.two_pow_pos g), ← base]
        exact second_small
      have whole : 2 ^ msd.size * 2 ^ (53 - msd.size) = 2 ^ 53 := by
        rw [← pow_add]
        congr 1
        omega
      have short' : msd * 2 ^ (53 - msd.size) + second / 2 ^ g < 2 ^ 53 := by
        calc msd * 2 ^ (53 - msd.size) + second / 2 ^ g < (msd + 1) * 2 ^ (53 - msd.size) := by
              rw [succ_mul]
              exact Nat.add_lt_add_left room _
          _ ≤ 2 ^ msd.size * 2 ^ (53 - msd.size) := mul_le_mul_right _ upper
          _ = 2 ^ 53 := whole
      have sum : msd * radix + second / 2 ^ g * 2 ^ g = (msd * radix + second) / 2 ^ g * 2 ^ g := by
        rw [quotient, add_mul, mul_assoc, ← base]
      have exactly := accumulate (accumulate_short short) short sum
        (room.trans_le (Nat.pow_le_pow_right (by decide) (sub_le _ _))) (quotient ▸ short') (by omega)
      rw [sum] at exactly
      have number : (msd * radix + second) * radix ^ init.length + ofDigits radix init =
          msd * radix ^ (init ++ [second]).length + ofDigits radix (init ++ [second]) := by
        rw [length_append, length_singleton, ofDigits_append, ofDigits_singleton]
        ring
      refine ⟨_, step, ?_⟩
      rw [length_reverse, ← number]
      have int' : init.length * digitLength < 2 ^ 31 := by
        rw [length_concat, succ_mul] at int
        omega
      refine roundCollected_spec exactly second_small init_digits (by omega) (by omega) ?_ ?_ int'
      · have top : 52 = msd.size - 1 + (53 - msd.size) := by omega
        calc 2 ^ 52 * 2 ^ g = 2 ^ (msd.size - 1) * radix := by rw [base, ← mul_assoc, ← pow_add 2 (msd.size - 1), ← top]
          _ ≤ msd * radix := mul_le_mul_right _ lower
          _ ≤ _ := le_add_right _ _
      · rw [← div_lt_iff_lt_mul (Nat.two_pow_pos g), quotient]
        exact short'
  · obtain rfl : ds = [] := other.resolve_left (fun different => different equal)
    obtain ⟨collected, collects, rounded⟩ := @roundCollected_truncates msd [] equal
    refine ⟨collected, collects, rounded.trans ?_⟩
    have exactly := accumulate_short (equal ▸ upper)
    rw [length_nil, scaled, exactly.eq]
    simp
  · obtain ⟨g, shift⟩ : ∃ g, g = msd.size - 53 := ⟨_, rfl⟩
    have step := @collectBits_more (radix >>> 1) 53 msd.size msd 0 (.zero false) ds.reverse more (by decide) upper
    rw [← shift] at step
    have whole : 2 ^ msd.size = 2 ^ 53 * 2 ^ g := by
      rw [← pow_add]
      congr 1
      omega
    have short : msd / 2 ^ g < 2 ^ 53 := by
      rw [div_lt_iff_lt_mul (Nat.two_pow_pos g), ← whole]
      exact upper
    have exactly := @accumulate_msd (msd / 2 ^ g) g short (by omega)
    have result := @roundCollected_spec (((Flonum.zero false).mul (doubleOfDigit radix)).add (doubleOfDigit (msd / 2 ^ g * 2 ^ g)))
      0 0 msd g ds
    simp only [zero_mul, zero_add] at result
    rw [one_shiftLeft]
    refine ⟨_, step, ?_⟩
    rw [length_reverse]
    refine result exactly small digits (by omega) (by omega) ?_ ?_ int
    · calc 2 ^ 52 * 2 ^ g = 2 ^ (msd.size - 1) := by
            rw [← pow_add]
            congr 1
            omega
        _ ≤ msd := lower
    · rw [← whole]
      exact upper

end

/-- The digits after a most significant one of 53 bits call for rounding up. -/
def LosesRounding (x : Bignum) : Prop := ∃ msd, x.digits.getLast? = some msd ∧ msd.size = 53 ∧ 1 < x.digits.length ∧
  roundsUp x.magnitude (digitLength * (x.digits.length - 1) - 1) = true

theorem ofMagnitude_injective {a b : ℚ} (fits : binary64.Fits a) (fits' : binary64.Fits b) (nonneg : 0 ≤ a) (nonneg' : 0 ≤ b)
    (same : Flonum.ofMagnitude negative a = Flonum.ofMagnitude negative b) : a = b := by
  have words := congrArg Flonum.word same
  simp only [Flonum.ofMagnitude] at words
  rw [← (fits.round nonneg).2, words, (fits'.round nonneg').2]

section
variable {msd : Nat} {ds : List Nat}

theorem truncated_iff (exact_size : msd.size = 53) (digits : Digits radix ds) (nonempty : ds ≠ [])
    (int : ds.length * digitLength < 2 ^ 31) (finite : msd * radix ^ ds.length + Nat.ofDigits radix ds < overflowBound) :
    scaled (((Flonum.zero false).mul (doubleOfDigit radix)).add (doubleOfDigit msd)) ds.length =
        Flonum.ofMagnitude false ((msd * radix ^ ds.length + Nat.ofDigits radix ds : Nat) : ℚ) ↔
      roundsUp (msd * radix ^ ds.length + Nat.ofDigits radix ds) (digitLength * ds.length - 1) = false := by
  obtain ⟨n, number⟩ : ∃ n, n = msd * radix ^ ds.length + ofDigits radix ds := ⟨_, rfl⟩
  obtain ⟨t, exponent⟩ : ∃ t, t = digitLength * ds.length - 1 := ⟨_, rfl⟩
  have upper : msd < 2 ^ 53 := exact_size ▸ lt_size_self msd
  have lower : 2 ^ 52 ≤ msd := lt_size.mp (exact_size ▸ by decide)
  have length : 0 < ds.length := length_pos_of_ne_nil nonempty
  have low_small := ofDigits_lt_base_pow_length one_lt_radix digits
  have exponent' : t + 1 = digitLength * ds.length := by
    rw [exponent]
    exact Nat.sub_add_cancel (mul_pos (by decide) length)
  have power : radix ^ ds.length = 2 ^ (t + 1) := by rw [exponent', pow_mul, radix]
  rw [power] at low_small number
  rw [power] at finite ⊢
  rw [← number] at finite
  rw [← number, ← exponent]
  have quotient : n / 2 ^ (t + 1) = msd := by
    rw [number, mul_comm, mul_add_div (Nat.two_pow_pos _), div_eq_of_lt low_small, add_zero]
  have lower' : 2 ^ (binary64.trailing + (t + 1)) ≤ n := by
    rw [pow_add, number]
    exact le_add_right_of_le (mul_le_mul_right _ lower)
  have upper' : n < 2 ^ (binary64.trailing + (t + 1) + 1) := by
    rw [add_right_comm, pow_add, ← div_lt_iff_lt_mul (Nat.two_pow_pos _), quotient]
    exact upper
  obtain ⟨rounds, fits⟩ := BinaryFormat.round_natCast lower' upper' (nearestEven_finite lower' finite)
  have fits' : binary64.Fits ((msd * radix ^ ds.length : Nat) : ℚ) := by
    apply @fits_nat msd (t + 1) _ (by rw [power]) upper
    have part : msd * 2 ^ (t + 1) ≤ n := by
      rw [number]
      exact le_add_right _ _
    rw [power]
    exact part.trans_lt (finite.trans_le overflowBound_le)
  rw [(accumulate_short upper).scaled_eq int]
  have round : .ofMagnitude false (n : ℚ) = Flonum.ofMagnitude false ((nearestEven n t : ℚ) * 2 ^ (t + 1)) := by
    unfold Flonum.ofMagnitude
    simp [rounds]
  have split : roundsUp n t = false ↔ nearestEven n t = msd := by
    rw [nearestEven, quotient]
    simp
  rw [round, split]
  have cast : ((msd * radix ^ ds.length : Nat) : ℚ) = msd * 2 ^ (t + 1) := by
    rw [power]
    push_cast
    rfl
  rw [cast] at fits' ⊢
  have positive : (0 : ℚ) < 2 ^ (t + 1) := by positivity
  constructor
  · intro same
    have nonneg : ∀ k : Nat, (0 : ℚ) ≤ k * 2 ^ (t + 1) := fun k => mul_nonneg (cast_nonneg k) positive.le
    have equal := ofMagnitude_injective fits' fits (nonneg _) (nonneg _) same
    exact_mod_cast (mul_right_cancel₀ positive.ne' equal).symm
  · intro same
    rw [same]

end

theorem losesRounding_iff {msd : Nat} {ds : List Nat} : LosesRounding ⟨negative, ds ++ [msd]⟩ ↔ msd.size = 53 ∧
    ds ≠ [] ∧ roundsUp (msd * radix ^ ds.length + Nat.ofDigits radix ds) (digitLength * ds.length - 1) = true := by
  have number : magnitude ⟨negative, ds ++ [msd]⟩ = msd * radix ^ ds.length + ofDigits radix ds := by
    rw [magnitude, ofDigits_append, ofDigits_singleton]
    ring
  have more : 1 < ds.length + 1 ↔ ds ≠ [] := by
    rw [← length_pos_iff]
    omega
  unfold LosesRounding
  rw [number]
  simp only [getLast?_concat, length_append, length_singleton, more]
  constructor
  · rintro ⟨msd', same, rest⟩
    obtain rfl := Option.some.inj same
    exact rest
  · exact fun rest => ⟨msd, rfl, rest⟩

theorem ofRational_signed (positive : 0 < n) : ofRational (signed negative n : Int) =
    if negative then (Flonum.ofMagnitude false n).negate else Flonum.ofMagnitude false n := by
  have above : (0 : ℚ) < n := by exact_mod_cast positive
  unfold signed ofRational
  cases negative with
  | false =>
    simp [above.le.not_gt]
  | true =>
    simp [above, negate, Flonum.ofMagnitude]

theorem negate_injective {x y : Flonum} : x.negate = y.negate ↔ x = y := by
  constructor
  · intro same
    have twice := congrArg negate same
    obtain ⟨sign, word, bound⟩ := x
    obtain ⟨sign', word', bound'⟩ := y
    simpa [negate] using twice
  · exact congrArg negate

theorem bignumToDouble_concat {msd : Nat} {ds : List Nat} {collected : Collected} {result : Flonum}
    (collects : collectBits (radix >>> 1) doubleMantissaDigits msd.size (1 <<< msd.size - 1) (Flonum.zero false) 0
      (msd :: ds.reverse) = some collected) (rounds : roundCollected collected = some result) :
    bignumToDouble ⟨negative, ds ++ [msd]⟩ = some (if negative then result.negate else result) := by
  have reversed : (ds ++ [msd]).reverse = msd :: ds.reverse := by simp
  rw [bignumToDouble, reversed]
  simp [collects, rounds]

theorem magnitude_concat (negative : Bool) (msd : Nat) (ds : List Nat) :
    magnitude ⟨negative, ds ++ [msd]⟩ = msd * radix ^ ds.length + Nat.ofDigits radix ds := by
  rw [magnitude, ofDigits_append, ofDigits_singleton]
  ring

theorem Normalized.cases (normalized : x.Normalized) : x = ⟨false, []⟩ ∨
    ∃ negative ds msd, x = ⟨negative, ds ++ [msd]⟩ ∧ msd ≠ 0 ∧ msd < radix ∧ Digits radix ds := by
  obtain ⟨negative, digits⟩ := x
  rcases eq_nil_or_concat digits with rfl | ⟨ds, msd, rfl⟩
  · have positive : negative = false := normalized.zero rfl
    exact .inl (by rw [positive])
  · rw [concat_eq_append] at *
    refine .inr ⟨negative, ds, msd, rfl, ?_, normalized.digits msd (by simp), ?_⟩
    · intro none
      exact normalized.leading (by simp [none])
    · exact fun d member => normalized.digits d (mem_append_left _ member)

theorem not_losesRounding_zero : ¬LosesRounding ⟨false, []⟩ := by
  rintro ⟨msd, last, -⟩
  exact nomatch last

theorem bignumToDouble_zero : bignumToDouble ⟨false, []⟩ = some (ofRational (toInt ⟨false, []⟩)) := by
  have zero : .ofRational ((0 : Int) : ℚ) = Flonum.zero false := by
    rw [Int.cast_zero, ofRational]
    simp [Flonum.ofMagnitude, Flonum.zero, BinaryFormat.round]
  exact congrArg some zero.symm

theorem bignumToDouble_rounds (normalized : x.Normalized) (int : x.digits.length * digitLength < 2 ^ 31) (other : ∀ msd, x.digits.getLast? = some msd →
    msd.size = 53 → x.digits.length = 1) : bignumToDouble x = some (ofRational x.toInt) := by
  rcases normalized.cases with rfl | ⟨negative, ds, msd, rfl, leading, msd_small, ds_digits⟩
  · exact bignumToDouble_zero
  · have positive : 0 < msd * radix ^ ds.length + ofDigits radix ds :=
      Nat.add_pos_left (mul_pos (pos_of_ne_zero leading) (Nat.pow_pos (by decide))) _
    have alone : msd.size ≠ 53 ∨ ds = [] := by
      by_cases size : msd.size = 53
      · have length := other msd (by simp) size
        rw [length_append, length_singleton] at length
        exact .inr (length_eq_zero_iff.mp (by omega))
      · exact .inl size
    rw [length_append, length_singleton, succ_mul] at int
    obtain ⟨collected, collects, rounds⟩ := roundCollected_rounds leading msd_small ds_digits (by omega) alone
    rw [toInt_eq_signed, magnitude_concat, ofRational_signed positive]
    exact bignumToDouble_concat collects rounds

theorem bignumToDouble_total (normalized : x.Normalized) (int : x.digits.length * digitLength < 2 ^ 31) :
    ∃ value, bignumToDouble x = some value := by
  rcases normalized.cases with rfl | ⟨negative, ds, msd, rfl, leading, msd_small, ds_digits⟩
  · exact ⟨_, bignumToDouble_zero⟩
  · by_cases truncates : msd.size = 53
    · obtain ⟨collected, collects, rounds⟩ := @roundCollected_truncates msd ds truncates
      exact ⟨_, bignumToDouble_concat collects rounds⟩
    · rw [length_append, length_singleton, succ_mul] at int
      obtain ⟨collected, collects, rounds⟩ := roundCollected_rounds leading msd_small ds_digits (by omega) (.inl truncates)
      exact ⟨_, bignumToDouble_concat collects rounds⟩

theorem length_int (normalized : x.Normalized) (small : x.magnitude < 2 ^ 1024) :
    x.digits.length * digitLength < 2 ^ 31 := by
  rcases normalized.cases with rfl | ⟨negative, ds, msd, rfl, leading, -, -⟩
  · decide
  · have power : radix ^ ds.length = 2 ^ (digitLength * ds.length) := (pow_mul 2 _ _).symm
    have part : 2 ^ (digitLength * ds.length) < 2 ^ 1024 := by
      rw [magnitude_concat] at small
      rw [← power]
      exact (Nat.le_mul_of_pos_left _ (pos_of_ne_zero leading)).trans_lt ((le_add_right _ _).trans_lt small)
    have bits := (Nat.pow_lt_pow_iff_right (by decide : 1 < 2)).mp part
    have length : digitLength = 62 := rfl
    rw [length_append, length_singleton]
    rw [length] at bits ⊢
    omega

/-- A normalized bignum is converted to the nearest double, except where the digits after a most significant one of 53
bits call for rounding up. -/
theorem bignumToDouble_nearest_iff {x : Bignum} (normalized : x.Normalized) (small : x.magnitude < overflowBound) :
    bignumToDouble x = some (ofRational x.toInt) ↔ ¬LosesRounding x := by
  have int := length_int normalized (small.trans_le overflowBound_le)
  rcases normalized.cases with rfl | ⟨negative, ds, msd, rfl, leading, msd_small, ds_digits⟩
  · exact iff_of_true bignumToDouble_zero not_losesRounding_zero
  · have positive : 0 < msd * radix ^ ds.length + ofDigits radix ds :=
      Nat.add_pos_left (mul_pos (pos_of_ne_zero leading) (Nat.pow_pos (by decide))) _
    rw [magnitude_concat] at small
    rw [losesRounding_iff]
    by_cases truncates : msd.size = 53 ∧ ds ≠ []
    · obtain ⟨exact_size, nonempty⟩ := truncates
      obtain ⟨collected, collects, rounds⟩ := @roundCollected_truncates msd ds exact_size
      have same : ∀ u v : Flonum, some (if negative then u.negate else u) = some (if negative then v.negate else v) ↔ u = v := by
        intro u v
        cases negative with
        | false => simp
        | true => simp [negate_injective]
      rw [length_append, length_singleton, succ_mul] at int
      rw [bignumToDouble_concat collects rounds, toInt_eq_signed, magnitude_concat, ofRational_signed positive, same,
        truncated_iff exact_size ds_digits nonempty (by omega) small]
      simp [exact_size, nonempty]
    · refine iff_of_true (bignumToDouble_rounds normalized int ?_) ?_
      · intro msd' last size
        have same : msd' = msd := by simpa using last.symm
        have none : ds = [] := by
          by_contra nonempty
          exact truncates ⟨same ▸ size, nonempty⟩
        simp [none]
      · rintro ⟨exact_size, nonempty, -⟩
        exact truncates ⟨exact_size, nonempty⟩

theorem small_of_lt (less : n < 2 ^ 200) : n < overflowBound := by
  have step : 2 ^ 200 ≤ 2 ^ 970 := pow_le_pow_right₀ one_le_two (by omega)
  have double : 2 ^ 970 + 2 ^ 970 ≤ overflowBound + 2 ^ 970 := by
    rw [overflowBound_add, ← mul_two, ← pow_succ]
    exact pow_le_pow_right₀ one_le_two (by omega)
  exact less.trans_le (step.trans (le_of_add_le_add_right double))

theorem bignumToDouble_nearest_short : bignumToDouble ⟨true, [1, 2 ^ 9, 1]⟩ =
    some (ofRational (toInt ⟨true, [1, 2 ^ 9, 1]⟩)) := by
  refine (bignumToDouble_nearest_iff (by decide) (small_of_lt (by decide))).mpr ?_
  rintro ⟨msd, last, size, -⟩
  obtain rfl := Option.some.inj last
  exact absurd size (by decide)

theorem truncated_not_nearest : ∃ x : Bignum, x = ⟨false, [2 ^ 61 + 1, 2 ^ 52]⟩ ∧ x.Normalized ∧
    x.magnitude < overflowBound ∧ bignumToDouble x ≠ some (ofRational x.toInt) := by
  refine ⟨_, rfl, by decide, small_of_lt (by decide), ?_⟩
  obtain ⟨collected, collects, rounds⟩ := @roundCollected_truncates (2 ^ 52) [2 ^ 61 + 1] (by decide)
  have up : roundsUp (2 ^ 52 * radix ^ 1 + (2 ^ 61 + 1)) (digitLength * 1 - 1) = true := by decide
  have iff := @truncated_iff (2 ^ 52) [2 ^ 61 + 1] (by decide) (by decide) (by decide) (by decide) (small_of_lt (by decide))
  intro same
  have down := iff.mp (Option.some.inj same)
  exact nomatch down.symm.trans up

end MitScheme.Microcode.Bignum
