import MitScheme.Runtime.Arithmetic.Comparisons
import MitScheme.Runtime.Arithmetic.Ratios

namespace MitScheme.Runtime.Arithmetic

open Library RealNumber
open Nat (size sqrt)

open Rationals (Rational)

def exactIntegerSqrtLoop (n i : ℕ) : Option (ℕ × ℤ) :=
  if i = 0 then none
  else
    let j := (i + n / i) / 2
    if i ≤ j then some (i, n - i * i) else exactIntegerSqrtLoop n j
termination_by i
decreasing_by omega

def initialRoot (n : ℕ) : ℕ :=
  let nBits := size n
  2 ^ (if nBits % 2 = 0 then nBits / 2 else nBits / 2 + 1)

def exactIntegerSqrt (n : ℤ) : Option (ℕ × ℤ) :=
  if n < 0 then none
  else if n = 0 then some (0, 0)
  else exactIntegerSqrtLoop n.toNat (initialRoot n.toNat)

def fxResult (n : ℤ) : Option ℤ := if isFixnum n then some n else none

def fxIndex (n : ℕ) : Option ℕ := if isFixnum n then some n else none

def fxQuotient (n d : ℕ) : Option ℕ := if d = 0 then none else fxIndex (n / d)

def fxsqrtLoop (n i : ℕ) : Option (ℕ × ℤ) := do
  let quotient ← fxQuotient n i
  let sum ← fxIndex (i + quotient)
  let j ← fxQuotient sum 2
  if _ : i ≤ j then
    let square ← fxIndex (i * i)
    let rest ← fxResult (n - square)
    some (i, rest)
  else fxsqrtLoop n j
termination_by i
decreasing_by omega

def fxHalf (nBits : ℕ) : Option ℕ := do
  let half ← fxQuotient nBits 2
  if nBits % 2 = 0 then some half else fxIndex (half + 1)

def fxsqrt (n : ℤ) : Option (ℕ × ℤ) :=
  if n < 0 ∨ isFixnum n = false then none
  else if n = 0 then some (0, 0)
  else do
    let half ← fxHalf (size n.toNat)
    let first ← fxIndex (2 ^ half)
    fxsqrtLoop n.toNat first

section
variable {n i : ℕ}

theorem newton_above (positive : 0 < i) : n < ((i + n / i) / 2 + 1) * ((i + n / i) / 2 + 1) := by
  obtain ⟨q, quotient⟩ : ∃ q, q = n / i := ⟨_, rfl⟩
  have below : n < i * (q + 1) := by
    rw [quotient]
    exact Nat.lt_mul_div_succ n positive
  rw [← quotient]
  obtain ⟨j, mean⟩ : ∃ j, j = (i + q) / 2 := ⟨_, rfl⟩
  have twice : i + (q + 1) ≤ 2 * (j + 1) := by omega
  rw [← mean]
  have square : (i + (q + 1)) * (i + (q + 1)) ≤ 2 * (j + 1) * (2 * (j + 1)) := Nat.mul_le_mul twice twice
  have mixed : 4 * (i * (q + 1)) ≤ (i + (q + 1)) * (i + (q + 1)) := by
    have means := four_mul_le_sq_add i (q + 1)
    rwa [pow_two, mul_assoc] at means
  have product : 2 * (j + 1) * (2 * (j + 1)) = 4 * ((j + 1) * (j + 1)) := by ring
  omega

theorem newton_end (positive : 0 < i) (ends : i ≤ (i + n / i) / 2) : i * i ≤ n := by
  have quotient : i ≤ n / i := by omega
  exact (Nat.le_div_iff_mul_le positive).mp quotient

theorem newton_pos (nonzero : 0 < n) (positive : 0 < i) : 0 < (i + n / i) / 2 := by
  by_cases one : i = 1
  · rw [one]
    omega
  · generalize n / i = q
    omega

theorem eq_sqrt (lower : i * i ≤ n) (upper : n < (i + 1) * (i + 1)) : i = sqrt n := Nat.eq_sqrt.mpr ⟨lower, upper⟩

theorem initialRoot_above (n : ℕ) : n < (initialRoot n + 1) * (initialRoot n + 1) ∧ 0 < initialRoot n := by
  have bits : n < 2 ^ size n := Nat.lt_size_self n
  unfold initialRoot
  dsimp only
  obtain ⟨half, rounded⟩ : ∃ half, half = (if size n % 2 = 0 then size n / 2 else size n / 2 + 1) := ⟨_, rfl⟩
  have enough : size n ≤ half + half := by
    rw [rounded]
    split <;> omega
  rw [← rounded]
  refine ⟨?_, Nat.two_pow_pos _⟩
  calc n < 2 ^ size n := bits
    _ ≤ 2 ^ (half + half) := Nat.pow_le_pow_right (by decide) enough
    _ = 2 ^ half * 2 ^ half := pow_add _ _ _
    _ ≤ (2 ^ half + 1) * (2 ^ half + 1) := Nat.mul_le_mul (Nat.le_succ _) (Nat.le_succ _)

theorem exactIntegerSqrtLoop_eq (nonzero : 0 < n) (positive : 0 < i) (above : n < (i + 1) * (i + 1)) :
    exactIntegerSqrtLoop n i = some (n.sqrt, (n : ℤ) - n.sqrt * n.sqrt) := by
  induction i using Nat.strong_induction_on with
  | _ i ih =>
    rw [exactIntegerSqrtLoop, if_neg positive.ne']
    by_cases ends : i ≤ (i + n / i) / 2
    · have root := eq_sqrt (newton_end positive ends) above
      simp only [ends, if_true]
      rw [← root]
    · simp only [ends, if_false]
      exact ih _ (not_le.mp ends) (newton_pos nonzero positive) (newton_above positive)

end

theorem exactIntegerSqrt_eq (n : ℕ) : exactIntegerSqrt n = some (n.sqrt, (n : ℤ) - n.sqrt * n.sqrt) := by
  unfold exactIntegerSqrt
  rw [if_neg (by omega)]
  by_cases zero : n = 0
  · rw [zero]
    rfl
  · obtain ⟨above, positive⟩ := initialRoot_above n
    rw [if_neg (by omega)]
    exact exactIntegerSqrtLoop_eq (pos_of_ne_zero zero) positive above

theorem fxIndex_eq {n : ℕ} (small : n < 2 ^ 57) : fxIndex n = some n := by
  refine if_pos ?_
  simp only [isFixnum, Bool.and_eq_true, decide_eq_true_eq]
  omega

theorem fxQuotient_eq {n d : ℕ} (positive : 0 < d) (small : n < 2 ^ 57) : fxQuotient n d = some (n / d) := by
  rw [fxQuotient, if_neg positive.ne']
  exact fxIndex_eq ((Nat.div_le_self n d).trans_lt small)

section
variable {α β : Type} {n i quotient sum j : ℕ}

theorem bind_of_eq {x : Option α} {a : α} {f : α → Option β} (same : x = some a) : (x >>= f) = f a := by
  subst same
  rfl

theorem fxsqrtLoop_more (divided : fxQuotient n i = some quotient) (added : fxIndex (i + quotient) = some sum)
    (halved : fxQuotient sum 2 = some j) (more : ¬i ≤ j) : fxsqrtLoop n i = fxsqrtLoop n j := by
  rw [fxsqrtLoop, bind_of_eq divided, bind_of_eq added, bind_of_eq halved, dif_neg more]

theorem fxsqrtLoop_end {rest : ℤ} {square : ℕ} (divided : fxQuotient n i = some quotient)
    (added : fxIndex (i + quotient) = some sum) (halved : fxQuotient sum 2 = some j) (ends : i ≤ j)
    (multiplied : fxIndex (i * i) = some square) (subtracted : fxResult (n - square) = some rest) :
    fxsqrtLoop n i = some (i, rest) := by
  rw [fxsqrtLoop, bind_of_eq divided, bind_of_eq added, bind_of_eq halved, dif_pos ends, bind_of_eq multiplied,
    bind_of_eq subtracted]

end

theorem fxsqrtLoop_eq {n i : ℕ} (fixnum : n < 2 ^ 57) (nonzero : 0 < n) (positive : 0 < i) (small : i ≤ 2 ^ 29)
    (above : n < (i + 1) * (i + 1)) : fxsqrtLoop n i = some (n.sqrt, (n : ℤ) - n.sqrt * n.sqrt) := by
  induction i using Nat.strong_induction_on with
  | _ i ih =>
    have quotient : n / i < i + 3 := by
      rw [Nat.div_lt_iff_lt_mul positive]
      have square : (i + 1) * (i + 1) + i = (i + 3) * i + 1 := by ring
      omega
    have divided := fxQuotient_eq positive fixnum
    have added : fxIndex (i + n / i) = some (i + n / i) := fxIndex_eq (by omega)
    have halved : fxQuotient (i + n / i) 2 = some ((i + n / i) / 2) := fxQuotient_eq (by decide) (by omega)
    by_cases ends : i ≤ (i + n / i) / 2
    · have square := newton_end positive ends
      have root := eq_sqrt square above
      have rest : fxResult ((n : ℤ) - (i * i : ℕ)) = some ((n : ℤ) - (i * i : ℕ)) := by
        refine if_pos ?_
        simp only [isFixnum, Bool.and_eq_true, decide_eq_true_eq]
        omega
      rw [fxsqrtLoop_end divided added halved ends (fxIndex_eq (square.trans_lt fixnum)) rest, ← root, Nat.cast_mul]
    · rw [fxsqrtLoop_more divided added halved ends]
      exact ih _ (not_le.mp ends) (newton_pos nonzero positive) (by omega) (newton_above positive)

theorem fxHalf_eq {nBits : ℕ} (small : nBits ≤ 57) :
    fxHalf nBits = some (if nBits % 2 = 0 then nBits / 2 else nBits / 2 + 1) := by
  have divided : fxQuotient nBits 2 = some (nBits / 2) := fxQuotient_eq (by decide) (by omega)
  have added : fxIndex (nBits / 2 + 1) = some (nBits / 2 + 1) := fxIndex_eq (by omega)
  unfold fxHalf
  rw [bind_of_eq divided, added]
  split <;> rfl

theorem fxsqrt_some {n first half : ℕ} (inside : isFixnum n = true) (nonzero : n ≠ 0)
    (halved : fxHalf (size n) = some half) (shifted : fxIndex (2 ^ half) = some first) :
    fxsqrt n = fxsqrtLoop n first := by
  unfold fxsqrt
  rw [inside, if_neg (by simp), if_neg (by omega), Int.toNat_natCast]
  rw [bind_of_eq halved, bind_of_eq shifted]

theorem fxsqrt_eq {n : ℕ} (fixnum : n < 2 ^ 57) : fxsqrt n = exactIntegerSqrt n := by
  have inside : isFixnum n = true := by
    simp only [isFixnum, Bool.and_eq_true, decide_eq_true_eq]
    omega
  by_cases zero : n = 0
  · rw [zero]
    rfl
  · have bits : size n ≤ 57 := Nat.size_le.mpr fixnum
    have halved := fxHalf_eq bits
    obtain ⟨above, positive⟩ := initialRoot_above n
    have small : initialRoot n ≤ 2 ^ 29 := by
      refine Nat.pow_le_pow_right (by decide) ?_
      split <;> omega
    have shifted := fxIndex_eq (small.trans_lt (by decide))
    rw [fxsqrt_some inside zero halved shifted, exactIntegerSqrt_eq]
    exact fxsqrtLoop_eq fixnum (pos_of_ne_zero zero) positive small above

/-- A rational on the same side of every flonum, and of every middle of two flonums, as the square root of a value of a
flonum. -/
def rootEstimate (q : ℚ) : ℚ :=
  let n := ⌊q * 2 ^ 1200⌋.toNat
  let s := sqrt n
  if s * s = n then s / 2 ^ 600 else (s + 1 / 2) / 2 ^ 600

namespace Flonum

/-- `flo:sqrt`. -/
def sqrt (x : Flonum) : Flonum :=
  if x.isNan then x.quieted
  else if x.word = 0 then x
  else if x.negative then invalid
  else if x.isInfinite then x
  else ofMagnitude false (rootEstimate (binary64.magnitude x.word))

end Flonum

/-- The exact root of a ratio inside `rat:sqrt`, by those of its parts. -/
def ratioRoot (n d : ℤ) (guess : Flonum) : Option RealNumber := do
  let (ns, ne) ← exactIntegerSqrt n
  if ne = 0 then
    let (ds, de) ← exactIntegerSqrt d
    if de = 0 then
      let root ← ((Rational.integer ns).divide (.integer ds)).toOption
      some (.rational root)
    else some (.flonum guess)
  else some (.flonum guess)

/-- `rat:sqrt`; it is `none` where a procedure that it calls signals an error. -/
def ratSqrt (x : Rational) : Option RealNumber :=
  let guess := (toInexact x).sqrt
  match x with
  | .integer x => do
    let n ← guess.roundToExact.toOption
    if x = n * n then some (.rational (.integer n))
    else
      let (s, e) ← exactIntegerSqrt x
      some (if e = 0 then .rational (.integer s) else .flonum guess)
  | .ratnum n d => do
    let q ← guess.floToRational
    if (Rational.ratnum n d).equal q.square then some (.rational q)
    else ratioRoot (Rational.ratnum n d).numerator (Rational.ratnum n d).denominator guess

/-- The square root is returned without an error, and it is exact for the squares of the rationals. -/
def SquareRoot (x : Rational) : Prop :=
  ∃ r, ratSqrt x = some r ∧ ((∃ q, r = .rational q) ↔ IsSquare x.value) ∧
    ∀ q, r = .rational q → q.Canonical ∧ q.value * q.value = x.value

theorem rootEstimate_bounds {q : ℚ} {n : ℕ} (whole : ⌊q * 2 ^ 1200⌋.toNat = n) :
    (n.sqrt : ℚ) / 2 ^ 600 ≤ rootEstimate q ∧ rootEstimate q < (n.sqrt + 1) / 2 ^ 600 ∧
      (rootEstimate q = (n.sqrt : ℚ) / 2 ^ 600 ↔ n.sqrt * n.sqrt = n) := by
  have scale : (0 : ℚ) < 2 ^ 600 := by positivity
  unfold rootEstimate
  simp only [whole]
  split
  · rename_i square
    refine ⟨le_rfl, ?_, iff_of_true rfl square⟩
    exact div_lt_div_of_pos_right (lt_add_one _) scale
  · rename_i other
    refine ⟨?_, ?_, iff_of_false ?_ other⟩
    · exact div_le_div_of_nonneg_right (by linarith) scale.le
    · exact div_lt_div_of_pos_right (by linarith) scale
    · intro same
      have equal := (div_left_inj' scale.ne').mp same
      linarith

namespace Flonum

variable {x : Flonum}

theorem magnitude_lt (finite : x.isFinite = true) : binary64.magnitude x.word < 2 ^ (1024 : ℤ) := by
  have holds := BinaryFormat.holds_word (of_decide_eq_true finite)
  obtain ⟨m, e, held⟩ : ∃ m e, binary64.Holds (binary64.magnitude x.word) m e := ⟨_, _, holds⟩
  have upper : e ≤ 1023 := held.upper
  exact held.value.trans_lt ((BinaryFormat.scaled_lt held.short).trans_le (two_zpow_le (by omega)))

theorem rootEstimate_lt {q : ℚ} (small : q < 2 ^ (1024 : ℤ)) : rootEstimate q < binary64.overflow := by
  obtain ⟨n, whole⟩ : ∃ n, ⌊q * 2 ^ 1200⌋.toNat = n := ⟨_, rfl⟩
  have bound : n < 2 ^ 1112 * 2 ^ 1112 := by
    rw [← whole, ← pow_add, Int.toNat_lt' (by positivity), Int.floor_lt]
    push_cast
    calc q * 2 ^ 1200 < 2 ^ (1024 : ℤ) * 2 ^ 1200 := mul_lt_mul_of_pos_right small (by positivity)
      _ = 2 ^ (1112 + 1112) := by
        rw [show (1024 : ℤ) = ((1024 : ℕ) : ℤ) from rfl, zpow_natCast, ← pow_add]
  have root : n.sqrt + 1 ≤ 2 ^ 1112 := Nat.sqrt_lt.mpr bound
  refine (rootEstimate_bounds whole).2.1.trans_le (le_trans ?_ overflow_large)
  calc ((n.sqrt : ℚ) + 1) / 2 ^ 600 ≤ 2 ^ 1112 / 2 ^ 600 :=
        div_le_div_of_nonneg_right (by exact_mod_cast root) (by positivity)
    _ = 2 ^ (512 : ℤ) := by
      rw [div_eq_iff (by positivity), show (512 : ℤ) = ((512 : ℕ) : ℤ) from rfl, zpow_natCast, ← pow_add]
    _ ≤ 2 ^ (1023 : ℤ) := two_zpow_le (by decide)

theorem sqrt_finite (finite : x.isFinite = true) (positive : x.negative = false) : x.sqrt.isFinite = true := by
  unfold sqrt
  rw [isNan_of_finite finite, if_neg Bool.false_ne_true]
  split
  · exact finite
  · rw [positive, isInfinite_of_finite finite]
    exact ofMagnitude_finite (rootEstimate_lt (magnitude_lt finite))

theorem sqrt_not_finite (infinite : x.isFinite = false) : x.sqrt.isFinite = false := by
  have large : binary64.infinity ≤ x.word := not_lt.mp (of_decide_eq_false infinite)
  have positive : 0 < binary64.infinity := by decide
  unfold sqrt
  split
  · refine decide_eq_false ((large.trans ?_).not_gt)
    exact Nat.left_le_or
  · rw [if_neg (by omega)]
    split
    · decide
    · split
      · exact infinite
      · rename_i number _ finite
        rcases isFinite_or_infinite (Bool.not_eq_true _ ▸ number : x.isNan = false) with finite' | ⟨-, infinite'⟩
        · rw [finite'] at infinite
          cases infinite
        · exact absurd infinite' finite

theorem roundToExact_none (infinite : x.isFinite = false) : x.roundToExact.toOption = none := by
  unfold roundToExact
  rw [infinite]
  rfl

theorem floToRational_none (infinite : x.isFinite = false) : x.floToRational = none := by
  unfold floToRational
  rw [infinite]
  rfl

theorem roundToExact_some (finite : x.isFinite = true) : ∃ n, x.roundToExact.toOption = some n := by
  unfold roundToExact
  rw [finite]
  exact ⟨_, rfl⟩

end Flonum

theorem exactIntegerSqrt_isSquare {n : ℤ} (nonneg : 0 ≤ n) :
    ∃ s e, exactIntegerSqrt n = some (s, e) ∧ (e = 0 ↔ IsSquare n) ∧ (e = 0 → (s : ℤ) * s = n) := by
  obtain ⟨m, rfl⟩ := Int.eq_ofNat_of_zero_le nonneg
  refine ⟨_, _, exactIntegerSqrt_eq m, ?_, ?_⟩
  · rw [Int.isSquare_natCast_iff, sub_eq_zero]
    constructor
    · intro same
      exact ⟨m.sqrt, by exact_mod_cast same⟩
    · rintro ⟨r, same⟩
      rw [same, Nat.sqrt_eq]
      rfl
  · intro zero
    exact (sub_eq_zero.mp zero).symm

section
variable {x q : Rational} {guess : Flonum}

theorem SquareRoot.exact (found : ratSqrt x = some (.rational q)) (canonical : q.Canonical)
    (square : q.value * q.value = x.value) : SquareRoot x := by
  refine ⟨_, found, iff_of_true ⟨q, rfl⟩ ⟨q.value, square.symm⟩, ?_⟩
  intro r same
  cases same
  exact ⟨canonical, square⟩

theorem SquareRoot.inexact (found : ratSqrt x = some (.flonum guess)) (other : ¬IsSquare x.value) : SquareRoot x := by
  refine ⟨_, found, iff_of_false ?_ other, ?_⟩
  · rintro ⟨r, same⟩
    cases same
  · intro r same
    cases same

end

theorem ratSqrt_integer {n : ℤ} (nonneg : 0 ≤ n)
    (finite : ((toInexact (.integer n)).sqrt).isFinite = true) : SquareRoot (.integer n) := by
  obtain ⟨m, rounded⟩ := Flonum.roundToExact_some finite
  obtain ⟨s, e, found, square, root⟩ := exactIntegerSqrt_isSquare nonneg
  by_cases guessed : n = m * m
  · have result : ratSqrt (.integer n) = some (.rational (.integer m)) := by
      unfold ratSqrt
      simp only
      rw [bind_of_eq rounded, if_pos guessed]
    refine .exact result trivial ?_
    rw [Rational.integer_value, Rational.integer_value, guessed, Int.cast_mul]
  · have result : ratSqrt (.integer n) = some (if e = 0 then .rational (.integer s)
        else .flonum (toInexact (.integer n)).sqrt) := by
      unfold ratSqrt
      simp only
      rw [bind_of_eq rounded, if_neg guessed, bind_of_eq found]
    by_cases zero : e = 0
    · rw [if_pos zero] at result
      refine .exact result trivial ?_
      rw [Rational.integer_value, Rational.integer_value, ← root zero, Int.cast_mul]
    · rw [if_neg zero] at result
      refine .inexact result ?_
      rw [Rational.integer_value, Rat.isSquare_intCast_iff, ← square]
      exact zero

theorem ratio_isSquare_iff {n d : ℤ} (canonical : (Rational.ratnum n d).Canonical) :
    IsSquare (Rational.ratnum n d).value ↔ IsSquare n ∧ IsSquare d := by
  have positive := canonical.positive
  have reduced : n.natAbs.Coprime d.natAbs := Int.isCoprime_iff_gcd_eq_one.mp canonical.2
  rw [Rational.ratnum_value, Rat.isSquare_iff, Rat.num_div_eq_of_coprime positive reduced]
  have denominator := Rat.den_div_eq_of_coprime positive reduced
  rw [← Int.isSquare_natCast_iff, denominator]

section
variable {n d ne de : ℤ} {ns ds : ℕ} {guess : Flonum}

section
variable (found : exactIntegerSqrt n = some (ns, ne))
include found

theorem ratioRoot_numerator (rest : ne ≠ 0) : ratioRoot n d guess = some (.flonum guess) := by
  rw [ratioRoot, bind_of_eq found]
  simp only
  rw [if_neg rest]

theorem ratioRoot_denominator (square : ne = 0)
    (found' : exactIntegerSqrt d = some (ds, de)) (rest : de ≠ 0) : ratioRoot n d guess = some (.flonum guess) := by
  rw [ratioRoot, bind_of_eq found]
  simp only
  rw [if_pos square, bind_of_eq found']
  rw [if_neg rest]

theorem ratioRoot_exact {root : Rational} (square : ne = 0) (found' : exactIntegerSqrt d = some (ds, de))
    (square' : de = 0) (divided : (Rational.integer ns).divide (.integer ds) = .ok root) : ratioRoot n d guess =
    some (.rational root) := by
  rw [ratioRoot, bind_of_eq found]
  simp only
  rw [if_pos square, bind_of_eq found']
  rw [if_pos square', divided]
  rfl

end

end

theorem ratSqrt_ratnum {n d : ℤ} (canonical : (Rational.ratnum n d).Canonical) (nonneg : 0 ≤ n)
    (finite : ((toInexact (.ratnum n d)).sqrt).isFinite = true) : SquareRoot (.ratnum n d) := by
  obtain ⟨q, converted, represents⟩ := Flonum.floToRational_represents finite
  have squared := Rational.square_represents represents.1
  have result : ratSqrt (.ratnum n d) = if (Rational.ratnum n d).equal q.square then some (.rational q)
      else ratioRoot n d (toInexact (.ratnum n d)).sqrt := bind_of_eq converted
  by_cases guessed : (Rational.ratnum n d).equal q.square = true
  · rw [if_pos guessed] at result
    refine .exact result represents.1 ?_
    rw [← squared.2]
    exact ((Rational.equal_iff canonical squared.1).mp guessed).symm
  · have shape := ratio_isSquare_iff canonical
    rw [if_neg guessed] at result
    obtain ⟨ns, ne, found, square, root⟩ := exactIntegerSqrt_isSquare nonneg
    obtain ⟨ds, de, found', square', root'⟩ := exactIntegerSqrt_isSquare canonical.positive.le
    by_cases zero : ne = 0
    · by_cases zero' : de = 0
      · have divisor : (Rational.integer ds).value ≠ 0 := by
          rw [Rational.integer_value, Int.cast_ne_zero]
          intro none
          have denominator := root' zero'
          rw [none] at denominator
          exact canonical.positive.ne denominator
        obtain ⟨z, divided, quotient⟩ :=
          @Rational.divide_represents (.integer ns) (.integer ds) trivial trivial divisor
        rw [ratioRoot_exact found zero found' zero' divided] at result
        refine .exact result quotient.1 ?_
        rw [quotient.2, div_mul_div_comm, Rational.ratnum_value, ← root zero, ← root' zero']
        push_cast
        rfl
      · rw [ratioRoot_denominator found zero found' zero'] at result
        refine .inexact result ?_
        rw [shape, ← square']
        exact fun both => zero' both.2
    · rw [ratioRoot_numerator found zero] at result
      refine .inexact result ?_
      rw [shape, ← square]
      exact fun both => zero both.1

theorem ratSqrt_none {x : Rational} (infinite : ((toInexact x).sqrt).isFinite = false) : ratSqrt x = none := by
  unfold ratSqrt
  cases x with
  | integer n => simp [Flonum.roundToExact_none infinite]
  | ratnum n d => simp [Flonum.floToRational_none infinite]

/-- The digits of an integer are counted. The exponent of a ratio is an int, and not both of its parts are so long that
their numbers of digits wrap. -/
def Unwrapped : Rational → Prop
  | .integer n => Counted n
  | .ratnum n d => Sized |(n : ℚ) / d| ∧ ¬(Wraps n ∧ Wraps d)

theorem toInexact_finite {x : Rational} (canonical : x.Canonical) (nonneg : 0 ≤ x.value) (unwrapped : Unwrapped x) :
    ((toInexact x).isFinite = true ↔ x.value < binary64.overflow) ∧ (toInexact x).negative = false := by
  cases x with
  | integer n =>
    rw [Rational.integer_value, Int.cast_nonneg_iff] at nonneg
    obtain ⟨m, rfl⟩ := Int.eq_ofNat_of_zero_le nonneg
    obtain ⟨finite, sign⟩ := intToInexact_finite unwrapped
    rw [Rational.integer_value, overflow_binary64, Int.cast_natCast, Nat.cast_lt]
    exact ⟨finite, sign.trans (decide_eq_false (by omega))⟩
  | ratnum n d =>
    have positive := canonical.positive
    obtain ⟨m, rfl⟩ := Int.eq_ofNat_of_zero_le positive.le
    obtain ⟨sized, short⟩ := unwrapped
    have hd : 0 < m := by omega
    have divisor : (0 : ℚ) < m := by exact_mod_cast hd
    rw [Int.cast_natCast] at sized
    rw [Rational.ratnum_value, Int.cast_natCast] at nonneg ⊢
    have above : 0 ≤ n := by
      rwa [le_div_iff₀ divisor, zero_mul, Int.cast_nonneg_iff] at nonneg
    obtain ⟨below, sign⟩ := ratioToFlonum_finite canonical.nonzero hd sized short
    rw [abs_of_nonneg nonneg] at below
    exact ⟨below, sign.trans (decide_eq_false (by omega))⟩

theorem ratSqrt_iff {x : Rational} (canonical : x.Canonical) (nonneg : 0 ≤ x.value) (unwrapped : Unwrapped x) :
    SquareRoot x ↔ x.value < binary64.overflow := by
  obtain ⟨converted, sign⟩ := toInexact_finite canonical nonneg unwrapped
  rw [← converted]
  constructor
  · rintro ⟨r, found, -⟩
    by_contra infinite
    rw [ratSqrt_none (Flonum.sqrt_not_finite (Bool.not_eq_true _ ▸ infinite))] at found
    cases found
  · intro finite
    have root := Flonum.sqrt_finite finite sign
    cases x with
    | integer n =>
      rw [Rational.integer_value, Int.cast_nonneg_iff] at nonneg
      exact ratSqrt_integer nonneg root
    | ratnum n d =>
      refine ratSqrt_ratnum canonical ?_ root
      have divisor : (0 : ℚ) < d := by exact_mod_cast canonical.positive
      rwa [Rational.ratnum_value, le_div_iff₀ divisor, zero_mul, Int.cast_nonneg_iff] at nonneg

/-- The roots of integers and fixnums are right, and that of a rational is below the overflow threshold. -/
theorem exact_square_roots {n m : ℕ} {x : Rational} (fixnum : m < 2 ^ 57) (canonical : x.Canonical) (nonneg : 0 ≤ x.value) :
    (∃ s : ℕ, exactIntegerSqrt n = some (s, (n : ℤ) - s * s) ∧ s * s ≤ n ∧ n < (s + 1) * (s + 1)) ∧
      fxsqrt m = exactIntegerSqrt m ∧ (x.value < binary64.overflow ∧ Unwrapped x → SquareRoot x) ∧
      (Unwrapped x → SquareRoot x → x.value < binary64.overflow) :=
  ⟨⟨n.sqrt, exactIntegerSqrt_eq n, Nat.sqrt_le n, Nat.lt_succ_sqrt n⟩, fxsqrt_eq fixnum,
    fun ⟨small, unwrapped⟩ => (ratSqrt_iff canonical nonneg unwrapped).mpr small,
    fun unwrapped root => (ratSqrt_iff canonical nonneg unwrapped).mp root⟩

theorem exact_square_roots_ten : (∃ s : ℕ, exactIntegerSqrt (10 : ℕ) = some (s, ((10 : ℕ) : ℤ) - s * s) ∧ s * s ≤ 10 ∧
    10 < (s + 1) * (s + 1)) ∧ fxsqrt (2 ^ 57 - 1 : ℕ) = exactIntegerSqrt (2 ^ 57 - 1 : ℕ) ∧ SquareRoot (.ratnum 9 4) := by
  have canonical : (Rational.ratnum 9 4).Canonical := ⟨by decide, Int.isCoprime_iff_gcd_eq_one.mpr (by decide)⟩
  have value : (Rational.ratnum 9 4).value = 9 / 4 := rfl
  have small : (9 / 4 : ℚ) < 2 ^ (2 : ℤ) := by norm_num
  have unwrapped : Unwrapped (.ratnum 9 4) := by
    have magnitude : |((9 : ℤ) : ℚ) / (4 : ℤ)| = 9 / 4 := by norm_num [abs_of_pos]
    have bounds := @log_of_bounds (9 / 4) 1 2 (by norm_num) small
    refine ⟨?_, fun both => nomatch both.1.1⟩
    rw [magnitude]
    exact sized_of_log (by norm_num) (by omega) (by omega)
  obtain ⟨ten, fixnum, root, -⟩ := @exact_square_roots 10 (2 ^ 57 - 1) (.ratnum 9 4) (by decide) canonical
    (by rw [value]; norm_num)
  exact ⟨ten, fixnum, root ⟨small.trans ((two_zpow_lt (by decide)).trans_le overflow_large), unwrapped⟩⟩

theorem ratSqrt_overflow : ¬SquareRoot (.integer (2 ^ 1024)) := by
  have value : (Rational.integer (2 ^ 1024)).value = 2 ^ (1024 : ℤ) := by
    rw [Rational.integer_value]
    push_cast
    rfl
  have counted : Counted (2 ^ 1024) := by
    have normalized := toBignum_normalized (pow_ne_zero 1024 two_ne_zero : (2 : ℤ) ^ 1024 ≠ 0)
    have short : (toBignum (2 ^ 1024)).digits.length ≤ 17 := by
      rw [normalized.length_le_iff, toBignum_magnitude, Int.natAbs_pow, Microcode.Bignum.radix, ← pow_mul]
      exact Nat.pow_lt_pow_right (by decide) (by decide)
    exact short.trans_lt (by decide)
  rw [@ratSqrt_iff (.integer (2 ^ 1024)) trivial (by rw [value]; exact (two_zpow_pos _).le) counted, value, overflow_binary64]
  intro small
  have bound : (Microcode.Bignum.overflowBound : ℚ) ≤ 2 ^ ((1024 : ℕ) : ℤ) := by
    exact_mod_cast overflowBound_bounds.2
  exact absurd small (bound.not_gt)

end MitScheme.Runtime.Arithmetic
