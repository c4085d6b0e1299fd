import MitScheme.Runtime.NumberParser.Decimals

namespace MitScheme.Runtime.NumberParser

open Library Microcode Arithmetic BinaryFormat Bignum Flonum

variable {n : ℕ} {e : ℤ}

theorem intToFlonum_of_some {x : Flonum} (converted : integerToFlonumRounded n = some x) : intToFlonum n = .ok x :=
  congrArg flonumOrError converted

theorem intToInexact_of_some {x : Flonum} (converted : integerToFlonumRounded n = some x) : intToInexact n = x := by
  unfold intToInexact
  rw [converted, Option.getD_some]

theorem integerToFlonumRounded_total (small : n < overflowBound) : ∃ x, integerToFlonumRounded n = some x := by
  unfold integerToFlonumRounded
  by_cases fixnum : isFixnum n = true
  · exact ⟨_, if_pos fixnum⟩
  · have nonzero : (n : ℤ) ≠ 0 := by
      intro zero
      rw [zero] at fixnum
      exact fixnum rfl
    have bound := small.trans_le overflowBound_bounds.2
    have accepted := bignumToDoubleP_of_small nonzero (by rwa [Int.natAbs_natCast])
    obtain ⟨x, result⟩ := bignumToDouble_total (toBignum_normalized nonzero)
      (length_of_accepted nonzero (counted_of_small bound) accepted)
    exact ⟨x, by rw [if_neg fixnum, if_pos accepted, result]⟩

theorem intToFlonum_small (small : n < overflowBound) :
    intToFlonum n = .ok (intToInexact n) ∧ (intToInexact n).isFinite = true ∧ (intToInexact n).negative = false := by
  obtain ⟨x, converted⟩ := integerToFlonumRounded_total small
  obtain ⟨finite, sign⟩ := intToInexact_finite (counted_of_small (small.trans_le overflowBound_bounds.2) : Counted n)
  rw [intToInexact_of_some converted] at finite sign ⊢
  exact ⟨intToFlonum_of_some converted, finite.mpr small, sign.trans (decide_eq_false (by omega))⟩

/-- Past the overflow threshold there is an error: no flonum is made, or an infinite one, which is not scaled. -/
theorem ldexp_large (large : overflowBound ≤ n) (counted : Counted n) (e : ℤ) :
    ∃ failure, (intToFlonum n >>= fun x => ldexp x e) = .error failure := by
  cases converted : integerToFlonumRounded n with
  | none =>
    have refused : intToFlonum n = .error (.error (.badRange 1 "integer->flonum")) := congrArg flonumOrError converted
    refine ⟨.error (.badRange 1 "integer->flonum"), ?_⟩
    rw [refused]
    rfl
  | some x =>
    have finite := (intToInexact_finite counted).1
    rw [intToInexact_of_some converted] at finite
    have infinite : ¬x.isFinite = true := fun is => absurd (finite.mp is) (large.not_gt)
    refine ⟨.error (.wrongType 1 "flonum-denormalize"), ?_⟩
    rw [intToFlonum_of_some converted]
    exact if_neg infinite

theorem magnitude_zero : binary64.magnitude 0 = 0 := magnitude_eq_zero.mpr rfl

theorem log_nat (positive : 0 < n) : binary64.emin ≤ Int.log 2 (n : ℚ) := by
  have least : binary64.emin = -1022 := rfl
  have one : (1 : ℚ) ≤ n := by exact_mod_cast positive
  have bound := (Int.zpow_le_iff_le_log (b := 2) (x := 0) (by norm_num) (zero_lt_one.trans_le one)).mp (by rwa [zpow_zero])
  omega

theorem overflow_nat (small : n < overflowBound) : (n : ℚ) < binary64.overflow := by
  rw [overflow_binary64]
  exact_mod_cast small

theorem magnitude_rounded (small : n < overflowBound) (whole : ¬Truncated n) :
    binary64.magnitude (intToInexact n).word = binary64.toDigits n := by
  have counted : Counted n := counted_of_small (small.trans_le overflowBound_bounds.2)
  rw [(intToInexact_nearest_iff counted).mpr whole, Int.cast_natCast, ofRational_nonneg (Nat.cast_nonneg _)]
  rcases eq_zero_or_pos n with rfl | positive
  · have zero : binary64.round ((0 : ℕ) : ℚ) = 0 := by
      unfold BinaryFormat.round
      rw [if_pos (by norm_num)]
    have digits : binary64.toDigits ((0 : ℕ) : ℚ) = 0 := by
      rw [toDigits, Nat.cast_zero, zero_div]
      have none : roundHalfEven 0 = 0 := roundHalfEven_intCast 0
      rw [none, Int.cast_zero, zero_mul]
    rw [digits]
    exact (congrArg binary64.magnitude zero).trans magnitude_zero
  · exact magnitude_round (by exact_mod_cast positive) (log_nat positive) (round_lt_infinity (overflow_nat small))

theorem truncated_bits (truncated : Truncated n) : ∃ k : ℕ, Int.log 2 (n : ℚ) = 52 + k ∧
    truncation n = n / 2 ^ k * 2 ^ k ∧ 2 ^ 52 ≤ n / 2 ^ k ∧ truncation n < n ∧ n < truncation n + 2 ^ k := by
  obtain ⟨-, j, positive, size, up⟩ := truncated
  have length : digitLength = 62 := rfl
  obtain ⟨k, bits⟩ : ∃ k, k = digitLength * j := ⟨_, rfl⟩
  rw [← bits] at size up
  have some_bits : 0 < k := by
    rw [bits, length]
    omega
  have power : 0 < 2 ^ k := Nat.two_pow_pos k
  have low : 2 ^ (52 + k) ≤ n := Nat.lt_size.mp (by omega)
  have high : n < 2 ^ (53 + k) := size ▸ Nat.lt_size_self n
  have cut : truncation n = n / 2 ^ k * 2 ^ k := by rw [truncation, size, Nat.add_sub_cancel_left]
  have split := Nat.div_add_mod n (2 ^ k)
  have rest : n % 2 ^ k ≠ 0 := by
    intro none
    rw [none, add_zero] at split
    have unset : n.testBit (k - 1) = false := by
      rw [← split, Nat.testBit_two_pow_mul]
      simp
      omega
    unfold roundsUp at up
    rw [unset] at up
    cases up
  refine ⟨k, ?_, cut, ?_, ?_, ?_⟩
  · apply log_eq
    · exact_mod_cast low
    · rw [show (52 : ℤ) + k + 1 = ((53 + k : ℕ) : ℤ) by push_cast; ring]
      exact_mod_cast high
  · rw [Nat.le_div_iff_mul_le power, ← pow_add]
    exact low
  · rw [cut, mul_comm]
    omega
  · rw [cut, mul_comm]
    omega

theorem truncation_pos (truncated : Truncated n) : 0 < truncation n := by
  obtain ⟨k, -, cut, digits, -⟩ := truncated_bits truncated
  rw [cut]
  exact mul_pos (by omega) (Nat.two_pow_pos k)

theorem log_truncation (truncated : Truncated n) : Int.log 2 (truncation n : ℚ) = Int.log 2 (n : ℚ) := by
  obtain ⟨k, log, cut, digits, less, -⟩ := truncated_bits truncated
  have upper := Int.lt_zpow_succ_log_self (b := 2) (by norm_num) (n : ℚ)
  have less' : ((truncation n : ℕ) : ℚ) < n := by exact_mod_cast less
  refine log_eq ?_ (less'.trans upper)
  rw [log, show (52 : ℤ) + k = ((52 + k : ℕ) : ℤ) by rfl, cut]
  have whole : 2 ^ (52 + k) ≤ n / 2 ^ k * 2 ^ k := by
    rw [pow_add]
    exact Nat.mul_le_mul_right _ digits
  exact_mod_cast whole

theorem magnitude_truncated (truncated : Truncated n) :
    binary64.magnitude (intToInexact n).word = (truncation n : ℕ) := by
  have converted := @intToInexact_truncated n truncated
  obtain ⟨k, log, cut, digits, less, -⟩ := truncated_bits truncated
  have positive : (0 : ℚ) < (truncation n : ℕ) := by exact_mod_cast truncation_pos truncated
  have short : n / 2 ^ k < 2 ^ 53 := by
    have upper := Int.lt_zpow_succ_log_self (b := 2) (by norm_num) (n : ℚ)
    rw [log, show (52 : ℤ) + k + 1 = ((53 + k : ℕ) : ℤ) by push_cast; ring] at upper
    have bound : n < 2 ^ (53 + k) := by exact_mod_cast upper
    apply Nat.div_lt_of_lt_mul
    rwa [← pow_add, add_comm]
  have value : ((truncation n : ℕ) : ℚ) = (n / 2 ^ k : ℕ) * 2 ^ (k : ℤ) := by
    rw [cut]
    push_cast
    rfl
  have small : ((truncation n : ℕ) : ℚ) < 2 ^ (binary64.emax + 1 : ℤ) := by
    have bound : ((n : ℕ) : ℚ) < 2 ^ ((1024 : ℕ) : ℤ) := by
      rw [zpow_natCast]
      exact_mod_cast truncated.1.trans_le overflowBound_bounds.2
    exact (by exact_mod_cast less : ((truncation n : ℕ) : ℚ) < n).trans bound
  have fits : binary64.Fits ((truncation n : ℕ) : ℚ) := by
    rw [value] at small ⊢
    exact fits_of short (by have least : binary64.emin - (binary64.trailing : ℤ) = -1074 := rfl; omega) small
  rw [converted]
  exact (fits.round positive.le).2

/-- The digits must not be rounded twice, and truncated ones not end in a middle from which rounding goes down, unless
another exponent makes the digits vanish too. -/
structure ShortcutNearest (n : ℕ) (e : ℤ) : Prop where
  whole : ¬Truncated n → if toCInt e = e then ¬binary64.DoubleRounds (n * 2 ^ e)
    else binary64.toDigits n * 2 ^ toCInt e ≤ 2 ^ (-1075 : ℤ)
  truncated : Truncated n → if toCInt e = e then
      Int.log 2 ((n : ℚ) * 2 ^ e) < binary64.emin ∧ ∀ m : ℕ, m % 2 = 0 → (truncation n : ℚ) * 2 ^ e ≠ binary64.middle m
    else (truncation n : ℚ) * 2 ^ toCInt e ≤ 2 ^ (-1075 : ℤ)

theorem round_zero : binary64.round 0 = 0 := if_pos le_rfl

theorem toDigits_zero : binary64.toDigits 0 = 0 := by
  have none : roundHalfEven 0 = 0 := roundHalfEven_intCast 0
  rw [toDigits, zero_div, none, Int.cast_zero, zero_mul]

theorem not_doubleRounds_zero : ¬binary64.DoubleRounds 0 := by
  intro twice
  have below : Int.log 2 (0 : ℚ) < binary64.emin := twice.1
  rw [Int.log_zero_right] at below
  exact absurd below (by decide)

theorem vanishes_iff {q : ℚ} : binary64.round q = 0 ↔ q ≤ 2 ^ (-1075 : ℤ) := round_eq_zero_iff (by decide)

theorem round_of_not_int (below : (n : ℚ) * 2 ^ e < binary64.overflow) (small : n < overflowBound)
    (other : toCInt e ≠ e) : binary64.round (n * 2 ^ e) = 0 := by
  rcases eq_zero_or_pos n with rfl | positive
  · rw [Nat.cast_zero, zero_mul, round_zero]
  · have one : (1 : ℚ) ≤ n := by exact_mod_cast positive
    have upper : e < 2 ^ 31 := by
      by_contra large
      obtain ⟨k, bound⟩ : ∃ k : ℕ, (k : ℤ) = 1024 := ⟨1024, rfl⟩
      have order : (2 : ℚ) ^ (k : ℤ) ≤ n * 2 ^ e := (two_zpow_le (by omega)).trans (le_mul_of_one_le_left (two_zpow_pos e).le one)
      have most : binary64.overflow ≤ 2 ^ (k : ℤ) := by
        have same : k = 1024 := by omega
        rw [overflow_binary64, same]
        exact_mod_cast overflowBound_bounds.2
      exact absurd below ((most.trans order).not_gt)
    have lower : e < -2 ^ 31 := by
      by_contra inside
      exact other (toCInt_eq (not_lt.mp inside) upper)
    have digits : (n : ℚ) ≤ 2 ^ ((1024 : ℕ) : ℤ) := by
      exact_mod_cast (small.trans_le overflowBound_bounds.2).le
    rw [vanishes_iff]
    calc (n : ℚ) * 2 ^ e ≤ 2 ^ ((1024 : ℕ) : ℤ) * 2 ^ e := mul_le_mul_of_nonneg_right digits (two_zpow_pos e).le
      _ = 2 ^ (((1024 : ℕ) : ℤ) + e) := (two_zpow_add _ _).symm
      _ ≤ 2 ^ (-1075 : ℤ) := two_zpow_le (by omega)

theorem scaled_whole_iff (small : n < overflowBound) :
    binary64.round (binary64.toDigits n * 2 ^ e) = binary64.round (n * 2 ^ e) ↔ ¬binary64.DoubleRounds (n * 2 ^ e) := by
  rcases eq_zero_or_pos n with rfl | positive
  · rw [Nat.cast_zero, toDigits_zero, zero_mul]
    exact iff_of_true rfl not_doubleRounds_zero
  · have positive' : (0 : ℚ) < n := by exact_mod_cast positive
    rw [← toDigits_scale positive', round_toDigits_iff (mul_pos positive' (two_zpow_pos e))]

theorem scaled_truncated_iff (truncated : Truncated n) (below : (n : ℚ) * 2 ^ e < binary64.overflow) :
    binary64.round ((truncation n : ℚ) * 2 ^ e) = binary64.round (n * 2 ^ e) ↔
      Int.log 2 ((n : ℚ) * 2 ^ e) < binary64.emin ∧ ∀ m : ℕ, m % 2 = 0 → (truncation n : ℚ) * 2 ^ e ≠ binary64.middle m := by
  obtain ⟨k, log, cut, -, less, near⟩ := truncated_bits truncated
  have power := two_zpow_pos e
  have hp : (0 : ℚ) < truncation n := by exact_mod_cast truncation_pos truncated
  have hn : (0 : ℚ) < n := hp.trans (by exact_mod_cast less)
  have trailing : (binary64.trailing : ℤ) = 52 := rfl
  by_cases normal : binary64.emin ≤ Int.log 2 ((n : ℚ) * 2 ^ e)
  · refine iff_of_false ?_ fun ⟨subnormal, _⟩ => absurd normal (subnormal.not_ge)
    intro same
    have log_scaled : Int.log 2 ((truncation n : ℚ) * 2 ^ e) = Int.log 2 ((n : ℚ) * 2 ^ e) := by
      rw [log_scale hp, log_scale hn, log_truncation truncated]
    have digits := toDigits_eq_of_round (mul_pos hp power) (mul_pos hn power) (log_scaled ▸ normal) normal
      (round_lt_infinity below) same
    rw [toDigits_scale hp, toDigits_scale hn, mul_left_inj' power.ne'] at digits
    have rounds : binary64.round (truncation n) = binary64.round n := by
      rw [← round_toDigits hp (log_nat (truncation_pos truncated)), digits,
        round_toDigits hn (log_nat (by exact_mod_cast hn))]
    have counted : Counted n := counted_of_small (truncated.1.trans_le overflowBound_bounds.2)
    refine (intToInexact_nearest_iff counted).mp ?_ truncated
    have converted := @intToInexact_truncated n truncated
    rw [converted, ofRational_natAbs, ofMagnitude_eq_iff]
    exact rounds
  · have below_normal := not_le.mp normal
    have exponent : Int.log 2 ((n : ℚ) * 2 ^ e) - (binary64.trailing : ℤ) = k + e := by
      rw [log_scale hn, log, trailing]
      ring
    have whole := @round_cut_iff binary64 ((n : ℚ) * 2 ^ e) ((truncation n : ℚ) * 2 ^ e) (n / 2 ^ k) (mul_pos hp power)
      below_normal (by
        rw [exponent, two_zpow_add, cut, zpow_natCast]
        push_cast
        ring)
      (mul_lt_mul_of_pos_right (by exact_mod_cast less) power) (by
        rw [exponent, two_zpow_add, ← add_mul]
        exact mul_lt_mul_of_pos_right (by exact_mod_cast near) power)
    rw [whole]
    exact (and_iff_right below_normal).symm

theorem scaled_iff (small : n < overflowBound) (below : (n : ℚ) * 2 ^ e < binary64.overflow) :
    binary64.round (binary64.magnitude (intToInexact n).word * 2 ^ toCInt e) = binary64.round (n * 2 ^ e) ↔
      ShortcutNearest n e := by
  have parts : ShortcutNearest n e ↔ _ ∧ _ := ⟨fun holds => ⟨holds.whole, holds.truncated⟩, fun holds => ⟨holds.1, holds.2⟩⟩
  rw [parts]
  by_cases truncated : Truncated n
  · rw [magnitude_truncated truncated]
    simp only [truncated, not_true_eq_false, false_implies, true_implies, true_and]
    by_cases int : toCInt e = e
    · rw [if_pos int, int]
      exact scaled_truncated_iff truncated below
    · rw [if_neg int, round_of_not_int below small int, vanishes_iff]
  · rw [magnitude_rounded small truncated]
    simp only [truncated, not_false_eq_true, false_implies, true_implies, and_true]
    by_cases int : toCInt e = e
    · rw [if_pos int, int]
      exact scaled_whole_iff small
    · rw [if_neg int, round_of_not_int below small int, vanishes_iff]

section
variable {operator : String} {operation : ℤ → ℤ → ℤ} {x y : ℤ}

theorem fixnumOperation_ok (hx : isFixnum x = true) (hy : isFixnum y = true) (result : isFixnum (operation x y) = true) :
    fixnumOperation operator operation x y = .ok (operation x y) := by
  unfold fixnumOperation
  rw [hx, hy, result]
  rfl

theorem fixnumOperation_error (outside : ¬(isFixnum x = true ∧ isFixnum y = true ∧ isFixnum (operation x y) = true)) :
    fixnumOperation operator operation x y = .error (.notFixnum operator) := by
  refine if_neg ?_
  rw [Bool.and_eq_true, Bool.and_eq_true, and_assoc]
  exact outside

end

def log2 (radix : ℕ) : ℤ := integerLength radix - 1

section
variable (rexponent : ℤ) (radix base : ℕ) (bexponent : ℤ)

def exponentOfTwo : ℤ := rexponent * log2 radix + bexponent * log2 base

structure FixnumExponents : Prop where
  first : isFixnum rexponent = true
  firstScaled : isFixnum (rexponent * log2 radix) = true
  second : isFixnum bexponent = true
  secondScaled : isFixnum (bexponent * log2 base) = true
  sum : isFixnum (exponentOfTwo rexponent radix base bexponent) = true

end

variable {rexponent : ℤ} {radix base : ℕ} {bexponent : ℤ}

theorem isFixnum_of_bounds {n : ℤ} (lower : -2 ^ 57 ≤ n) (upper : n < 2 ^ 57) : isFixnum n = true := by
  rw [isFixnum, Bool.and_eq_true, decide_eq_true_eq, decide_eq_true_eq]
  exact ⟨lower, upper⟩

theorem isFixnum_log2 (known : radix ∈ [2, 8, 16]) : isFixnum (log2 radix) = true := by
  have table : ∀ radix ∈ [2, 8, 16], -2 ^ 57 ≤ log2 radix ∧ log2 radix < 2 ^ 57 := by decide
  obtain ⟨lower, upper⟩ := table radix known
  exact isFixnum_of_bounds lower upper

theorem binaryExponent_ok (known : radix ∈ [2, 8, 16]) (known' : base ∈ [2, 8, 16])
    (fixnums : FixnumExponents rexponent radix base bexponent) :
    binaryExponent rexponent radix base bexponent = .ok (exponentOfTwo rexponent radix base bexponent) := by
  have first : fixTimes rexponent (log2 radix) = .ok (rexponent * log2 radix) :=
    fixnumOperation_ok fixnums.first (isFixnum_log2 known) fixnums.firstScaled
  have second : fixTimes bexponent (log2 base) = .ok (bexponent * log2 base) :=
    fixnumOperation_ok fixnums.second (isFixnum_log2 known') fixnums.secondScaled
  have sum : fixPlus (rexponent * log2 radix) (bexponent * log2 base) = .ok (exponentOfTwo rexponent radix base bexponent) :=
    fixnumOperation_ok fixnums.firstScaled fixnums.secondScaled fixnums.sum
  have steps : binaryExponent rexponent radix base bexponent =
      (fixTimes rexponent (log2 radix) >>= fun re => fixTimes bexponent (log2 base) >>= fixPlus re) := rfl
  rw [steps, first]
  rw [second]
  exact sum

theorem binaryExponent_error (outside : ¬FixnumExponents rexponent radix base bexponent) :
    ∃ failure, binaryExponent rexponent radix base bexponent = .error failure := by
  have steps : binaryExponent rexponent radix base bexponent =
      (fixTimes rexponent (log2 radix) >>= fun re => fixTimes bexponent (log2 base) >>= fixPlus re) := rfl
  have refused : ∀ {operator : String} {operation : ℤ → ℤ → ℤ} {x y : ℤ} {f : ℤ → Except Failure ℤ},
      ¬(isFixnum x = true ∧ isFixnum y = true ∧ isFixnum (operation x y) = true) →
      (fixnumOperation operator operation x y >>= f) = .error (.notFixnum operator) := by
    intro operator operation x y f wrong
    rw [fixnumOperation_error wrong]
    rfl
  by_cases first : isFixnum rexponent = true ∧ isFixnum (log2 radix) = true ∧ isFixnum (rexponent * log2 radix) = true
  · have one : fixTimes rexponent (log2 radix) = .ok (rexponent * log2 radix) :=
      fixnumOperation_ok first.1 first.2.1 first.2.2
    by_cases second : isFixnum bexponent = true ∧ isFixnum (log2 base) = true ∧ isFixnum (bexponent * log2 base) = true
    · have two : fixTimes bexponent (log2 base) = .ok (bexponent * log2 base) :=
        fixnumOperation_ok second.1 second.2.1 second.2.2
      refine ⟨.notFixnum "+", ?_⟩
      rw [steps, one]
      rw [two]
      refine fixnumOperation_error fun all => ?_
      exact outside ⟨first.1, first.2.2, second.1, second.2.2, all.2.2⟩
    · refine ⟨.notFixnum "*", ?_⟩
      rw [steps, one]
      exact refused second
  · refine ⟨.notFixnum "*", ?_⟩
    exact refused first

section
variable {α β : Type}

theorem ok_then (a : α) (f : α → Except Failure β) : (Except.ok a >>= f) = f a := rfl
end

theorem shortcut_eq (sign : Option Sign) (n : ℕ) (rexponent : ℤ) (radix base : ℕ) (bexponent : ℤ) :
    shortcut sign n rexponent radix base bexponent = (binaryExponent rexponent radix base bexponent >>= fun e =>
      (intToFlonum n >>= fun x => ldexp x e) >>= fun scaled => .ok (applySign sign (.flonum scaled))) := by
  refine bind_congr fun e => ?_
  rw [bind_assoc]

theorem shortcut_nearest_iff (sign : Option Sign) (known : radix ∈ [2, 8, 16]) (known' : base ∈ [2, 8, 16]) (counted : Counted n)
    (below : (n : ℚ) * 2 ^ exponentOfTwo rexponent radix base bexponent < binary64.overflow) :
    shortcut sign n rexponent radix base bexponent =
        .ok (.flonum (ofMagnitude (sign = some .minus) (n * 2 ^ exponentOfTwo rexponent radix base bexponent))) ↔
      FixnumExponents rexponent radix base bexponent ∧ n < overflowBound ∧
        ShortcutNearest n (exponentOfTwo rexponent radix base bexponent) := by
  rw [shortcut_eq]
  by_cases fixnums : FixnumExponents rexponent radix base bexponent
  · rw [binaryExponent_ok known known' fixnums, and_iff_right fixnums]
    generalize exponentOfTwo rexponent radix base bexponent = e at below ⊢
    by_cases small : n < overflowBound
    · obtain ⟨converted, finite, positive⟩ := intToFlonum_small small
      have scaled : ldexp (intToInexact n) e = .ok ((intToInexact n).denormalize e) := if_pos finite
      have result : (intToInexact n).denormalize e =
          .ofMagnitude false (binary64.magnitude (intToInexact n).word * 2 ^ toCInt e) := by
        rw [denormalize, positive]
      rw [ok_then, converted, ok_then, scaled, ok_then, result, applySign_nearest, Except.ok.injEq, Number.flonum.injEq,
        ofMagnitude_eq_iff, scaled_iff small below, and_iff_right small]
    · obtain ⟨failure, stopped⟩ := ldexp_large (not_lt.mp small) counted e
      rw [ok_then, stopped]
      exact iff_of_false (fun same => by cases same) fun both => small both.1
  · obtain ⟨failure, stopped⟩ := binaryExponent_error fixnums
    rw [stopped]
    exact iff_of_false (fun same => by cases same) fun both => fixnums both.1

theorem shortcut_nearest (sign : Option Sign) (known : radix ∈ [2, 8, 16]) (known' : base ∈ [2, 8, 16])
    (below : (n : ℚ) * 2 ^ exponentOfTwo rexponent radix base bexponent < binary64.overflow)
    (fixnums : FixnumExponents rexponent radix base bexponent) (small : n < overflowBound)
    (nearest : ShortcutNearest n (exponentOfTwo rexponent radix base bexponent)) :
    shortcut sign n rexponent radix base bexponent =
      .ok (.flonum (ofMagnitude (sign = some .minus) (n * 2 ^ exponentOfTwo rexponent radix base bexponent))) :=
  (shortcut_nearest_iff sign known known' (counted_of_small (small.trans_le overflowBound_bounds.2)) below).mpr
    ⟨fixnums, small, nearest⟩

def Convertible (n : ℕ) : Prop := ∃ x, integerToFlonumRounded n = some x ∧ x.isFinite = true

theorem convertible_iff (counted : Counted n) : Convertible n ↔ n < overflowBound := by
  refine ⟨?_, fun small => ?_⟩
  · rintro ⟨x, converted, finite⟩
    by_contra large
    obtain ⟨failure, stopped⟩ := ldexp_large (not_lt.mp large) counted 0
    rw [intToFlonum_of_some converted, ok_then, ldexp, if_pos finite] at stopped
    exact nomatch stopped
  · obtain ⟨x, converted⟩ := integerToFlonumRounded_total small
    have finite := (intToFlonum_small small).2.1
    rw [intToInexact_of_some converted] at finite
    exact ⟨x, converted, finite⟩

theorem ldexp_convertible {x : Flonum} (converted : integerToFlonumRounded n = some x) (finite : x.isFinite = true) (e : ℤ) :
    (intToFlonum n >>= fun x => ldexp x e) = .ok (x.denormalize e) := by
  rw [intToFlonum_of_some converted, ok_then, ldexp, if_pos finite]

theorem ldexp_not_convertible (fails : ¬Convertible n) (e : ℤ) :
    ∃ failure, (intToFlonum n >>= fun x => ldexp x e) = .error failure := by
  cases converted : integerToFlonumRounded n with
  | none =>
    have refused : intToFlonum n = .error (.error (.badRange 1 "integer->flonum")) := congrArg flonumOrError converted
    rw [refused]
    exact ⟨_, rfl⟩
  | some x =>
    rw [intToFlonum_of_some converted, ok_then, ldexp, if_neg fun finite => fails ⟨x, converted, finite⟩]
    exact ⟨_, rfl⟩

theorem applySign_injective (sign : Option Sign) {x y : Flonum} :
    applySign sign (.flonum x) = applySign sign (.flonum y) ↔ x = y := by
  simp only [applySign, Number.flonum.injEq]
  split
  · exact negate_injective
  · rfl

end MitScheme.Runtime.NumberParser
