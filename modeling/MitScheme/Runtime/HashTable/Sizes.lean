import MitScheme.Library.BinaryFormat
import Mathlib.Data.Nat.Prime.Infinite

/-!
How the usable size of a table grows and shrinks, and the loops that look for the next one. Sizes are
integers: an integer rehash size may take a size below zero.
-/

namespace MitScheme.Runtime.HashTables

open Library

def minimumSize : ℤ := 4

/-- "real number > 1 or exact integer >= 1" -/
inductive RehashSize where
  | integer (size : ℤ) (legal : 0 < size)
  | real (size : ℚ) (legal : 1 < size)

/-- "real number between 0 (exclusive) and 1 (inclusive)" -/
structure RehashThreshold where
  value : ℚ
  positive : 0 < value
  atMostOne : value ≤ 1

def defaultRehashThreshold : RehashThreshold := ⟨1, by norm_num, le_rfl⟩

def defaultRehashSize : RehashSize := .real 2 (by norm_num)

def incrementSize (rehashSize : RehashSize) (size : ℤ) : ℤ :=
  match rehashSize with
  | .integer r _ => size + r
  | .real r _ =>
    let size' := roundHalfEven (size * r)
    if size' > size then size' else size + 1

def decrementSize (rehashSize : RehashSize) (size : ℤ) : ℤ :=
  match rehashSize with
  | .integer r _ => size - r
  | .real r _ =>
    let size' := roundHalfEven (size / r)
    if size' < size then size' else size - 1

def computeShrinkSize (rehashSize : RehashSize) (size : ℤ) : ℤ :=
  if size ≤ minimumSize then 0 else max 0 (decrementSize rehashSize (decrementSize rehashSize size))

section
variable {rehashSize : RehashSize} {size : ℤ} {count : ℕ}

theorem lt_incrementSize : size < incrementSize rehashSize size := by
  unfold incrementSize
  split
  · next legal => omega
  · dsimp only
    omega

theorem decrementSize_lt : decrementSize rehashSize size < size := by
  unfold decrementSize
  split
  · next legal => omega
  · dsimp only
    omega

theorem decrementSize_incrementSize_le : decrementSize rehashSize (incrementSize rehashSize size) ≤ size := by
  cases rehashSize with
  | integer r legal =>
    simp only [incrementSize, decrementSize]
    omega
  | real r legal =>
    by_cases grown : roundHalfEven (size * r) > size
    · simp only [incrementSize, if_pos grown]
      have near := roundHalfEven_le_add_half (size * r)
      have positive : (0 : ℚ) < r := by linarith
      -- Half of a unit before the division is less than half after it.
      have quotient : (roundHalfEven (size * r) : ℚ) / r < size + 1 / 2 := by
        rw [div_lt_iff₀ positive]
        linarith
      have back : roundHalfEven (roundHalfEven (size * r) / r) ≤ size := by
        have near' := roundHalfEven_le_add_half (roundHalfEven (size * r) / r)
        have below : (roundHalfEven (roundHalfEven (size * r) / r) : ℚ) < (size + 1 : ℤ) := by
          push_cast
          linarith
        exact Int.lt_add_one_iff.mp (Int.cast_lt.mp below)
      simp only [decrementSize, if_pos (back.trans_lt grown)]
      exact back
    · simp only [incrementSize, if_neg grown]
      exact Int.lt_add_one_iff.mp decrementSize_lt

theorem minimumSize_lt_of_lt (less : (count : ℤ) < computeShrinkSize rehashSize size) : minimumSize < size := by
  unfold computeShrinkSize at less
  split at less
  · omega
  · next large => exact not_le.mp large

theorem lt_decrementSize_of_lt (less : (count : ℤ) < computeShrinkSize rehashSize size) :
    (count : ℤ) < decrementSize rehashSize size := by
  have large := minimumSize_lt_of_lt less
  rw [computeShrinkSize, if_neg (large.not_ge)] at less
  have twice : decrementSize rehashSize (decrementSize rehashSize size) < decrementSize rehashSize size := decrementSize_lt
  rcases lt_max_iff.mp less with negative | less
  · omega
  · exact less.trans twice

theorem computeShrinkSize_incrementSize_le (nonneg : 0 ≤ size) :
    computeShrinkSize rehashSize (incrementSize rehashSize size) ≤ size := by
  unfold computeShrinkSize
  split
  · exact nonneg
  · exact max_le nonneg (decrementSize_lt.le.trans decrementSize_incrementSize_le)

end

def growLoop (rehashSize : RehashSize) (count : ℕ) (size : ℤ) : ℤ :=
  if count > size then growLoop rehashSize count (incrementSize rehashSize size) else size
termination_by (count - size).toNat
decreasing_by
  have larger : size < incrementSize rehashSize size := lt_incrementSize
  omega

def shrinkLoop (rehashSize : RehashSize) (count : ℕ) (size : ℤ) : ℤ :=
  if size ≤ minimumSize then minimumSize
  else if count < computeShrinkSize rehashSize size then shrinkLoop rehashSize count (decrementSize rehashSize size)
  else size
termination_by size.toNat
decreasing_by
  have smaller : decrementSize rehashSize size < size := decrementSize_lt
  unfold minimumSize at *
  omega

/-- `stream-cdr` of a stream of the primes in order, each stream given by its first element. -/
def nextPrime (p : ℕ) : ℕ := Nat.find (Nat.exists_infinite_primes (p + 1))

theorem lt_nextPrime (p : ℕ) : p < nextPrime p := (Nat.find_spec (Nat.exists_infinite_primes (p + 1))).1

/-- The first of `prime-numbers-stream` -/
def firstPrime : ℕ := 2

def primesLoop (size : ℤ) (primes : ℕ) : ℕ :=
  if size ≤ primes then primes else primesLoop size (nextPrime primes)
termination_by (size - primes).toNat
decreasing_by
  have later := lt_nextPrime primes
  omega

section
variable {rehashSize : RehashSize} {size : ℤ} {count : ℕ}

theorem growLoop_large : (count : ℤ) ≤ growLoop rehashSize count size := by
  fun_induction growLoop rehashSize count size with
  | case1 size small ih => exact ih
  | case2 size large => exact not_lt.mp large

theorem growLoop_grows : size ≤ growLoop rehashSize count size := by
  fun_induction growLoop rehashSize count size with
  | case1 size small ih => exact lt_incrementSize.le.trans ih
  | case2 size large => exact le_rfl

theorem computeShrinkSize_growLoop_le (nonneg : 0 ≤ size) (small : size < count) :
    computeShrinkSize rehashSize (growLoop rehashSize count size) ≤ count := by
  fun_induction growLoop rehashSize count size with
  | case1 size _ ih =>
    have larger : size < incrementSize rehashSize size := lt_incrementSize
    by_cases still : incrementSize rehashSize size < count
    · exact ih (by omega) still
    · rw [growLoop, if_neg (by omega)]
      exact (computeShrinkSize_incrementSize_le nonneg).trans small.le
  | case2 size large => exact absurd small large

theorem minimumSize_le_shrinkLoop : minimumSize ≤ shrinkLoop rehashSize count size := by
  fun_induction shrinkLoop rehashSize count size with
  | case1 size small => exact le_rfl
  | case2 size large less ih => exact ih
  | case3 size large enough => exact (not_le.mp large).le

theorem le_shrinkLoop (small : (count : ℤ) ≤ size) : (count : ℤ) ≤ shrinkLoop rehashSize count size := by
  fun_induction shrinkLoop rehashSize count size with
  | case1 size least => exact small.trans least
  | case2 size large less ih => exact ih (lt_decrementSize_of_lt less).le
  | case3 size large enough => exact small

theorem shrinkLoop_le (large : minimumSize ≤ size) : shrinkLoop rehashSize count size ≤ size := by
  fun_induction shrinkLoop rehashSize count size with
  | case1 size least => exact large
  | case2 size above less ih =>
    by_cases more : minimumSize ≤ decrementSize rehashSize size
    · exact (ih more).trans decrementSize_lt.le
    · rw [shrinkLoop, if_pos (by omega)]
      exact large
  | case3 size above enough => exact le_rfl

theorem shrinkLoop_lt (less : (count : ℤ) < computeShrinkSize rehashSize size) :
    shrinkLoop rehashSize count size < size := by
  have large := minimumSize_lt_of_lt less
  rw [shrinkLoop, if_neg (large.not_ge), if_pos less]
  by_cases more : minimumSize ≤ decrementSize rehashSize size
  · exact (shrinkLoop_le more).trans_lt decrementSize_lt
  · rw [shrinkLoop, if_pos (by omega)]
    exact large

theorem le_primesLoop (primes : ℕ) : size ≤ primesLoop size primes := by
  fun_induction primesLoop size primes with
  | case1 primes enough => exact enough
  | case2 primes small ih => exact ih

theorem primesLoop_ge (primes : ℕ) : primes ≤ primesLoop size primes := by
  fun_induction primesLoop size primes with
  | case1 primes enough => exact le_rfl
  | case2 primes small ih => exact (lt_nextPrime primes).le.trans ih

end

end MitScheme.Runtime.HashTables
