import MitScheme.Runtime.CharSet.Ilist
import Mathlib.Data.Nat.Bitwise

/-!
A bit vector of the code points below a limit, and the ranges above it as a bytevector of 24-bit points.
Bytevectors are lists of bytes; every reference is inside of the bytevector, by the limits.
-/

namespace MitScheme.Runtime.CharSets

open Library List Nat

structure CharSet where
  low : List Nat
  high : List Nat
  deriving DecidableEq

def lowCpsPerByte : Nat := 8

def makeLow (lowLimit : Nat) : List Nat := List.replicate (lowLimit / lowCpsPerByte) 0

def lowLimit (low : List Nat) : Nat := low.length <<< 3

def lowRef (low : List Nat) (cp : Nat) : Bool := !(low.getD (cp >>> 3) 0 &&& 1 <<< (cp &&& 7)) == 0

def lowSet (low : List Nat) (cp : Nat) : List Nat := low.set (cp >>> 3) (low.getD (cp >>> 3) 0 ||| 1 <<< (cp &&& 7))

def highBytesPerCp : Nat := 3

def makeHigh (nCps : Nat) : List Nat := List.replicate (nCps * highBytesPerCp) 0

def highLimit (high : List Nat) : Nat := high.length / highBytesPerCp

def highRef (high : List Nat) (index : Nat) : Nat :=
  high.getD (index * highBytesPerCp) 0 +
    (high.getD (index * highBytesPerCp + 1) 0 <<< 8 + high.getD (index * highBytesPerCp + 2) 0 <<< 16)

def highSet (high : List Nat) (index cp : Nat) : List Nat :=
  let i := index * highBytesPerCp
  ((high.set i (cp &&& 0xFF)).set (i + 1) (cp >>> 8 &&& 0xFF)).set (i + 2) (cp >>> 16)

def estimateLoop (minCp : Nat) : List Nat → Nat
  | _ :: stop :: ilist => if stop < minCp then estimateLoop minCp ilist else (ilist.length + 2) * highBytesPerCp
  | _ => 0

def estimateSize (lowBytes : Nat) (ilist : List Nat) : Nat :=
  lowBytes + estimateLoop (lowBytes * lowCpsPerByte) ilist

def maxLowBytes : Nat := charCodeLimit / highBytesPerCp

def chooseLoop (ilist : List Nat) : (fuel lowBytes bestLowBytes bestTotalBytes : Nat) → Nat
  | 0, _, bestLowBytes, _ => bestLowBytes * lowCpsPerByte
  | fuel + 1, lowBytes, bestLowBytes, bestTotalBytes =>
    if lowBytes < maxLowBytes then
      let totalBytes := estimateSize lowBytes ilist
      if totalBytes < bestTotalBytes then chooseLoop ilist fuel (lowBytes <<< 1) lowBytes totalBytes
      else chooseLoop ilist fuel (lowBytes <<< 1) bestLowBytes bestTotalBytes
    else bestLowBytes * lowCpsPerByte

def chooseLowLimit (ilist : List Nat) : Nat := chooseLoop ilist 19 1 0 (estimateSize 0 ilist)

def setRange (low : List Nat) (start stop : Nat) : List Nat := (List.range' start (stop - start)).foldl lowSet low

def lowLoop (lowLimit : Nat) : (ilist low : List Nat) → List Nat
  | start :: stop :: ilist, low =>
    if stop ≤ lowLimit then lowLoop lowLimit ilist (setRange low start stop)
    else if start < lowLimit then setRange low start lowLimit else low
  | _, low => low

def ilistToLow (ilist : List Nat) (lowLimit : Nat) : List Nat := lowLoop lowLimit ilist (makeLow lowLimit)

def skipLow (lowLimit : Nat) : List Nat → List Nat
  | start :: stop :: ilist =>
    if stop ≤ lowLimit then skipLow lowLimit ilist
    else if start < lowLimit then lowLimit :: stop :: ilist else start :: stop :: ilist
  | _ => []

def highLoop : (ilist : List Nat) → (i : Nat) → (high : List Nat) → List Nat
  | cp :: ilist, i, high => highLoop ilist (i + 1) (highSet high i cp)
  | [], _, high => high

def ilistToHigh (ilist : List Nat) (lowLimit : Nat) : List Nat :=
  highLoop (skipLow lowLimit ilist) 0 (makeHigh (skipLow lowLimit ilist).length)

def ilistToCharSet (ilist : List Nat) : CharSet :=
  { low := ilistToLow ilist (chooseLowLimit ilist), high := ilistToHigh ilist (chooseLowLimit ilist) }

def searchLoop (high : List Nat) (cp lower upper : Nat) : Bool :=
  if lower < upper then
    let i := 2 * ((lower + upper) / 4)
    if cp < highRef high i then searchLoop high cp lower i
    else if highRef high (i + 1) ≤ cp then searchLoop high cp (i + 2) upper
    else true
  else false
termination_by upper - lower
decreasing_by all_goals omega

def codePointInCharSet (cp : Nat) (charSet : CharSet) : Bool :=
  if cp < lowLimit charSet.low then lowRef charSet.low cp
  else searchLoop charSet.high cp 0 (highLimit charSet.high)

section
variable {low high ilist : List Nat} {lowLimit' cp start stop : Nat}

theorem chooseLoop_spec {k fuel best : Nat}
    (chosen : best = 0 ∨ (∃ j, best = 2 ^ j) ∧ estimateSize best ilist < estimateSize 0 ilist) :
    ∃ b, chooseLoop ilist fuel (2 ^ k) best (estimateSize best ilist) = b * lowCpsPerByte ∧
      (b = 0 ∨ (∃ j, b = 2 ^ j) ∧ estimateSize b ilist < estimateSize 0 ilist) ∧
      estimateSize b ilist ≤ estimateSize best ilist ∧
      ∀ j, k ≤ j → j < k + fuel → 2 ^ j < maxLowBytes → estimateSize b ilist ≤ estimateSize (2 ^ j) ilist := by
  induction fuel generalizing k best with
  | zero => exact ⟨best, rfl, chosen, le_rfl, fun j low high => absurd low high.not_ge⟩
  | succ fuel ih =>
    rw [chooseLoop]
    split
    · have next : 2 ^ k <<< 1 = 2 ^ (k + 1) := by rw [shiftLeft_eq, pow_one, pow_succ]
      dsimp only
      rw [next]
      split
      · next better =>
        have least : estimateSize best ilist ≤ estimateSize 0 ilist := by
          rcases chosen with rfl | ⟨-, less⟩
          · exact le_rfl
          · exact less.le
        obtain ⟨b, ran, chosen', less, others⟩ := ih (k := k + 1) (.inr ⟨⟨k, rfl⟩, better.trans_le least⟩)
        refine ⟨b, ran, chosen', less.trans better.le, fun j low high small => ?_⟩
        rcases low.eq_or_lt with rfl | low
        · exact less
        · exact others j low (by omega) small
      · next worse =>
        obtain ⟨b, ran, chosen', less, others⟩ := ih (k := k + 1) chosen
        refine ⟨b, ran, chosen', less, fun j low high small => ?_⟩
        rcases low.eq_or_lt with rfl | low
        · exact less.trans (not_lt.mp worse)
        · exact others j low (by omega) small
    · next large =>
      refine ⟨best, rfl, chosen, le_rfl, fun j low _ small => absurd small ?_⟩
      exact ((not_lt.mp large).trans (Nat.pow_le_pow_right (by decide) low)).not_gt

theorem chooseLowLimit_spec (ilist : List Nat) : ∃ b, chooseLowLimit ilist = b * 8 ∧
    (b = 0 ∨ (∃ j, b = 2 ^ j) ∧ estimateSize b ilist < estimateSize 0 ilist) ∧
    ∀ j < 19, 2 ^ j < maxLowBytes → estimateSize b ilist ≤ estimateSize (2 ^ j) ilist := by
  have start : (0 = 0 ∨ (∃ j, 0 = 2 ^ j) ∧ estimateSize 0 ilist < estimateSize 0 ilist) := .inl rfl
  obtain ⟨b, chosen, cases, -, least⟩ : ∃ b, chooseLoop ilist 19 (2 ^ 0) 0 (estimateSize 0 ilist) = b * lowCpsPerByte ∧ _ :=
    chooseLoop_spec start
  exact ⟨b, chosen, cases, fun j small => least j (zero_le j) (by omega)⟩

theorem lowLimit_eq : lowLimit low = 8 * low.length := by
  rw [lowLimit, shiftLeft_eq, mul_comm]

theorem lowRef_eq : lowRef low cp = (low.getD (cp / 8) 0).testBit (cp % 8) := by
  have mask : cp &&& 7 = cp % 8 := and_two_pow_sub_one_eq_mod cp 3
  rw [lowRef, shiftRight_eq_div_pow, mask, one_shiftLeft, and_two_pow]
  cases (low.getD (cp / 2 ^ 3) 0).testBit (cp % 8) with
  | false => simp
  | true => simp

theorem length_lowSet : (lowSet low cp).length = low.length := by rw [lowSet, length_set]

theorem lowRef_lowSet {x : Nat} (inside : cp < lowLimit low) :
    lowRef (lowSet low cp) x = (decide (x = cp) || lowRef low x) := by
  have mask : cp &&& 7 = cp % 8 := and_two_pow_sub_one_eq_mod cp 3
  have shift : cp >>> 3 = cp / 8 := shiftRight_eq_div_pow cp 3
  rw [lowLimit_eq] at inside
  rw [lowRef_eq, lowRef_eq, lowSet, shift, mask, one_shiftLeft, getD_eq_getElem?_getD, getElem?_set]
  by_cases byte : cp / 8 = x / 8
  · rw [if_pos byte, if_pos (by omega), Option.getD_some, testBit_or, testBit_two_pow, byte, Bool.or_comm]
    have bit : cp % 8 = x % 8 ↔ x = cp := by omega
    rw [decide_eq_decide.mpr bit]
  · have other : x ≠ cp := fun equal => byte (by rw [equal])
    rw [if_neg byte, decide_eq_false other, Bool.false_or, getD_eq_getElem?_getD]

theorem length_setRange : (setRange low start stop).length = low.length := by
  rw [setRange]
  generalize range' start (stop - start) = cps
  induction cps generalizing low with
  | nil => rfl
  | cons cp cps ih => rw [foldl_cons, ih, length_lowSet]

theorem lowRef_setRange {x : Nat} (inside : stop ≤ lowLimit low) :
    lowRef (setRange low start stop) x = (decide (start ≤ x ∧ x < stop) || lowRef low x) := by
  have fold (cps : List Nat) (low : List Nat) (inside : ∀ cp ∈ cps, cp < lowLimit low) :
      lowRef (cps.foldl lowSet low) x = (decide (x ∈ cps) || lowRef low x) := by
    induction cps generalizing low with
    | nil => simp
    | cons cp cps ih =>
      obtain ⟨head, rest⟩ := forall_mem_cons.mp inside
      have same : lowLimit (lowSet low cp) = lowLimit low := by rw [lowLimit, length_lowSet, lowLimit]
      rw [foldl_cons, ih _ (by rwa [same]), lowRef_lowSet head, ← Bool.or_assoc, Bool.or_comm (decide (x ∈ cps)),
        ← Bool.decide_or]
      simp
  rw [setRange, fold _ _ fun cp member => by rw [mem_range'_1] at member; omega]
  have range : x ∈ range' start (stop - start) ↔ start ≤ x ∧ x < stop := by
    rw [mem_range'_1]
    omega
  rw [decide_eq_decide.mpr range]

theorem length_lowLoop : (lowLoop lowLimit' ilist low).length = low.length := by
  fun_induction lowLoop lowLimit' ilist low with
  | case1 start stop ilist low inside ih => rw [ih, length_setRange]
  | case2 => exact length_setRange
  | case3 => rfl
  | case4 => rfl

theorem lowRef_lowLoop (ascending : ilist.Pairwise (· ≤ ·)) (even : ilist.length % 2 = 0) (inside : cp < lowLimit low) :
    lowRef (lowLoop (lowLimit low) ilist low) cp = (toggled cp ilist || lowRef low cp) := by
  generalize limit : lowLimit low = n at *
  induction ilist, even using pairs_induction generalizing low with
  | nil => rfl
  | pair start stop rest _ ih =>
    have tail := (pairwise_cons.mp (pairwise_cons.mp ascending).2)
    rw [lowLoop, toggled_interval ascending]
    split
    · next whole =>
      have same : lowLimit (setRange low start stop) = n := by rw [lowLimit, length_setRange, ← limit, lowLimit]
      rw [ih tail.2 same, lowRef_setRange (by rwa [limit]), ← Bool.or_assoc, Bool.or_comm (toggled cp rest)]
    · next large =>
      have nothing : toggled cp rest = false := toggled_of_lt fun p member =>
        inside.trans ((not_le.mp large).trans_le (tail.1 p member))
      rw [nothing, Bool.or_false]
      split
      · have bits : start ≤ cp ∧ cp < n ↔ start ≤ cp ∧ cp < stop := by omega
        rw [lowRef_setRange limit.ge, decide_eq_decide.mpr bits]
      · next above => rw [decide_eq_false (by omega), Bool.false_or]

def highPoints (high : List Nat) : List Nat := (List.range (highLimit high)).map (highRef high)

theorem length_highPoints : (highPoints high).length = highLimit high := by rw [highPoints, length_map, length_range]

theorem highRef_eq {i : Nat} (inside : i < (highPoints high).length) : highRef high i = (highPoints high)[i] := by
  simp [highPoints]

theorem length_highSet {i : Nat} : (highSet high i cp).length = high.length := by
  simp [highSet]

theorem getD_set {bytes : List Nat} {i j byte : Nat} (inside : j < bytes.length) :
    (bytes.set i byte).getD j 0 = if i = j then byte else bytes.getD j 0 := by
  rw [getD_eq_getElem?_getD, getElem?_set]
  split
  · next same => rw [if_pos (by rwa [same]), Option.getD_some]
  · rfl

theorem getD_highSet {i m : Nat} (inside : m < high.length) : (highSet high i cp).getD m 0 = if i * 3 + 2 =
    m then cp / 65536 else if i * 3 + 1 = m then cp / 256 % 256 else if i * 3 = m then cp % 256 else high.getD m 0 := by
  have byte0 : cp &&& 0xFF = cp % 256 := and_two_pow_sub_one_eq_mod cp 8
  have byte1 : cp >>> 8 &&& 0xFF = cp / 256 % 256 := by
    rw [shiftRight_eq_div_pow]
    exact and_two_pow_sub_one_eq_mod _ 8
  have byte2 : cp >>> 16 = cp / 65536 := shiftRight_eq_div_pow cp 16
  have inside1 : m < (high.set (i * 3) (cp % 256)).length := by rwa [length_set]
  have inside2 : m < ((high.set (i * 3) (cp % 256)).set (i * 3 + 1) (cp / 256 % 256)).length := by
    rwa [length_set]
  rw [highSet, byte0, byte1, byte2]
  change ((((high.set (i * 3) (cp % 256)).set (i * 3 + 1) (cp / 256 % 256)).set (i * 3 + 2) (cp / 65536)).getD m 0) = _
  rw [getD_set inside2, getD_set inside1, getD_set inside]

theorem getD_highSet_other {i m : Nat} (outside : m / 3 ≠ i) : (highSet high i cp).getD m 0 = high.getD m 0 := by
  have other0 : i * 3 ≠ m := by omega
  have other1 : i * 3 + 1 ≠ m := by omega
  have other2 : i * 3 + 2 ≠ m := by omega
  exact congrArg (·.getD 0) ((getElem?_set_ne other2).trans
    ((getElem?_set_ne other1).trans (getElem?_set_ne other0)))

theorem highRef_highSet {i j : Nat} (inside : (j + 1) * 3 ≤ high.length) :
    highRef (highSet high i cp) j = if i = j then cp else highRef high j := by
  have inside0 : j * 3 < high.length := by omega
  have inside1 : j * 3 + 1 < high.length := by omega
  have inside2 : j * 3 + 2 < high.length := by omega
  have reads (bytes : List Nat) :
      highRef bytes j = bytes.getD (j * 3) 0 + (bytes.getD (j * 3 + 1) 0 * 256 + bytes.getD (j * 3 + 2) 0 * 65536) := by
    delta highRef
    simp [highBytesPerCp, shiftLeft_eq]
  rw [reads, reads]
  by_cases same : i = j
  · subst same
    rw [getD_highSet inside0, getD_highSet inside1, getD_highSet inside2]
    have bytes : cp % 256 + (cp / 256 % 256 * 256 + cp / 65536 * 65536) = cp := by
      omega
    simpa using bytes
  · have outside0 : j * 3 / 3 ≠ i := by omega
    have outside1 : (j * 3 + 1) / 3 ≠ i := by omega
    have outside2 : (j * 3 + 2) / 3 ≠ i := by omega
    rw [if_neg same, getD_highSet_other outside0, getD_highSet_other outside1, getD_highSet_other outside2]

theorem length_highLoop {i : Nat} : (highLoop ilist i high).length = high.length := by
  induction ilist generalizing i high with
  | nil => rfl
  | cons cp ilist ih => rw [highLoop, ih, length_highSet]

theorem highRef_highLoop {i j : Nat} (room : (i + ilist.length) * 3 = high.length) (inside : j < i + ilist.length) :
    highRef (highLoop ilist i high) j = if j < i then highRef high j else ilist.getD (j - i) 0 := by
  induction ilist generalizing i high with
  | nil => rw [highLoop, if_pos (by simpa using inside)]
  | cons cp ilist ih =>
    rw [length_cons] at room inside
    rw [highLoop, ih (by rw [length_highSet]; omega) (by omega), highRef_highSet (by omega)]
    by_cases before : j < i
    · rw [if_pos (by omega), if_neg (by omega), if_pos before]
    · rw [if_neg before]
      by_cases here : i = j
      · rw [if_pos (by omega), if_pos here, here, Nat.sub_self]
        rfl
      · rw [if_neg (by omega), show j - i = j - (i + 1) + 1 by omega]
        rfl

theorem highPoints_ilistToHigh : highPoints (ilistToHigh ilist lowLimit') = skipLow lowLimit' ilist := by
  have limit : highLimit (ilistToHigh ilist lowLimit') = (skipLow lowLimit' ilist).length := by
    rw [highLimit, ilistToHigh, length_highLoop, makeHigh, length_replicate]
    exact Nat.mul_div_cancel _ (by decide)
  refine ext_getElem (by rw [length_highPoints, limit]) fun j _ inside => ?_
  have room : (0 + (skipLow lowLimit' ilist).length) * 3 = (makeHigh (skipLow lowLimit' ilist).length).length := by
    rw [makeHigh, length_replicate, zero_add]
    rfl
  rw [← highRef_eq, ilistToHigh, highRef_highLoop room (by omega), if_neg (not_lt_zero j), Nat.sub_zero,
    getD_eq_getElem?_getD, getElem?_eq_getElem inside, Option.getD_some]

theorem skipLow_spec (lowLimit' : Nat) {order : Nat → Nat → Prop} (weaken : ∀ a b, order a b → a ≤ b) (strengthen : ∀ a b, a < b → order a b)
    (valid : Ilist order ilist) :
    Ilist order (skipLow lowLimit' ilist) ∧ (∀ p ∈ skipLow lowLimit' ilist, lowLimit' ≤ p) ∧
      ∀ cp, lowLimit' ≤ cp → toggled cp (skipLow lowLimit' ilist) = toggled cp ilist := by
  obtain ⟨ascending, even, bounded⟩ := valid
  induction ilist, even using pairs_induction with
  | nil => exact ⟨⟨.nil, rfl, forall_mem_nil _⟩, forall_mem_nil _, fun _ _ => rfl⟩
  | pair start stop rest even ih =>
    obtain ⟨head, tail⟩ := pairwise_cons.mp ascending
    obtain ⟨above, tail'⟩ := pairwise_cons.mp tail
    obtain ⟨limit_s, bounds⟩ := forall_mem_cons.mp bounded
    obtain ⟨limit_e, bounds'⟩ := forall_mem_cons.mp bounds
    have weakly : (start :: stop :: rest).Pairwise (· ≤ ·) := ascending.imp (weaken _ _)
    rw [skipLow]
    split
    · next whole =>
      obtain ⟨valid, large, members⟩ := ih tail' bounds'
      refine ⟨valid, large, fun cp low => ?_⟩
      rw [members cp low, toggled_interval weakly, decide_eq_false fun inside => (whole.trans low).not_gt inside.2,
        Bool.false_or]
    · next large =>
      have large := not_le.mp large
      have above_limit : ∀ p ∈ stop :: rest, lowLimit' ≤ p := forall_mem_cons.mpr
        ⟨large.le, fun p member => large.le.trans (weaken _ _ (above p member))⟩
      have even' : (start :: stop :: rest).length % 2 = 0 := by
        rw [length_cons, length_cons]
        omega
      split
      · next straddles =>
        have less : ∀ p ∈ stop :: rest, order lowLimit' p := forall_mem_cons.mpr
          ⟨strengthen _ _ large, fun p member => strengthen _ _ (large.trans_le (weaken _ _ (above p member)))⟩
        have ascending' : (lowLimit' :: stop :: rest).Pairwise order := pairwise_cons.mpr ⟨less, tail⟩
        refine ⟨⟨ascending', even', ?_⟩, forall_mem_cons.mpr ⟨le_rfl, above_limit⟩, fun cp low => ?_⟩
        · exact forall_mem_cons.mpr ⟨large.le.trans limit_e, bounds⟩
        · rw [toggled_cons, toggled_cons (p := start), decide_eq_true low, decide_eq_true (straddles.le.trans low)]
      · next outside =>
        exact ⟨⟨ascending, even', bounded⟩, forall_mem_cons.mpr ⟨not_lt.mp outside, above_limit⟩, fun _ _ => rfl⟩

structure Holds (charSet : CharSet) (ilist : List Nat) : Prop where
  bits : ∀ cp < lowLimit charSet.low, lowRef charSet.low cp = toggled cp ilist
  points : highPoints charSet.high = skipLow (lowLimit charSet.low) ilist

theorem lowRef_makeLow {n : Nat} : lowRef (makeLow n) cp = false := by
  have zero : (replicate (n / lowCpsPerByte) 0).getD (cp / 8) 0 = 0 := by
    rw [getD_eq_getElem?_getD, getElem?_replicate]
    split <;> rfl
  rw [lowRef_eq, makeLow, zero, zero_testBit]

theorem lowLimit_chosen (ilist : List Nat) : lowLimit (ilistToCharSet ilist).low = chooseLowLimit ilist := by
  obtain ⟨b, multiple, -⟩ := chooseLowLimit_spec ilist
  rw [lowLimit_eq, ilistToCharSet, ilistToLow, length_lowLoop, makeLow, length_replicate, lowCpsPerByte]
  omega

theorem ilistToCharSet_holds (loose : Loose ilist) : Holds (ilistToCharSet ilist) ilist := by
  have limit := lowLimit_chosen ilist
  refine ⟨fun cp inside => ?_, ?_⟩
  · have same : lowLimit (makeLow (chooseLowLimit ilist)) = chooseLowLimit ilist := by
      have length := limit
      rw [ilistToCharSet, ilistToLow, lowLimit, length_lowLoop] at length
      rw [lowLimit, length]
    have inside' : cp < lowLimit (makeLow (chooseLowLimit ilist)) := by rwa [same, ← limit]
    have bits := lowRef_lowLoop loose.ascending loose.even inside'
    rwa [lowRef_makeLow, Bool.or_false, same] at bits
  · rw [limit]
    exact highPoints_ilistToHigh

/-- The binary search: the points before `lower` are at or below the code point, those from `upper` on above it. -/
theorem searchLoop_spec {lower upper : Nat} (ascending : (highPoints high).Pairwise (· ≤ ·))
    (even : (highPoints high).length % 2 = 0) (even_l : lower % 2 = 0) (even_u : upper % 2 = 0) (order : lower ≤ upper)
    (short : upper ≤ (highPoints high).length)
    (below : ∀ i, ∀ inside : i < (highPoints high).length, i < lower → (highPoints high)[i] ≤ cp)
    (above : ∀ i, ∀ inside : i < (highPoints high).length, upper ≤ i → cp < (highPoints high)[i]) :
    searchLoop high cp lower upper = toggled cp (highPoints high) := by
  have monotone {i j : Nat} (before : i < (highPoints high).length) (inside : j < (highPoints high).length)
      (order : i ≤ j) : (highPoints high)[i] ≤ (highPoints high)[j] := by
    rcases order.eq_or_lt with rfl | less
    · exact le_rfl
    · exact pairwise_iff_getElem.mp ascending i j before inside less
  fun_induction searchLoop high cp lower upper with
  | case1 lower upper less i before ih =>
    have inside : i < (highPoints high).length := by omega
    rw [highRef_eq inside] at before
    refine ih even_l (by omega) (by omega) (by omega) below fun j inside' after => ?_
    exact before.trans_le (monotone inside inside' after)
  | case2 lower upper less i start after ih =>
    have inside : i + 1 < (highPoints high).length := by omega
    rw [highRef_eq inside] at after
    refine ih (by omega) even_u (by omega) short (fun j inside' before => ?_) above
    exact (monotone inside' inside (by omega)).trans after
  | case3 lower upper less i start stop =>
    have inside : i + 1 < (highPoints high).length := by omega
    rw [highRef_eq (by omega)] at start
    rw [highRef_eq inside] at stop
    rw [toggled_of_index (k := i + 1) (by omega)]
    · exact (decide_eq_true (by omega)).symm
    · exact fun j inside' before => (monotone inside' (by omega) (by omega)).trans (not_lt.mp start)
    · exact fun j inside' after => (not_le.mp stop).trans_le (monotone inside inside' after)
  | case4 lower upper done =>
    rw [toggled_of_index (k := lower) (by omega) below fun j inside after => above j inside (by omega)]
    exact (decide_eq_false (by omega)).symm

theorem Holds.member {charSet : CharSet} (holds : Holds charSet ilist) (loose : Loose ilist) (cp : Nat) :
    codePointInCharSet cp charSet = toggled cp ilist := by
  unfold codePointInCharSet
  split
  · next inside => exact holds.bits cp inside
  · next outside =>
    obtain ⟨skipped, -, members⟩ := skipLow_spec (lowLimit charSet.low) (fun _ _ => id)
      (fun _ _ => le_of_lt) loose
    rw [← members cp (not_lt.mp outside), ← holds.points]
    rw [← holds.points] at skipped
    refine searchLoop_spec skipped.ascending skipped.even rfl ?_ (zero_le _) ?_ (fun i _ less => absurd less (not_lt_zero i))
      fun i inside after => absurd inside ?_
    · rw [← length_highPoints]
      exact skipped.even
    · rw [length_highPoints]
    · rw [length_highPoints]
      exact after.not_gt

end

end MitScheme.Runtime.CharSets
