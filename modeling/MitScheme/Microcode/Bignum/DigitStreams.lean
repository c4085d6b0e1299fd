import MitScheme.Library.Run
import MitScheme.Microcode.Bignum.Divide
import MitScheme.Microcode.Bignum.Shifts

namespace MitScheme.Microcode.Bignum

open Library List
open Nat (ofDigits ofDigits_cons)

def destructiveAdd : List Nat → Nat → Option (List Nat)
  | [], _ => none
  | digit :: digits, n => do
    let sum ← word (digit + n)
    if sum < radix then some (sum :: digits)
    else do
      let digits ← destructiveAdd digits 1
      some ((sum - radix) :: digits)

def streamDigit (r : Nat) (digits : List Nat) (digit : Nat) : Option (List Nat) := do
  destructiveAdd (← scaleUp digits r) digit

def longToBignum (n : Int) : Bignum :=
  if n = 0 then makeZero
  else if n = 1 then makeOne false
  else if n = -1 then makeOne true
  else { negative := n < 0, digits := wordDigits n.natAbs }

/-- The digits that `digit_stream_to_bignum` allocates; the product is an `unsigned int`. -/
def streamLength (nDigits r : Nat) : Nat := bitsToDigits (unsignedInt (nDigits * r.size))

/-- The producer yields the digits of the list, as many as an `unsigned int` can count. -/
def digitStreamToBignum (stream : List Nat) (r : Nat) (negative : Bool) : Option Bignum :=
  if 1 < r ∧ r ≤ radixRoot then
    match stream.take (unsignedInt stream.length) with
    | [] => some makeZero
    | [digit] => some (longToBignum (signed negative digit))
    | digits => do
      let result ← digits.foldlM (streamDigit r) (List.replicate (streamLength digits.length r) 0)
      some (trim { negative, digits := result })
  else none

/-- The working copy, the digits of it that are still scanned, and what the consumer got. -/
structure Streaming where
  working : List Nat
  scan : Nat
  delivered : List Nat

def streamStep (r : Nat) (s : Streaming) : Option (Option Streaming) :=
  match s.scan with
  | 0 => some none
  | scan + 1 => do
    if (← s.working[scan]?) = 0 then some (some { s with scan := scan })
    else do
      let (working, digit) ← destructiveScaleDown s.working r
      some (some { s with working := working, delivered := s.delivered ++ [digit] })

def bignumToDigitStream (fuel : Nat) (x : Bignum) (r : Nat) : Option (List Nat) :=
  if 1 < r ∧ r ≤ radixRoot then (loop (streamStep r) fuel ⟨x.digits, x.digits.length, []⟩).map Streaming.delivered else none

variable {x : Bignum} {r d n : Nat} {ds stream : List Nat} {negative : Bool}

/-- What is delivered and what is left make up the number. -/
structure Streams (r total : Nat) (s : Streaming) : Prop where
  digits : Digits radix s.working
  inside : s.scan ≤ s.working.length
  below : ofDigits radix s.working < radix ^ s.scan
  delivered : Digits r s.delivered
  whole : ofDigits r s.delivered + r ^ s.delivered.length * ofDigits radix s.working = total
  leading : ofDigits radix s.working = 0 → Leading s.delivered

theorem streamStep_spec {total : Nat} {s : Streaming} (large : 1 < r) (small : r < radixRoot) (streams : Streams r total s) :
    (streamStep r s = some none ∧ ofDigits radix s.working = 0) ∨
    ∃ s', streamStep r s = some (some s') ∧ Streams r total s' ∧
      Prod.Lex (· < ·) (· < ·) (ofDigits radix s'.working, s'.scan) (ofDigits radix s.working, s.scan) := by
  obtain ⟨working, scan, delivered⟩ := s
  obtain ⟨digits, inside, below, delivered_digits, whole, leading⟩ := streams
  dsimp only at *
  cases scan with
  | zero => exact .inl ⟨rfl, Nat.lt_one_iff.mp below⟩
  | succ scan =>
    right
    obtain ⟨d, held⟩ : ∃ d, working[scan]? = some d := ⟨_, getElem?_eq_getElem inside⟩
    obtain ⟨inside', same⟩ := List.getElem?_eq_some_iff.mp held
    have split := ofDigits_take_add_drop (b := radix) working inside'.le
    rw [drop_eq_getElem_cons inside', same, ofDigits_cons, ofDigits_drop_eq_zero working inside below, mul_zero,
      add_zero] at split
    by_cases zero : d = 0
    · have less : ofDigits radix working < radix ^ scan := by
        have low := Nat.ofDigits_lt_base_pow_length one_lt_radix (digits.take scan)
        rw [length_take, min_eq_left inside'.le] at low
        rw [zero, mul_zero] at split
        rwa [split]
      refine ⟨⟨working, scan, delivered⟩, by simp [streamStep, held, zero],
        ⟨digits, inside'.le, less, delivered_digits, whole, leading⟩, ?_⟩
      exact Prod.lex_def.mpr (.inr ⟨rfl, Nat.lt_succ_self scan⟩)
    · obtain ⟨quotient, remainder, ran, digits', length, less, value⟩ :=
        scaleDownDigits_spec (Nat.zero_lt_of_lt large) small digits
      have positive : 0 < ofDigits radix working := by
        have power : 0 < radix ^ scan * d := mul_pos (Nat.pow_pos (by decide)) (pos_of_ne_zero zero)
        omega
      have smaller : ofDigits radix quotient < ofDigits radix working := by
        have twice : 2 * ofDigits radix quotient ≤ r * ofDigits radix quotient := Nat.mul_le_mul_right _ large
        omega
      refine ⟨⟨quotient, scan + 1, delivered ++ [remainder]⟩, ?_,
        ⟨digits', length ▸ inside, smaller.trans below, ?_, ?_, fun done => ?_⟩, Prod.lex_def.mpr (.inl smaller)⟩
      · simp [streamStep, held, zero, destructiveScaleDown, large, small, ran]
      · apply delivered_digits.append
        intro c member
        rw [mem_singleton.mp member]
        exact less
      · rw [Nat.ofDigits_append, Nat.ofDigits_singleton, length_append, length_singleton, ← whole, ← value]
        ring
      · dsimp only at done ⊢
        -- The last digit is what was left of the number.
        rw [done] at value
        rw [Leading, getLast?_concat]
        intro none
        rw [Option.some.inj none] at value
        omega

theorem bignumToDigitStream_spec (normalized : x.Normalized) (large : 1 < r) (small : r < radixRoot) :
    ∃ fuel ds, bignumToDigitStream fuel x r = some ds ∧ Digits r ds ∧ Leading ds ∧ ofDigits r ds = x.magnitude := by
  have start : Streams r x.magnitude ⟨x.digits, x.digits.length, []⟩ := by
    refine ⟨normalized.digits, le_rfl, normalized.magnitude_lt, digits_nil, ?_, ?_⟩
    · simp [magnitude]
    · simp
  obtain ⟨fuel, s, ends, streams, finished⟩ :=
    loop_ends (streamStep r) (Streams r x.magnitude) (fun s => (ofDigits radix s.working, s.scan))
      (fun s streams => (streamStep_spec large small streams).imp_left And.left) start
  have nothing : ofDigits radix s.working = 0 := by
    rcases streamStep_spec large small streams with ⟨-, zero⟩ | ⟨s', stepped, -⟩
    · exact zero
    · rw [finished] at stepped
      cases stepped
  refine ⟨fuel, s.delivered, ?_, streams.delivered, streams.leading nothing, ?_⟩
  · rw [bignumToDigitStream, if_pos ⟨large, small.le⟩, ends]
    rfl
  · have whole := streams.whole
    rwa [nothing, mul_zero] at whole

theorem destructiveAdd_spec (digits : Digits radix ds) (small : n < radix) (some_digit : ds ≠ [] ∨ 0 < n) :
    (ofDigits radix ds + n < radix ^ ds.length → ∃ rs, destructiveAdd ds n = some rs ∧ Digits radix rs ∧
      rs.length = ds.length ∧ ofDigits radix rs = ofDigits radix ds + n) ∧
    (radix ^ ds.length ≤ ofDigits radix ds + n → destructiveAdd ds n = none) := by
  induction ds generalizing n with
  | nil =>
    have positive : 0 < n := some_digit.resolve_left fun nonempty => nonempty rfl
    refine ⟨fun less => ?_, fun _ => rfl⟩
    rw [length_nil, pow_zero] at less
    omega
  | cons d ds ih =>
    rw [digits_cons] at digits
    have upper := Nat.ofDigits_lt_base_pow_length one_lt_radix digits.2
    have sum_word := word_eq (n := d + n) (by rw [radix_eq] at *; omega)
    have power : radix ^ (d :: ds).length = radix * radix ^ ds.length := by rw [length_cons, pow_succ, mul_comm]
    rw [power, ofDigits_cons]
    by_cases fits : d + n < radix
    · have less : d + n + radix * ofDigits radix ds < radix * radix ^ ds.length := (lt_mul_iff fits).mpr upper
      refine ⟨fun _ => ⟨(d + n) :: ds, ?_, digits_cons.mpr ⟨fits, digits.2⟩, rfl, ?_⟩, fun large => absurd large (by omega)⟩
      · rw [destructiveAdd, sum_word, someBind, if_pos fits]
      · rw [ofDigits_cons]
        omega
    · obtain ⟨low, sum⟩ : ∃ low, d + n = low + radix := ⟨d + n - radix, by omega⟩
      have low_small : low < radix := by omega
      have moved : d + radix * ofDigits radix ds + n = low + radix * (ofDigits radix ds + 1) := by
        rw [Nat.mul_succ]
        omega
      obtain ⟨kept, lost⟩ := ih (n := 1) digits.2 one_lt_radix (.inr one_pos)
      have step : destructiveAdd (d :: ds) n = (destructiveAdd ds 1).bind fun rs => some (low :: rs) := by
        have digit : d + n - radix = low := by omega
        rw [destructiveAdd, sum_word, someBind, if_neg fits, digit]
        rfl
      rw [moved, step]
      refine ⟨fun less => ?_, fun large => ?_⟩
      · obtain ⟨rs, ran, digits', length, value⟩ := kept ((lt_mul_iff low_small).mp less)
        refine ⟨low :: rs, by rw [ran]; rfl, digits_cons.mpr ⟨low_small, digits'⟩, by simp [length], ?_⟩
        rw [ofDigits_cons, value]
      · rw [lost]
        · rfl
        · exact not_lt.mp fun less => large.not_gt ((lt_mul_iff low_small).mpr less)

theorem streamDigit_spec (large : 1 < r) (small : r < radixRoot) (digits : Digits radix ds) (nonempty : ds ≠ []) (digit : d < r) :
    (r * ofDigits radix ds + d < radix ^ ds.length → ∃ rs, streamDigit r ds d = some rs ∧ Digits radix rs ∧
      rs.length = ds.length ∧ ofDigits radix rs = r * ofDigits radix ds + d) ∧
    (radix ^ ds.length ≤ r * ofDigits radix ds + d → streamDigit r ds d = none) := by
  obtain ⟨rs, carry, ran, digits', length, value⟩ := scaleUpDigits_spec ds small digits (by decide : 0 < radixRoot)
  have up : scaleUp ds r = if carry = 0 then some rs else none := by
    rw [scaleUp, if_pos ⟨large, small⟩, ran]
    rfl
  rw [add_zero] at value
  by_cases settled : carry = 0
  · rw [settled, mul_zero] at value
    have ran_up : streamDigit r ds d = destructiveAdd rs d := by
      rw [streamDigit, up, if_pos settled]
      rfl
    have root : radixRoot ≤ radix := by decide
    have nonempty' : rs ≠ [] := by
      rintro rfl
      exact nonempty (eq_nil_of_length_eq_zero length.symm)
    obtain ⟨kept, lost⟩ := destructiveAdd_spec (n := d) digits' (digit.trans (small.trans_le root)) (.inl nonempty')
    rw [ran_up, ← value, ← length]
    exact ⟨kept, lost⟩
  · have overflow : radix ^ ds.length ≤ r * ofDigits radix ds := by
      have carried : radix ^ ds.length * 1 ≤ radix ^ ds.length * carry := Nat.mul_le_mul_left _ (Nat.one_le_iff_ne_zero.mpr settled)
      omega
    refine ⟨fun less => absurd less (by omega), fun _ => ?_⟩
    rw [streamDigit, up, if_neg settled]
    rfl

theorem horner (v : Nat) : r ^ (d :: stream).length * v + ofDigits r (d :: stream).reverse =
    r ^ stream.length * (r * v + d) + ofDigits r stream.reverse := by
  rw [reverse_cons, Nat.ofDigits_append, Nat.ofDigits_singleton, length_reverse, length_cons]
  ring

theorem foldlM_streamDigit_spec (large : 1 < r) (small : r < radixRoot) (digits : Digits radix ds) (nonempty : ds ≠ [])
    (stream_digits : Digits r stream) :
    (r ^ stream.length * ofDigits radix ds + ofDigits r stream.reverse < radix ^ ds.length →
      ∃ rs, stream.foldlM (streamDigit r) ds = some rs ∧ Digits radix rs ∧ rs ≠ [] ∧
        ofDigits radix rs = r ^ stream.length * ofDigits radix ds + ofDigits r stream.reverse) ∧
    (stream ≠ [] → radix ^ ds.length ≤ r ^ stream.length * ofDigits radix ds + ofDigits r stream.reverse →
      stream.foldlM (streamDigit r) ds = none) := by
  induction stream generalizing ds with
  | nil => exact ⟨fun _ => ⟨ds, rfl, digits, nonempty, by simp⟩, absurd rfl⟩
  | cons d stream ih =>
    rw [digits_cons] at stream_digits
    rw [horner, foldlM_cons]
    obtain ⟨kept, lost⟩ := streamDigit_spec large small digits nonempty stream_digits.1
    have power : 0 < r ^ stream.length := Nat.pow_pos (Nat.zero_lt_of_lt large)
    have grows : r * ofDigits radix ds + d ≤ r ^ stream.length * (r * ofDigits radix ds + d) := Nat.le_mul_of_pos_left _ power
    by_cases fits : r * ofDigits radix ds + d < radix ^ ds.length
    · obtain ⟨rs, ran, digits', length, value⟩ := kept fits
      have nonempty' : rs ≠ [] := by
        rintro rfl
        exact nonempty (eq_nil_of_length_eq_zero length.symm)
      obtain ⟨kept', lost'⟩ := ih digits' nonempty' stream_digits.2
      rw [value, length] at kept' lost'
      rw [ran]
      refine ⟨kept', fun _ overflow => ?_⟩
      rcases eq_nil_or_concat stream with rfl | ⟨init, last, rfl⟩
      · simp at overflow
        omega
      · exact lost' (by simp) overflow
    · rw [lost (not_lt.mp fits)]
      exact ⟨fun less => absurd less (by omega), fun _ _ => rfl⟩

/-- The digits are gathered in a result that is zero at first; in a result without digits not even one finds room. -/
theorem gathered_spec (large : 1 < r) (small : r < radixRoot) (digits : Digits r stream) (nonempty : stream ≠ []) (length : Nat) :
    (0 < length ∧ ofDigits r stream.reverse < radix ^ length →
      ∃ rs, stream.foldlM (streamDigit r) (List.replicate length 0) = some rs ∧ Digits radix rs ∧ rs ≠ [] ∧
        ofDigits radix rs = ofDigits r stream.reverse) ∧
    (¬(0 < length ∧ ofDigits r stream.reverse < radix ^ length) →
      stream.foldlM (streamDigit r) (List.replicate length 0) = none) := by
  rcases eq_zero_or_pos length with rfl | positive
  · obtain ⟨d, rest, rfl⟩ := exists_cons_of_ne_nil nonempty
    refine ⟨fun room => absurd room.1 (lt_irrefl 0), fun _ => ?_⟩
    have first : streamDigit r [] d = none := by simp [streamDigit, scaleUp, scaleUpDigits, small, destructiveAdd]
    rw [replicate_zero, foldlM_cons, first]
    rfl
  · have zeros : Digits radix (replicate length 0) := by
      intro d member
      rw [eq_of_mem_replicate member]
      decide
    obtain ⟨kept, lost⟩ := foldlM_streamDigit_spec large small zeros (by simpa using positive.ne') digits
    rw [Nat.ofDigits_replicate_zero, mul_zero, zero_add, length_replicate] at kept lost
    refine ⟨fun room => kept room.2, fun unfit => lost nonempty ?_⟩
    exact not_lt.mp fun less => unfit ⟨positive, less⟩

theorem longToBignum_represents (n : Int) : (longToBignum n).Represents n := by
  unfold longToBignum
  split_ifs with zero one minus_one
  · rw [zero]
    exact represents_makeZero
  · rw [one]
    exact represents_makeOne false
  · rw [minus_one]
    exact represents_makeOne true
  · obtain ⟨digits, leading, value⟩ := wordDigits_spec n.natAbs
    refine ⟨⟨digits, leading, fun empty => ?_⟩, ?_⟩
    · dsimp only at empty
      rw [empty, Nat.ofDigits_nil] at value
      omega
    · rw [toInt, magnitude]
      simp only [decide_eq_true_eq]
      omega

/-- The digits of a number in a radix, leading zeros included, find room in the result. -/
def Fits (nDigits r value : Nat) : Prop := nDigits ≤ 1 ∨ (0 < streamLength nDigits r ∧ value < radix ^ streamLength nDigits r)

theorem digitStreamToBignum_spec (negative : Bool) (large : 1 < r) (small : r < radixRoot) (digits : Digits r stream)
    (count : stream.length < 2 ^ 32) :
    (Fits stream.length r (ofDigits r stream.reverse) → ∃ b, digitStreamToBignum stream r negative = some b ∧
      b.Represents (signed negative (ofDigits r stream.reverse))) ∧
    (¬Fits stream.length r (ofDigits r stream.reverse) → digitStreamToBignum stream r negative = none) := by
  rw [digitStreamToBignum, if_pos ⟨large, small.le⟩, unsignedInt_of_lt count, take_length]
  match stream with
  | [] =>
    refine ⟨fun _ => ⟨makeZero, rfl, ?_⟩, absurd (.inl (Nat.zero_le 1))⟩
    rw [reverse_nil, Nat.ofDigits_nil, signed_zero]
    exact represents_makeZero
  | [digit] =>
    refine ⟨fun _ => ⟨_, rfl, ?_⟩, absurd (.inl le_rfl)⟩
    exact longToBignum_represents _
  | d :: d' :: rest =>
    have several : ¬(d :: d' :: rest).length ≤ 1 := by simp
    simp only [Fits, several, false_or]
    obtain ⟨kept, lost⟩ :=
      gathered_spec large small digits (cons_ne_nil _ _) (streamLength (d :: d' :: rest).length r)
    refine ⟨fun room => ?_, fun unfit => ?_⟩
    · obtain ⟨rs, ran, digits', nonempty, value⟩ := kept room
      have trimmed := represents_trim (x := { negative, digits := rs }) digits' nonempty
      rw [magnitude, value] at trimmed
      exact ⟨_, by rw [ran]; rfl, trimmed⟩
    · rw [lost unfit]
      rfl

theorem digitStreamToBignum_take :
    digitStreamToBignum stream r negative = digitStreamToBignum (stream.take (unsignedInt stream.length)) r negative := by
  have count : (stream.take (unsignedInt stream.length)).length = unsignedInt stream.length := by
    rw [length_take]
    exact min_eq_left (Nat.mod_le _ _)
  have again : unsignedInt (unsignedInt stream.length) = unsignedInt stream.length := Nat.mod_mod _ _
  rw [digitStreamToBignum, digitStreamToBignum, count, again, take_take, min_self]

theorem ofDigits_drop_ne (large : 1 < r) (leading : Leading ds) {k : Nat} (some_dropped : 0 < k) (inside : k ≤ ds.length) :
    ofDigits r (ds.drop k) ≠ ofDigits r ds := by
  intro same
  have nonempty : ds ≠ [] := ne_nil_of_length_pos (by omega)
  have positive : 0 < ofDigits r ds :=
    (Nat.pow_pos (Nat.zero_lt_of_lt large)).trans_le (pow_le_ofDigits leading nonempty)
  have split := ofDigits_take_add_drop (b := r) ds inside
  have power : 2 ≤ r ^ k := large.trans_le (Nat.le_self_pow (pos_iff_ne_zero.mp some_dropped) r)
  have twice := Nat.mul_le_mul_right (ofDigits r ds) power
  rw [same] at split
  omega

def Returns (r n : Nat) : Prop := (Nat.digits r n).length < 2 ^ 32 ∧ Fits (Nat.digits r n).length r n

theorem digitStreamToBignum_returns_iff (normalized : x.Normalized) (large : 1 < r) (small : r < radixRoot) (digits : Digits r ds)
    (leading : Leading ds) (value : ofDigits r ds = x.magnitude) :
    digitStreamToBignum ds.reverse r x.negative = some x ↔ Returns r x.magnitude := by
  have same : Nat.digits r x.magnitude = ds := by
    rw [← value]
    refine Nat.digits_ofDigits r large ds digits fun nonempty zero => leading ?_
    rw [getLast?_eq_some_getLast nonempty, zero]
  have digits_reverse : Digits r ds.reverse := fun d member => digits d (mem_reverse.mp member)
  rw [Returns, same]
  by_cases count : ds.length < 2 ^ 32
  · have spec := digitStreamToBignum_spec x.negative large small digits_reverse (by rwa [length_reverse])
    rw [reverse_reverse, value, length_reverse] at spec
    obtain ⟨accepted, rejected⟩ := spec
    refine ⟨fun back => ⟨count, ?_⟩, fun returns => ?_⟩
    · by_contra unfit
      rw [rejected unfit] at back
      cases back
    · obtain ⟨b, ran, represents⟩ := accepted returns.2
      rw [ran, represents.unique normalized.represents]
  · refine iff_of_false (fun back => ?_) fun returns => count returns.1
    have fewer : unsignedInt ds.length < 2 ^ 32 := Nat.mod_lt _ (by decide)
    rw [digitStreamToBignum_take, length_reverse] at back
    have digits_taken : Digits r (ds.reverse.take (unsignedInt ds.length)) := fun d member =>
      digits_reverse d (mem_of_mem_take member)
    have taken : (ds.reverse.take (unsignedInt ds.length)).length < 2 ^ 32 := by
      rw [length_take]
      omega
    obtain ⟨accepted, rejected⟩ := digitStreamToBignum_spec x.negative large small digits_taken taken
    by_cases room : Fits (ds.reverse.take (unsignedInt ds.length)).length r
        (ofDigits r (ds.reverse.take (unsignedInt ds.length)).reverse)
    · obtain ⟨b, ran, represents⟩ := accepted room
      rw [ran] at back
      cases back
      have magnitude := represents.value
      rw [toInt_eq_signed] at magnitude
      have equal : ofDigits r (ds.reverse.take (unsignedInt ds.length)).reverse = ofDigits r ds := by
        cases sign : x.negative <;> simp [signed, sign] at magnitude <;> omega
      rw [reverse_take, reverse_reverse, length_reverse] at equal
      exact ofDigits_drop_ne large leading (by omega) (Nat.sub_le _ _) equal
    · rw [rejected room] at back
      cases back

/-- The digits that are delivered are right, and a stream of digits denotes its number when it fits. -/
theorem digit_streams_exact_iff (large : 1 < r) (small : r < radixRoot) :
    (∀ x : Bignum, x.Normalized → ∃ fuel ds, bignumToDigitStream fuel x r = some ds ∧ Digits r ds ∧ Leading ds ∧
      ofDigits r ds = x.magnitude ∧ (digitStreamToBignum ds.reverse r x.negative = some x ↔ Returns r x.magnitude)) ∧
    ∀ stream, Digits r stream → stream.length < 2 ^ 32 → ∀ negative,
      (∃ b, digitStreamToBignum stream r negative = some b ∧ b.Represents (signed negative (ofDigits r stream.reverse))) ↔
        Fits stream.length r (ofDigits r stream.reverse) := by
  refine ⟨fun x normalized => ?_, fun stream digits count negative => ?_⟩
  · obtain ⟨fuel, ds, ran, digits, leading, value⟩ := bignumToDigitStream_spec normalized large small
    exact ⟨fuel, ds, ran, digits, leading, value, digitStreamToBignum_returns_iff normalized large small digits leading value⟩
  · obtain ⟨accepted, rejected⟩ := digitStreamToBignum_spec negative large small digits count
    refine ⟨fun denotes => ?_, accepted⟩
    obtain ⟨b, ran, -⟩ := denotes
    by_contra unfit
    rw [rejected unfit] at ran
    cases ran

theorem digit_streams_exact_iff_decimal :
    (∀ x : Bignum, x.Normalized → ∃ fuel ds, bignumToDigitStream fuel x 10 = some ds ∧ Digits 10 ds ∧ Leading ds ∧
      ofDigits 10 ds = x.magnitude ∧ (digitStreamToBignum ds.reverse 10 x.negative = some x ↔ Returns 10 x.magnitude)) ∧
    ∀ stream, Digits 10 stream → stream.length < 2 ^ 32 → ∀ negative,
      (∃ b, digitStreamToBignum stream 10 negative = some b ∧ b.Represents (signed negative (ofDigits 10 stream.reverse))) ↔
        Fits stream.length 10 (ofDigits 10 stream.reverse) :=
  digit_streams_exact_iff (by decide) (by decide)

theorem digitStreamToBignum_overruns :
    let stream := 1 :: List.replicate (2 ^ 31 - 1) 0
    Digits 2 stream ∧ stream.length = 2 ^ 31 ∧ streamLength stream.length 2 = 0 ∧ digitStreamToBignum stream 2 false = none := by
  intro stream
  have digits : Digits 2 stream := by
    refine digits_cons.mpr ⟨by decide, fun d member => ?_⟩
    rw [eq_of_mem_replicate member]
    decide
  have length : stream.length = 2 ^ 31 := by
    rw [length_cons, length_replicate]
    decide
  have nothing : streamLength (2 ^ 31) 2 = 0 := by decide
  refine ⟨digits, length, by rw [length, nothing], ?_⟩
  apply (digitStreamToBignum_spec false (by decide) (by decide) digits (by rw [length]; decide)).2
  rw [length, Fits, nothing]
  simp

end MitScheme.Microcode.Bignum
