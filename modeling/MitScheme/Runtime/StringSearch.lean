import MitScheme.Library.Borders

/-!
The naive search and the Knuth-Morris-Pratt search over a part of the text. A reference outside of a
string or a vector is `none`; so is a loop that runs out of its fuel. The inner `none` is `#f`.
-/

namespace MitScheme.Runtime.StringSearch

open Library List Nat

section
variable {α : Type} [DecidableEq α]

def naiveMatch (pattern text : List α) : Nat → Nat → Nat → Option Bool
  | 0, _, _ => some true
  | left + 1, pi, ti => do
    let p ← pattern[pi]?
    let t ← text[ti]?
    if p = t then naiveMatch pattern text left (pi + 1) (ti + 1) else some false

def findForward (pattern text : List α) (tlast : Int) : Nat → Nat → Option (Option Nat)
  | 0, _ => none
  | fuel + 1, tindex =>
    if tindex ≤ tlast then do
      let found ← naiveMatch pattern text pattern.length 0 tindex
      if found then some (some tindex) else findForward pattern text tlast fuel (tindex + 1)
    else some none

def findBackward (pattern text : List α) (tstart : Nat) : Nat → Int → Option (Option Nat)
  | 0, _ => none
  | fuel + 1, tindex =>
    if tindex ≥ tstart then do
      let found ← naiveMatch pattern text pattern.length 0 tindex.toNat
      if found then some (some tindex.toNat) else findBackward pattern text tstart fuel (tindex - 1)
    else some none

def findAll (pattern text : List α) (tstart : Nat) : Nat → Int → List Nat → Option (List Nat)
  | 0, _, _ => none
  | fuel + 1, tindex, found =>
    if tindex ≥ tstart then do
      let here ← naiveMatch pattern text pattern.length 0 tindex.toNat
      findAll pattern text tstart fuel (tindex - 1) (if here then tindex.toNat :: found else found)
    else some found

def naiveSearchForward (pattern text : List α) (tstart tend : Nat) : Option (Option Nat) :=
  findForward pattern text (tend - pattern.length) (tend + 1) tstart

def naiveSearchBackward (pattern text : List α) (tstart tend : Nat) : Option (Option Nat) :=
  findBackward pattern text tstart (tend + 1) (tend - pattern.length)

def naiveSearchAll (pattern text : List α) (tstart tend : Nat) : Option (List Nat) :=
  findAll pattern text tstart (tend + 1) (tend - pattern.length) []

def matchLoop (pchar : Nat → Option α) (pi : List Nat) (char : α) : Nat → Nat → Option Nat
  | 0, _ => none
  | fuel + 1, nMatched => do
    let p ← pchar nMatched
    if p = char then some (nMatched + 1)
    else if nMatched > 0 then do
      let link ← pi[nMatched - 1]?
      matchLoop pchar pi char fuel link
    else some 0

def newNMatched (pchar : Nat → Option α) (pi : List Nat) (char : α) (nMatched : Nat) : Option Nat :=
  matchLoop pchar pi char (nMatched + 1) nMatched

/-- `compute-pi`, with the part of the vector that is set, and the number of entries to set after
the next one. -/
def computePi (pchar : Nat → Option α) : Nat → List Nat → Nat → Option (List Nat)
  | 0, pi, nMatched => some (pi ++ [nMatched])
  | left + 1, pi, nMatched => do
    let pi := pi ++ [nMatched]
    let char ← pchar pi.length
    let nMatched ← newNMatched pchar pi char nMatched
    computePi pchar left pi nMatched

def kmpPrefixFunction (pend : Nat) (pchar : Nat → Option α) : Option (List Nat) := computePi pchar (pend - 1) [] 0

def prefixChar (pattern : List α) (q : Nat) : Option α := pattern[q]?

def suffixChar (pattern : List α) (q : Nat) : Option α := pattern[pattern.length - 1 - q]?

def kmpForward (pattern text : List α) (pi : List Nat) (tend : Nat) : Nat → Nat → Nat → Option (Option Nat)
  | 0, _, _ => none
  | fuel + 1, i, nMatched =>
    if i < tend then do
      let char ← text[i]?
      let nMatched ← newNMatched (prefixChar pattern) pi char nMatched
      if nMatched < pattern.length then kmpForward pattern text pi tend fuel (i + 1) nMatched
      else some (some (i - (pattern.length - 1)))
    else some none

def kmpBackward (pattern text : List α) (pi : List Nat) (tstart : Nat) : Nat → Int → Nat → Option (Option Nat)
  | 0, _, _ => none
  | fuel + 1, i, nMatched =>
    if i ≥ tstart then do
      let char ← text[i.toNat]?
      let nMatched ← newNMatched (suffixChar pattern) pi char nMatched
      if nMatched < pattern.length then kmpBackward pattern text pi tstart fuel (i - 1) nMatched
      else some (some i.toNat)
    else some none

def kmpAll (pattern text : List α) (pi : List Nat) (tend : Nat) : Nat → Nat → Nat → List Nat → Option (List Nat)
  | 0, _, _, _ => none
  | fuel + 1, i, nMatched, found =>
    if i < tend then do
      let char ← text[i]?
      let nMatched ← newNMatched (prefixChar pattern) pi char nMatched
      if nMatched < pattern.length then kmpAll pattern text pi tend fuel (i + 1) nMatched found
      else
        let link ← pi[nMatched - 1]?
        kmpAll pattern text pi tend fuel (i + 1) link ((i - (pattern.length - 1)) :: found)
    else some found.reverse

def kmpSearchForward (pattern text : List α) (tstart tend : Nat) : Option (Option Nat) := do
  let pi ← kmpPrefixFunction pattern.length (prefixChar pattern)
  kmpForward pattern text pi tend (tend + 1) tstart 0

def kmpSearchBackward (pattern text : List α) (tstart tend : Nat) : Option (Option Nat) := do
  let pi ← kmpPrefixFunction pattern.length (suffixChar pattern)
  kmpBackward pattern text pi tstart (tend + 1) (tend - 1) 0

def kmpSearchAll (pattern text : List α) (tstart tend : Nat) : Option (List Nat) := do
  let pi ← kmpPrefixFunction pattern.length (prefixChar pattern)
  kmpAll pattern text pi tend (tend + 1) tstart 0 []

def kmpPatternMin : Nat := 8

/-- The choice between the two searches; an empty pattern and an index out of range are errors. -/
def stringMatcher {β : Type} (naive kmp : List α → List α → Nat → Nat → Option β) (pattern text : List α)
    (tstart tend : Nat) : Option β :=
  if pattern.length = 0 then none
  else if tstart ≤ tend ∧ tend ≤ text.length then
    if pattern.length < kmpPatternMin then naive pattern text tstart tend else kmp pattern text tstart tend
  else none

def stringSearchForward (pattern text : List α) : Nat → Nat → Option (Option Nat) :=
  stringMatcher naiveSearchForward kmpSearchForward pattern text

def stringSearchBackward (pattern text : List α) : Nat → Nat → Option (Option Nat) :=
  stringMatcher naiveSearchBackward kmpSearchBackward pattern text

def stringSearchAll (pattern text : List α) : Nat → Nat → Option (List Nat) :=
  stringMatcher naiveSearchAll kmpSearchAll pattern text

abbrev Occurs (pattern text : List α) (tend i : Nat) : Prop := pattern <+: (text.drop i).take (tend - i)

/-- The indices from `low` to before `high` at which the pattern stands in the text. -/
def occurrencesIn (pattern text : List α) (tend low high : Nat) : List Nat :=
  (List.range' low (high - low)).filter (Occurs pattern text tend ·)

/-- The indices of the matches in a part of the text, in ascending order. -/
def occurrences (pattern text : List α) (tstart tend : Nat) : List Nat :=
  occurrencesIn pattern text tend tstart tend

variable {pattern text : List α} {tstart tend low high i : Nat}

omit [DecidableEq α] in
theorem occurs_iff (fits : i + pattern.length ≤ tend) : Occurs pattern text tend i ↔ pattern <+: text.drop i := by
  rw [Occurs, List.prefix_take_iff]
  exact ⟨And.left, fun occurs => ⟨occurs, by omega⟩⟩

omit [DecidableEq α] in
theorem Occurs.fits (occurs : Occurs pattern text tend i) (inside : i ≤ tend) : i + pattern.length ≤ tend := by
  have length := occurs.length_le
  rw [List.length_take] at length
  omega

theorem occurrencesIn_empty (empty : high ≤ low) : occurrencesIn pattern text tend low high = [] := by
  rw [occurrencesIn, Nat.sub_eq_zero_of_le empty]
  rfl

theorem occurrencesIn_cons (more : low < high) : occurrencesIn pattern text tend low high =
    if Occurs pattern text tend low then low :: occurrencesIn pattern text tend (low + 1) high
    else occurrencesIn pattern text tend (low + 1) high := by
  obtain ⟨left, rfl⟩ := Nat.exists_eq_add_of_lt more
  have length : low + left + 1 - low = left + 1 := by omega
  have length' : low + left + 1 - (low + 1) = left := by omega
  rw [occurrencesIn, occurrencesIn, length, length', range'_succ, filter_cons]
  simp

theorem occurrencesIn_concat (more : low ≤ high) : occurrencesIn pattern text tend low (high + 1) =
    occurrencesIn pattern text tend low high ++ if Occurs pattern text tend high then [high] else [] := by
  obtain ⟨left, rfl⟩ := Nat.exists_eq_add_of_le more
  have length : low + left + 1 - low = left + 1 := by omega
  rw [occurrencesIn, occurrencesIn, length, range'_1_concat]
  by_cases occurs : Occurs pattern text tend (low + left)
  · simp [occurs]
  · simp [occurs]

theorem occurrencesIn_append {mid : Nat} (left : low ≤ mid) (right : mid ≤ high) :
    occurrencesIn pattern text tend low high =
      occurrencesIn pattern text tend low mid ++ occurrencesIn pattern text tend mid high := by
  have whole : high - low = mid - low + (high - mid) := by omega
  have start : low + 1 * (mid - low) = mid := by omega
  rw [occurrencesIn, occurrencesIn, occurrencesIn, whole, ← range'_append, filter_append, start]

theorem occurrencesIn_eq (fits : tend < low + pattern.length) (inside : high ≤ tend) :
    occurrencesIn pattern text tend low high = [] := by
  refine filter_eq_nil_iff.mpr ?_
  intro i member occurs
  rw [mem_range'_1] at member
  have fits' := Occurs.fits (of_decide_eq_true occurs) (by omega)
  omega

theorem naiveMatch_spec {left pi ti : Nat} (all : pi + left = pattern.length) (inside : ti + left ≤ text.length) :
    naiveMatch pattern text left pi ti = some (decide (pattern.drop pi <+: text.drop ti)) := by
  induction left generalizing pi ti with
  | zero =>
    rw [naiveMatch, drop_eq_nil_of_le (by omega : pattern.length ≤ pi)]
    simp
  | succ left ih =>
    have read_p : pi < pattern.length := by omega
    have read_t : ti < text.length := by omega
    have rest := @ih (pi + 1) (ti + 1) (by omega) (by omega)
    rw [naiveMatch, getElem?_eq_getElem read_p, getElem?_eq_getElem read_t,
      drop_eq_getElem_cons read_p, drop_eq_getElem_cons read_t]
    simp only [cons_prefix_cons, Option.bind_eq_bind, Option.bind_some]
    by_cases same : pattern[pi] = text[ti]
    · simp [same, rest]
    · simp [same]

theorem naiveMatch_occurs (fits : i + pattern.length ≤ tend) (inside : tend ≤ text.length) :
    naiveMatch pattern text pattern.length 0 i = some (decide (Occurs pattern text tend i)) := by
  rw [naiveMatch_spec (Nat.zero_add _) (by omega), drop_zero]
  simp [occurs_iff fits]

theorem findForward_spec (nonempty : pattern ≠ []) (inside : tend ≤ text.length) {fuel tindex : Nat}
    (before : tindex ≤ tend) (enough : tend < fuel + tindex) :
    findForward pattern text (tend - pattern.length) fuel tindex =
      some (occurrencesIn pattern text tend tindex tend).head? := by
  have positive := length_pos_iff.mpr nonempty
  induction fuel generalizing tindex with
  | zero => omega
  | succ fuel ih =>
    by_cases fits : tindex + pattern.length ≤ tend
    · rw [findForward, if_pos (by omega), naiveMatch_occurs fits inside, occurrencesIn_cons (by omega)]
      by_cases occurs : Occurs pattern text tend tindex
      · simp [occurs]
      · simpa [occurs] using ih (by omega) (by omega)
    · rw [findForward, if_neg (by omega), occurrencesIn_eq (by omega) (le_refl _)]
      rfl

theorem naive_spec (inside : tend ≤ text.length) {fuel high : Nat} {tindex : Int}
    (index : tindex = high - 1 ∨ high ≤ tstart ∧ tindex < tstart) (fits : high ≤ tstart ∨ high - 1 + pattern.length ≤ tend)
    (enough : high < fuel + tstart) (some_fuel : 0 < fuel) :
    findBackward pattern text tstart fuel tindex = some (occurrencesIn pattern text tend tstart high).getLast? ∧
      ∀ found, findAll pattern text tstart fuel tindex found = some (occurrencesIn pattern text tend tstart high ++ found) := by
  induction fuel generalizing high tindex with
  | zero => omega
  | succ fuel ih =>
    by_cases done : high ≤ tstart
    · simp only [findBackward, findAll, if_neg (show ¬tindex ≥ tstart by omega), occurrencesIn_empty done]
      exact ⟨rfl, fun _ => rfl⟩
    · obtain ⟨top, rfl⟩ : ∃ top, high = top + 1 := ⟨high - 1, by omega⟩
      obtain rfl : tindex = top := by omega
      obtain ⟨backward, all⟩ := @ih top _ (.inl rfl) (by omega) (by omega) (by omega)
      have here : naiveMatch pattern text pattern.length 0 top = _ := naiveMatch_occurs (by omega) inside
      rw [findBackward, if_pos (by omega), Int.toNat_natCast, here, occurrencesIn_concat (by omega)]
      simp only [findAll, if_pos (show (top : Int) ≥ tstart by omega), Int.toNat_natCast, here]
      by_cases occurs : Occurs pattern text tend top
      · simp [occurs, all]
      · simp [occurs, backward, all]

theorem occurrencesIn_fits (nonempty : pattern ≠ []) :
    occurrencesIn pattern text tend tstart (tend + 1 - pattern.length) = occurrences pattern text tstart tend := by
  have positive := length_pos_iff.mpr nonempty
  rcases le_total tstart (tend + 1 - pattern.length) with before | after
  · have nothing : occurrencesIn pattern text tend (tend + 1 - pattern.length) tend = [] :=
      occurrencesIn_eq (by omega) (le_refl tend)
    rw [occurrences, occurrencesIn_append before (by omega : _ ≤ tend), nothing, append_nil]
  · rw [occurrencesIn_empty after, occurrences, occurrencesIn_eq (by omega) (le_refl _)]

/-- The first entries of the vector are the lengths of the longest borders. -/
def Linked (p : List α) (pi : List Nat) (count : Nat) : Prop :=
  ∀ q < count, ∃ link, pi[q]? = some link ∧ Longest p (p.tail.take q) q link

variable {p w : List α} {pchar : Nat → Option α} {pi : List Nat} {c : α} {bound nMatched : Nat}

section
variable (chars : ∀ q < p.length, pchar q = p[q]?)
include chars

theorem matchLoop_spec (short : bound < p.length) {fuel : Nat}
    (linked : Linked p pi nMatched) (extendable : Extendable p w c bound nMatched) (enough : nMatched < fuel) :
    ∃ n, matchLoop pchar pi c fuel nMatched = some n ∧ Longest p (w ++ [c]) (bound + 1) n := by
  induction fuel generalizing nMatched with
  | zero => exact absurd enough (not_lt_zero _)
  | succ fuel ih =>
    have inside : nMatched < p.length := by
      have small := extendable.le
      omega
    have read : pchar nMatched = some p[nMatched] := by rw [chars _ inside, getElem?_eq_getElem inside]
    by_cases same : p[nMatched] = c
    · exact ⟨nMatched + 1, by simp [matchLoop, read, same],
        extendable.extend short (by rw [getElem?_eq_getElem inside, same])⟩
    · have mismatch : p[nMatched]? ≠ some c := by
        rw [getElem?_eq_getElem inside]
        exact fun equal => same (Option.some.inj equal)
      cases nMatched with
      | zero => exact ⟨0, by simp [matchLoop, read, same], extendable.none short mismatch⟩
      | succ n =>
        obtain ⟨link, entry, border⟩ := linked n (lt_succ_self n)
        have below := border.le
        obtain ⟨n', ran, longest⟩ := ih (fun q less => linked q (by omega))
          (extendable.fall short mismatch border) (by omega)
        exact ⟨n', by simp [matchLoop, read, same, entry, ran], longest⟩

theorem newNMatched_spec (short : bound < p.length)
    (linked : Linked p pi nMatched) (longest : Longest p w bound nMatched) (c : α) :
    ∃ n, newNMatched pchar pi c nMatched = some n ∧ Longest p (w ++ [c]) (bound + 1) n :=
  matchLoop_spec chars short linked (longest.extendable short c) (lt_succ_self _)

theorem computePi_spec {left : Nat} (all : pi.length + left + 1 = p.length) (linked : Linked p pi pi.length)
    (longest : Longest p (p.tail.take pi.length) pi.length nMatched) : ∃ pi', computePi pchar left pi nMatched =
    some pi' ∧ Linked p pi' p.length := by
  have extended : Linked p (pi ++ [nMatched]) (pi.length + 1) := by
    intro q less
    rcases Nat.lt_succ_iff_lt_or_eq.mp less with less | rfl
    · obtain ⟨link, entry, border⟩ := linked q less
      exact ⟨link, by rw [getElem?_append_left less, entry], border⟩
    · exact ⟨nMatched, by simp, longest⟩
  induction left generalizing pi nMatched with
  | zero => exact ⟨_, rfl, by rwa [← all]⟩
  | succ left ih =>
    have inside : pi.length + 1 < p.length := by omega
    have read : pchar (pi.length + 1) = some p[pi.length + 1] := by
      rw [chars _ inside, getElem?_eq_getElem inside]
    have small := longest.le
    obtain ⟨n, ran, longest'⟩ := newNMatched_spec chars (by omega)
      (fun q less => extended q (by omega)) longest p[pi.length + 1]
    have next : p.tail.take (pi.length + 1) = p.tail.take pi.length ++ [p[pi.length + 1]] := by
      rw [take_add_one, getElem?_tail, getElem?_eq_getElem inside]
      rfl
    rw [← next] at longest'
    have length : (pi ++ [nMatched]).length = pi.length + 1 := by simp
    rw [← length] at longest' extended
    obtain ⟨pi', rest, linked'⟩ := ih (by omega) extended longest' (by
      intro q less
      rcases Nat.lt_succ_iff_lt_or_eq.mp less with less | rfl
      · obtain ⟨link, entry, border⟩ := extended q less
        exact ⟨link, by rw [getElem?_append_left less, entry], border⟩
      · exact ⟨n, by simp, longest'⟩)
    exact ⟨pi', by simp [computePi, read, ran, rest], linked'⟩

end

theorem kmpPrefixFunction_spec (pchar : Nat → Option α) (chars : ∀ q < p.length, pchar q = p[q]?) (nonempty : p ≠ []) :
    ∃ pi, kmpPrefixFunction p.length pchar = some pi ∧ Linked p pi p.length := by
  have positive := length_pos_iff.mpr nonempty
  exact computePi_spec chars (by rw [length_nil]; omega) (fun q less => absurd less (not_lt_zero q))
    (by simpa using longest_nil nonempty 0)

theorem suffix_iff_occurs {i : Nat} (low : tstart ≤ i) (high : i < tend) (inside : tend ≤ text.length) :
    pattern <:+ (text.drop tstart).take (i + 1 - tstart) ↔
      tstart + pattern.length ≤ i + 1 ∧ Occurs pattern text tend (i + 1 - pattern.length) := by
  have length : ((text.drop tstart).take (i + 1 - tstart)).length = i + 1 - tstart := by
    rw [length_take, length_drop]
    omega
  by_cases fits : tstart + pattern.length ≤ i + 1
  · have read : ((text.drop tstart).take (i + 1 - tstart)).drop (i + 1 - tstart - pattern.length) =
        (text.drop (i + 1 - pattern.length)).take pattern.length := by
      rw [drop_take, drop_drop]
      congr 2 <;> omega
    rw [occurs_iff (by omega), suffix_iff_eq_drop, length, read, ← prefix_iff_eq_take]
    exact ⟨fun occurs => ⟨fits, occurs⟩, And.right⟩
  · refine ⟨fun ends => ?_, fun both => absurd both.1 fits⟩
    have long := ends.length_le
    omega

omit [DecidableEq α] in
theorem take_concat {i : Nat} (low : tstart ≤ i) (inside : i < text.length) :
    (text.drop tstart).take (i - tstart) ++ [text[i]] = (text.drop tstart).take (i + 1 - tstart) := by
  have next : i + 1 - tstart = i - tstart + 1 := by omega
  have place : tstart + (i - tstart) = i := by omega
  rw [next, List.take_add_one, List.getElem?_drop, place, List.getElem?_eq_getElem inside]
  rfl

/-- What a character does to the state of a search forward: the state is the length of the longest
prefix, and the pattern is complete when it occurs. -/
theorem forward_step (linked : Linked pattern pi pattern.length) (nonempty : pattern ≠ []) {i : Nat}
    (low : tstart ≤ i) (high : i < tend) (inside : tend ≤ text.length)
    (longest : Longest pattern ((text.drop tstart).take (i - tstart)) (pattern.length - 1) nMatched) :
    ∃ char n, text[i]? = some char ∧ newNMatched (prefixChar pattern) pi char nMatched = some n ∧ n ≤ pattern.length ∧
      (n < pattern.length → Longest pattern ((text.drop tstart).take (i + 1 - tstart)) (pattern.length - 1) n) ∧
      (n = pattern.length → ∃ link, pi[n - 1]? = some link ∧
        Longest pattern ((text.drop tstart).take (i + 1 - tstart)) (pattern.length - 1) link) ∧
      (n = pattern.length ↔ tstart + pattern.length ≤ i + 1 ∧ Occurs pattern text tend (i + 1 - pattern.length)) := by
  have positive := length_pos_iff.mpr nonempty
  have whole : pattern.length - 1 + 1 = pattern.length := Nat.sub_add_cancel positive
  have reads : i < text.length := by omega
  have small := longest.le
  obtain ⟨n, ran, longest'⟩ := newNMatched_spec (fun _ _ => rfl) (by omega)
    (fun q less => linked q (by omega)) longest text[i]
  rw [take_concat low reads, whole] at longest'
  refine ⟨text[i], n, getElem?_eq_getElem reads, ran, longest'.le, longest'.proper, ?_, ?_⟩
  · rintro rfl
    obtain ⟨link, entry, border⟩ := linked (pattern.length - 1) (by omega)
    exact ⟨link, entry, .restart (longest'.complete_iff.mp rfl) nonempty border⟩
  · rw [longest'.complete_iff, suffix_iff_occurs low high inside]

theorem candidates_next (nonempty : pattern ≠ []) {i : Nat} (high : i < tend) :
    occurrencesIn pattern text tend (max tstart (i + 1 - pattern.length)) tend =
      if tstart + pattern.length ≤ i + 1 ∧ Occurs pattern text tend (i + 1 - pattern.length) then
        (i + 1 - pattern.length) :: occurrencesIn pattern text tend (max tstart (i + 2 - pattern.length)) tend
      else occurrencesIn pattern text tend (max tstart (i + 2 - pattern.length)) tend := by
  have positive := length_pos_iff.mpr nonempty
  by_cases fits : tstart + pattern.length ≤ i + 1
  · have here : max tstart (i + 1 - pattern.length) = i + 1 - pattern.length := by omega
    have next : max tstart (i + 2 - pattern.length) = i + 1 - pattern.length + 1 := by omega
    rw [here, next, occurrencesIn_cons (by omega)]
    simp [fits]
  · have same : max tstart (i + 1 - pattern.length) = max tstart (i + 2 - pattern.length) := by omega
    rw [same, if_neg (by omega)]

theorem kmp_spec (linked : Linked pattern pi pattern.length) (nonempty : pattern ≠ []) (inside : tend ≤ text.length)
    {fuel i : Nat} (low : tstart ≤ i) (before : i ≤ tend) (enough : tend < fuel + i)
    (longest : Longest pattern ((text.drop tstart).take (i - tstart)) (pattern.length - 1) nMatched) :
    kmpForward pattern text pi tend fuel i nMatched =
      some (occurrencesIn pattern text tend (max tstart (i + 1 - pattern.length)) tend).head? ∧
    ∀ found, kmpAll pattern text pi tend fuel i nMatched found =
      some (found.reverse ++ occurrencesIn pattern text tend (max tstart (i + 1 - pattern.length)) tend) := by
  have positive := length_pos_iff.mpr nonempty
  induction fuel generalizing i nMatched with
  | zero => omega
  | succ fuel ih =>
    by_cases more : i < tend
    · obtain ⟨char, n, read, ran, small, next, restart, complete⟩ :=
        forward_step linked nonempty low more inside longest
      rw [candidates_next nonempty more]
      by_cases partly : n < pattern.length
      · obtain ⟨first, all⟩ := ih (by omega) (by omega) (by omega) (next partly)
        rw [if_neg (by rw [← complete]; omega)]
        simp [kmpForward, kmpAll, more, read, ran, partly, first, all]
      · obtain ⟨link, entry, longest'⟩ := restart (by omega)
        have place : i - (pattern.length - 1) = i + 1 - pattern.length := by omega
        have all := (ih (by omega) (by omega) (by omega) longest').2
        rw [if_pos (complete.mp (by omega))]
        simp [kmpForward, kmpAll, more, read, ran, partly, entry, place, all]
    · rw [kmpForward, if_neg more, occurrencesIn_eq (by omega) (le_refl _)]
      refine ⟨rfl, fun found => ?_⟩
      rw [kmpAll, if_neg more, append_nil]

theorem kmpBackward_spec (linked : Linked pattern.reverse pi pattern.length) (nonempty : pattern ≠ [])
    (inside : tend ≤ text.length) {fuel high : Nat} {i : Int} (index : i = high - 1) (low : tstart ≤ high)
    (before : high ≤ tend) (enough : high < fuel + tstart)
    (longest : Longest pattern.reverse ((text.drop high).take (tend - high)).reverse (pattern.length - 1) nMatched) :
    kmpBackward pattern text pi tstart fuel i nMatched =
      some (occurrencesIn pattern text tend tstart high).getLast? := by
  have positive := length_pos_iff.mpr nonempty
  have whole : pattern.length - 1 + 1 = pattern.length := Nat.sub_add_cancel positive
  have chars : ∀ q < pattern.reverse.length, suffixChar pattern q = pattern.reverse[q]? := by
    intro q less
    rw [length_reverse] at less
    rw [suffixChar, getElem?_reverse less]
  induction fuel generalizing high i nMatched with
  | zero => omega
  | succ fuel ih =>
    by_cases done : high ≤ tstart
    · rw [kmpBackward, if_neg (by omega), occurrencesIn_empty done]
      rfl
    · obtain ⟨top, rfl⟩ : ∃ top, high = top + 1 := ⟨high - 1, by omega⟩
      obtain rfl : i = top := by omega
      have reads : top < text.length := by omega
      have small := longest.le
      obtain ⟨n, ran, longest'⟩ := newNMatched_spec chars
        (by rw [length_reverse]; omega) (fun q less => linked q (by omega)) longest text[top]
      have next : ((text.drop (top + 1)).take (tend - (top + 1))).reverse ++ [text[top]] =
          ((text.drop top).take (tend - top)).reverse := by
        rw [drop_eq_getElem_cons reads, show tend - top = tend - (top + 1) + 1 by omega, take_succ_cons, reverse_cons]
      rw [next, whole, ← length_reverse] at longest'
      have complete : n = pattern.length ↔ Occurs pattern text tend top := by
        rw [← length_reverse, longest'.complete_iff, reverse_suffix]
      have bound := longest'.le
      rw [length_reverse] at bound
      rw [occurrencesIn_concat (by omega)]
      by_cases partly : n < pattern.length
      · have proper := longest'.proper (by rwa [length_reverse])
        rw [length_reverse] at proper
        have rest := @ih _ top _ rfl (by omega) (by omega) (by omega) proper
        rw [if_neg (by rw [← complete]; omega)]
        have start : (tstart : Int) ≤ top := by omega
        simp [kmpBackward, start, getElem?_eq_getElem reads, ran, partly, rest]
      · rw [if_pos (complete.mp (by omega))]
        have start : (tstart : Int) ≤ top := by omega
        simp [kmpBackward, start, getElem?_eq_getElem reads, ran, partly]

/-- Both searches find the first, the last and all occurrences, so the length of the pattern does
not decide the answer. -/
theorem searches_agree (nonempty : pattern ≠ []) (ordered : tstart ≤ tend) (inside : tend ≤ text.length) :
    (naiveSearchForward pattern text tstart tend = some (occurrences pattern text tstart tend).head? ∧
      kmpSearchForward pattern text tstart tend = some (occurrences pattern text tstart tend).head? ∧
      stringSearchForward pattern text tstart tend = some (occurrences pattern text tstart tend).head?) ∧
    (naiveSearchBackward pattern text tstart tend = some (occurrences pattern text tstart tend).getLast? ∧
      kmpSearchBackward pattern text tstart tend = some (occurrences pattern text tstart tend).getLast? ∧
      stringSearchBackward pattern text tstart tend = some (occurrences pattern text tstart tend).getLast?) ∧
    naiveSearchAll pattern text tstart tend = some (occurrences pattern text tstart tend) ∧
      kmpSearchAll pattern text tstart tend = some (occurrences pattern text tstart tend) ∧
      stringSearchAll pattern text tstart tend = some (occurrences pattern text tstart tend) := by
  have positive := length_pos_iff.mpr nonempty
  have start : max tstart (tstart + 1 - pattern.length) = tstart := by omega
  have matcher {β : Type} {naive kmp : List α → List α → Nat → Nat → Option β} {result : Option β}
      (left : naive pattern text tstart tend = result) (right : kmp pattern text tstart tend = result) :
      stringMatcher naive kmp pattern text tstart tend = result := by
    rw [stringMatcher, if_neg (by omega), if_pos ⟨ordered, inside⟩, left, right, ite_self]
  obtain ⟨pi, prefixes, linked⟩ := kmpPrefixFunction_spec (prefixChar pattern) (fun _ _ => rfl) nonempty
  have initial : Longest pattern ((text.drop tstart).take (tstart - tstart)) (pattern.length - 1) 0 := by
    rw [Nat.sub_self]
    exact longest_nil nonempty _
  have forward : naiveSearchForward pattern text tstart tend = some (occurrences pattern text tstart tend).head? :=
    findForward_spec nonempty inside ordered (by omega)
  have backward : naiveSearchBackward pattern text tstart tend =
      some (occurrences pattern text tstart tend).getLast? := by
    rw [← occurrencesIn_fits nonempty]
    exact (naive_spec inside (by omega) (by omega) (by omega) (succ_pos _)).1
  have all : naiveSearchAll pattern text tstart tend = some (occurrences pattern text tstart tend) := by
    rw [← occurrencesIn_fits nonempty, ← append_nil (occurrencesIn _ _ _ _ _)]
    exact (naive_spec inside (by omega) (by omega) (by omega) (succ_pos _)).2 []
  have forward' : kmpSearchForward pattern text tstart tend = some (occurrences pattern text tstart tend).head? := by
    rw [kmpSearchForward, prefixes, Option.bind_eq_bind, Option.bind_some,
      (kmp_spec linked nonempty inside (le_refl _) ordered (by omega) initial).1, start]
    rfl
  have all' : kmpSearchAll pattern text tstart tend = some (occurrences pattern text tstart tend) := by
    rw [kmpSearchAll, prefixes, Option.bind_eq_bind, Option.bind_some,
      (kmp_spec linked nonempty inside (le_refl _) ordered (by omega) initial).2 [], start]
    rfl
  have backward' : kmpSearchBackward pattern text tstart tend =
      some (occurrences pattern text tstart tend).getLast? := by
    obtain ⟨pi, suffixes, linked⟩ := kmpPrefixFunction_spec (p := pattern.reverse) (suffixChar pattern)
      (fun q less => by
        rw [length_reverse] at less
        rw [suffixChar, getElem?_reverse less])
      (by simpa using nonempty)
    rw [length_reverse] at suffixes linked
    rw [kmpSearchBackward, suffixes, Option.bind_eq_bind]
    refine kmpBackward_spec linked nonempty inside rfl ordered (le_refl _) (by omega) ?_
    rw [Nat.sub_self, take_zero]
    exact longest_nil (by simpa using nonempty) _
  exact ⟨⟨forward, forward', matcher forward forward'⟩, ⟨backward, backward', matcher backward backward'⟩, all, all',
    matcher all all'⟩

theorem searches_agree_overlapping :
    (naiveSearchForward [0, 1, 0] [1, 0, 1, 0, 1, 0] 1 6 = some (occurrences [0, 1, 0] [1, 0, 1, 0, 1, 0] 1 6).head? ∧
      kmpSearchForward [0, 1, 0] [1, 0, 1, 0, 1, 0] 1 6 = some (occurrences [0, 1, 0] [1, 0, 1, 0, 1, 0] 1 6).head? ∧
      stringSearchForward [0, 1, 0] [1, 0, 1, 0, 1, 0] 1 6 =
        some (occurrences [0, 1, 0] [1, 0, 1, 0, 1, 0] 1 6).head?) ∧
    (naiveSearchBackward [0, 1, 0] [1, 0, 1, 0, 1, 0] 1 6 =
        some (occurrences [0, 1, 0] [1, 0, 1, 0, 1, 0] 1 6).getLast? ∧
      kmpSearchBackward [0, 1, 0] [1, 0, 1, 0, 1, 0] 1 6 =
        some (occurrences [0, 1, 0] [1, 0, 1, 0, 1, 0] 1 6).getLast? ∧
      stringSearchBackward [0, 1, 0] [1, 0, 1, 0, 1, 0] 1 6 =
        some (occurrences [0, 1, 0] [1, 0, 1, 0, 1, 0] 1 6).getLast?) ∧
    naiveSearchAll [0, 1, 0] [1, 0, 1, 0, 1, 0] 1 6 = some (occurrences [0, 1, 0] [1, 0, 1, 0, 1, 0] 1 6) ∧
      kmpSearchAll [0, 1, 0] [1, 0, 1, 0, 1, 0] 1 6 = some (occurrences [0, 1, 0] [1, 0, 1, 0, 1, 0] 1 6) ∧
      stringSearchAll [0, 1, 0] [1, 0, 1, 0, 1, 0] 1 6 = some (occurrences [0, 1, 0] [1, 0, 1, 0, 1, 0] 1 6) :=
  searches_agree (by decide) (by decide) (by decide)

end

end MitScheme.Runtime.StringSearch
