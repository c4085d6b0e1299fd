import MitScheme.Library.StableRuns
import Mathlib.Algebra.Order.Group.Int

/-!
`nfd-orderer` reads characters from a source and delivers them from a queue, which it fills with the
characters up to the next starter.
-/

namespace MitScheme.Runtime.NfdOrderer

open Library List

/-- What a generator delivers. -/
inductive Item (C : Type) where
  | char (c : C)
  | eof
  deriving DecidableEq, Repr

section
variable {C : Type} (ucdCccValue : C → Int)

/-- The class of what was read; the end of the input counts as a starter. -/
def ccc : Item C → Int
  | .eof => 0
  | .char c => ucdCccValue c

def maybeTwiddle (ccc : Int) (char : C) : List (Int × C) → List (Int × C)
  | [] => [(ccc, char)]
  | p :: ps => if ccc < p.1 then p :: maybeTwiddle ccc char ps else (ccc, char) :: p :: ps

def finishScan : List (Int × C) → List (Item C) → List (Item C)
  | [], q => q
  | p :: ps, q => finishScan ps (.char p.2 :: q)

/-- The queue and what remains to be read; there is nothing to read after the end of the input. -/
def scanForNonStarterPair : List (Int × C) → List (Item C) → Option (List (Item C) × List (Item C))
  | _, [] => none
  | pending, .eof :: source => some (finishScan pending [.eof], source)
  | pending, .char c :: source =>
    if ccc ucdCccValue (.char c) = 0 then some (finishScan pending [.char c], source)
    else scanForNonStarterPair (maybeTwiddle (ccc ucdCccValue (.char c)) c pending) source

def scanForNonStarter : List (Item C) → Option (List (Item C) × List (Item C))
  | [] => none
  | .eof :: source => some ([.eof], source)
  | .char c :: source =>
    if ccc ucdCccValue (.char c) = 0 then some ([.char c], source)
    else scanForNonStarterPair ucdCccValue [(ccc ucdCccValue (.char c), c)] source

/-- A call of the generator: the queue and the source are its state. The end of the input stays in
the queue. -/
def generatorQueue {S : Type} (getMore : S → Option (List (Item C) × S)) (queue : List (Item C)) (source : S) :
    Option (Item C × List (Item C) × S) := do
  let (queue, source) ← if queue = [] then getMore source else some (queue, source)
  match queue with
  | [] => none
  | .eof :: queue => some (.eof, .eof :: queue, source)
  | .char c :: queue => some (.char c, queue, source)

def nfdOrderer (queue source : List (Item C)) : Option (Item C × List (Item C) × List (Item C)) :=
  generatorQueue (scanForNonStarter ucdCccValue) queue source

def deliver : Nat → List (Item C) → List (Item C) → Option (List (Item C) × List (Item C) × List (Item C))
  | 0, queue, source => some ([], queue, source)
  | n + 1, queue, source => do
    let (item, queue, source) ← nfdOrderer ucdCccValue queue source
    let (items, queue, source) ← deliver n queue source
    some (item :: items, queue, source)

variable {ucdCccValue} {run pending : List C} {xs rest : List C} {queue source : List (Item C)}

theorem maybeTwiddle_split (ccc : Int) (char : C) (ps : List (Int × C)) : ∃ high low, ps = high ++ low ∧
    maybeTwiddle ccc char ps = high ++ (ccc, char) :: low ∧ (∀ p ∈ high, ccc < p.1) ∧ ∀ p ∈ low.head?, p.1 ≤ ccc := by
  induction ps with
  | nil => exact ⟨[], [], rfl, rfl, by simp, by simp⟩
  | cons p ps ih =>
    by_cases less : ccc < p.1
    · obtain ⟨high, low, split, twiddled, large, small⟩ := ih
      refine ⟨p :: high, low, by rw [split]; rfl, by rw [maybeTwiddle, if_pos less, twiddled]; rfl, ?_, small⟩
      exact forall_mem_cons.mpr ⟨less, large⟩
    · refine ⟨[], p :: ps, rfl, by rw [maybeTwiddle, if_neg less]; rfl, by simp, ?_⟩
      simpa using less

theorem finishScan_eq (ps : List (Int × C)) (q : List (Item C)) :
    finishScan ps q = (ps.reverse.map Prod.snd).map .char ++ q := by
  induction ps generalizing q with
  | nil => rfl
  | cons p ps ih => rw [finishScan, ih, reverse_cons, map_append, map_append, append_assoc]; rfl

/-- The pending pairs are the sorted run, in reverse and with the classes. -/
structure Pends (ucdCccValue : C → Int) (run : List C) (ps : List (Int × C)) : Prop where
  classes : ∀ p ∈ ps, p.1 = ucdCccValue p.2
  sorts : StablySorted ucdCccValue run (ps.reverse.map Prod.snd)

theorem pends_single (c : C) : Pends ucdCccValue [c] [(ucdCccValue c, c)] :=
  ⟨by simp, pairwise_singleton _ _, fun _ => rfl⟩

theorem Pends.insert {ps : List (Int × C)} (pends : Pends ucdCccValue run ps) (c : C) :
    Pends ucdCccValue (run ++ [c]) (maybeTwiddle (ucdCccValue c) c ps) := by
  obtain ⟨high, low, split, twiddled, large, small⟩ := maybeTwiddle_split (ucdCccValue c) c ps
  have classes := pends.classes
  have sorts := pends.sorts
  rw [split, forall_mem_append] at classes
  rw [split, reverse_append, map_append] at sorts
  constructor
  · rw [twiddled, forall_mem_append, forall_mem_cons]
    exact ⟨classes.1, rfl, classes.2⟩
  · rw [twiddled, reverse_append, reverse_cons, map_append, map_append, append_assoc]
    apply sorts.insert
    · intro b member
      rw [mem_map] at member
      obtain ⟨p, among, rfl⟩ := member
      rw [mem_reverse] at among
      -- the first of them is the greatest
      have sorted := (pairwise_append.mp sorts.sorted).1
      rw [pairwise_map, pairwise_reverse] at sorted
      cases low with
      | nil => cases among
      | cons p0 low =>
        have first : ucdCccValue p0.2 ≤ ucdCccValue c := by
          rw [← classes.2 p0 mem_cons_self]
          exact small p0 rfl
        rcases mem_cons.mp among with rfl | among
        · exact first
        · exact (rel_of_pairwise_cons sorted among).trans first
    · intro b member
      rw [mem_map] at member
      obtain ⟨p, among, rfl⟩ := member
      rw [mem_reverse] at among
      rw [← classes.1 p among]
      exact large p among

def ended (xs : List C) : List (Item C) := xs.map .char ++ [.eof]

/-- The queue holds a sorted run and what comes after it. -/
inductive Scans (ucdCccValue : C → Int) : List C → List (Item C) → List (Item C) → Prop where
  | last {run out : List C} (loose : ∀ c ∈ run, ucdCccValue c ≠ 0) (sorts : StablySorted ucdCccValue run out) :
    Scans ucdCccValue run (out.map .char ++ [.eof]) []
  | next {run out rest : List C} {c : C} (loose : ∀ c ∈ run, ucdCccValue c ≠ 0)
    (sorts : StablySorted ucdCccValue run out) (starter : ucdCccValue c = 0) :
    Scans ucdCccValue (run ++ c :: rest) (out.map .char ++ [.char c]) (ended rest)

theorem scanForNonStarterPair_scans (xs : List C) {ps : List (Int × C)} (pends : Pends ucdCccValue run ps)
    (loose : ∀ c ∈ run, ucdCccValue c ≠ 0) : ∃ queue source, scanForNonStarterPair ucdCccValue ps (ended xs) =
    some (queue, source) ∧ Scans ucdCccValue (run ++ xs) queue source := by
  induction xs generalizing run ps with
  | nil =>
    rw [append_nil]
    refine ⟨_, _, rfl, ?_⟩
    rw [finishScan_eq]
    exact .last loose pends.sorts
  | cons c xs ih =>
    by_cases starter : ucdCccValue c = 0
    · refine ⟨_, _, if_pos starter, ?_⟩
      rw [finishScan_eq]
      exact .next loose pends.sorts starter
    · obtain ⟨queue, source, scanned, scans⟩ := ih (pends.insert c)
        (forall_mem_append.mpr ⟨loose, by simpa using starter⟩)
      rw [append_assoc] at scans
      exact ⟨queue, source, (if_neg starter).trans scanned, scans⟩

theorem scanForNonStarter_scans (ucdCccValue : C → Int) (xs : List C) : ∃ queue source,
    scanForNonStarter ucdCccValue (ended xs) = some (queue, source) ∧ Scans ucdCccValue xs queue source := by
  cases xs with
  | nil =>
    have scans : Scans ucdCccValue [] (([] : List C).map .char ++ [.eof]) [] := .last (by simp) stablySorted_nil
    exact ⟨_, _, rfl, scans⟩
  | cons c xs =>
    by_cases starter : ucdCccValue c = 0
    · have scans : Scans ucdCccValue ([] ++ c :: xs) (([] : List C).map .char ++ [.char c]) (ended xs) :=
        .next (by simp) stablySorted_nil starter
      exact ⟨_, _, if_pos starter, scans⟩
    · obtain ⟨queue, source, scanned, scans⟩ := scanForNonStarterPair_scans xs (pends_single c) (by simpa using starter)
      exact ⟨queue, source, (if_neg starter).trans scanned, scans⟩

theorem deliver_append {m n : Nat} {items items' queue' source' queue'' source''}
    (first : deliver ucdCccValue m queue source = some (items, queue', source'))
    (second : deliver ucdCccValue n queue' source' = some (items', queue'', source'')) :
    deliver ucdCccValue (m + n) queue source = some (items ++ items', queue'', source'') := by
  induction m generalizing queue source items with
  | zero =>
    cases first
    rw [Nat.zero_add]
    exact second
  | succ m ih =>
    rw [deliver, Option.bind_eq_bind, Option.bind_eq_some_iff] at first
    obtain ⟨⟨item, queue1, source1⟩, called, first⟩ := first
    rw [Option.bind_eq_bind, Option.bind_eq_some_iff] at first
    obtain ⟨⟨items1, queue2, source2⟩, delivered, first⟩ := first
    cases first
    rw [Nat.succ_add, deliver, called]
    simp only [Option.bind_eq_bind, Option.bind_some, ih delivered]
    rfl

theorem deliver_queue (ucdCccValue : C → Int) (xs : List C) (queue source : List (Item C)) :
    deliver ucdCccValue xs.length (xs.map .char ++ queue) source = some (xs.map .char, queue, source) := by
  induction xs with
  | nil => rfl
  | cons c xs ih =>
    rw [length_cons, deliver, map_cons]
    simp [nfdOrderer, generatorQueue, ih]

theorem deliver_eof (n : Nat) : deliver ucdCccValue n [.eof] [] = some (List.replicate n .eof, [.eof], []) := by
  induction n with
  | zero => rfl
  | succ n ih =>
    rw [deliver]
    simp [nfdOrderer, generatorQueue, ih, replicate_succ]

theorem deliver_fill {n : Nat} {queue' source' : List (Item C)} (nonempty : queue' ≠ [])
    (scanned : scanForNonStarter ucdCccValue source = some (queue', source')) :
    deliver ucdCccValue (n + 1) [] source = deliver ucdCccValue (n + 1) queue' source' := by
  have called : nfdOrderer ucdCccValue [] source = nfdOrderer ucdCccValue queue' source' := by
    simp [nfdOrderer, generatorQueue, scanned, nonempty]
  rw [deliver, deliver, called]

theorem deliver_ended (ucdCccValue : C → Int) (xs : List C) : ∃ ys, deliver ucdCccValue (xs.length + 1) [] (ended xs) =
    some (ended ys, [.eof], []) ∧ RunsSorted (fun c => ucdCccValue c = 0) ucdCccValue xs ys := by
  induction length : xs.length using Nat.strong_induction_on generalizing xs with
  | _ n ih =>
    obtain ⟨queue, source, scanned, scans⟩ := scanForNonStarter_scans ucdCccValue xs
    cases scans with
    | @last run out loose sorts =>
      refine ⟨out, ?_, .last loose sorts⟩
      rw [deliver_fill (by simp) scanned, ← length, ← sorts.perm.length_eq]
      exact deliver_append (deliver_queue ucdCccValue out [.eof] []) (deliver_eof 1)
    | @next run out rest c loose sorts starter =>
      rw [length_append, length_cons] at length
      obtain ⟨ys, delivered, runs⟩ := ih rest.length (by omega) rest rfl
      refine ⟨out ++ c :: ys, ?_, .next loose sorts starter runs⟩
      rw [deliver_fill (by simp) scanned, show n + 1 = (out ++ [c]).length + (rest.length + 1) by
        rw [length_append, sorts.perm.length_eq, length_singleton]
        omega]
      have first := deliver_queue ucdCccValue (out ++ [c]) [] (ended rest)
      rw [append_nil, map_append] at first
      have whole := deliver_append first delivered
      rw [map_singleton] at whole
      rw [whole, ended, ended]
      simp

/-- The orderer delivers every character once, each maximal run of characters that are not starters in stable order of
the classes, and then the end of the input. -/
theorem nfdOrderer_orders (ucdCccValue : C → Int) (xs : List C) : ∃ ys,
    deliver ucdCccValue (xs.length + 1) [] (xs.map .char ++ [.eof]) = some (ys.map .char ++ [.eof], [.eof], []) ∧
      ys.Perm xs ∧ RunsSorted (fun c => ucdCccValue c = 0) ucdCccValue xs ys ∧
      (∀ c, ucdCccValue c = 0 → ∀ i : Nat, ys[i]? = some c ↔ xs[i]? = some c) ∧
      ∀ n, deliver ucdCccValue n [.eof] [] = some (List.replicate n .eof, [.eof], []) := by
  obtain ⟨ys, delivered, runs⟩ := deliver_ended ucdCccValue xs
  refine ⟨ys, delivered, runs.perm, runs, ?_, deliver_eof⟩
  intro c starter i
  exact runs.getElem? starter i

end

end MitScheme.Runtime.NfdOrderer
