import MitScheme.Runtime.HashTable.Operations

/-!
A table that is made and then changed by insertions and deletions, and by new rehash parameters, keeps the bounds of its
sizes, and refers only to pairs that have been allocated.
-/

namespace MitScheme.Runtime.HashTables

section
open Library List Option

/-- What a program does to a table that is not weak, between two garbage collections. -/
inductive Operation (κ δ : Type) where
  | set (key : κ) (datum : δ)
  | delete (key : κ)
  | setRehashSize (size : RehashSize)
  | setRehashThreshold (threshold : RehashThreshold)

section
variable {κ δ : Type} (type : TableType κ)

def perform (table : HashTable κ δ) : Operation κ δ → Option (HashTable κ δ)
  | .set key datum => put type table key datum
  | .delete key => remove type table key
  | .setRehashSize size => setHashTableRehashSize type table size
  | .setRehashThreshold threshold => setHashTableRehashThreshold type table threshold

def performAll (table : HashTable κ δ) (operations : List (Operation κ δ)) : Option (HashTable κ δ) :=
  operations.foldlM (perform type) table

/-- The entries are valid and in their buckets, and the sizes keep their bounds. -/
def Healthy (table : HashTable κ δ) : Prop :=
  ∃ cells, Valid type table cells ∧ (∀ c ∈ cells.flatten, c.2.reclaimed = false) ∧ table.needsRehash = false ∧ Sized table

def StaysInitial (table table' : HashTable κ δ) : Prop :=
  table.initialSizeInEffect = true → (table'.count : ℤ) ≤ table.growSize →
    table'.growSize = table.growSize ∧ table'.initialSizeInEffect = true

end

section
variable {κ δ : Type} {type : TableType κ} {table : HashTable κ δ}

theorem healthy_make (type : TableType κ) (initialSize : Option ℕ) : Healthy type (makeHashTable initialSize : HashTable κ δ) := by
  have reset (table : HashTable κ δ) (pairs : table.pairs = []) (count : table.count = 0) (primes : 0 < table.primes)
      (clear : table.needsRehash = false) (least : minimumSize ≤ table.growSize)
      (settled : table.initialSizeInEffect = true ∨ table.growSize ≤ minimumSize) : Healthy type (resetTable table) := by
    obtain ⟨linked, width⟩ := resetTable_spec table
    have positive := resetTable_primes table primes
    refine ⟨_, ⟨linked, by simpa using positive, positive, ?_, ?_, ?_, ?_, ?_⟩, by simp, clear, ⟨⟨rfl, ?_, least, ?_⟩, ?_⟩⟩
    · intro i inside
      rw [show (resetTable table).pairs = [] from pairs] at inside
      cases inside
    · rw [flatten_replicate_nil]
      exact count
    · intro set
      rw [show (resetTable table).needsRehash = false from clear] at set
      contradiction
    · intro _ i c member
      rw [getD_replicate_nil] at member
      cases member
    · rw [flatten_replicate_nil]
      exact .nil
    · rw [← linked.width, length_replicate]
      exact width
    · rw [show (resetTable table).count = 0 from count]
      exact le_trans (by decide) least
    · exact settled.imp_right .inl
  unfold makeHashTable
  split
  · split
    · next size large => exact reset _ rfl rfl two_pos rfl large.le (.inl rfl)
    · exact reset _ rfl rfl two_pos rfl le_rfl (.inr le_rfl)
  · exact reset _ rfl rfl two_pos rfl le_rfl (.inr le_rfl)

theorem perform_healthy (healthy : Healthy type table) (operation : Operation κ δ) :
    ∃ table', perform type table operation = some table' ∧ Healthy type table' ∧ StaysInitial table table' := by
  obtain ⟨cells, valid, strong, clear, sized⟩ := healthy
  cases operation with
  | set key datum =>
    obtain ⟨table', cells', returns, inserted⟩ := put_spec valid key datum
    obtain ⟨sized', stays⟩ := inserted.sized strong clear sized
    exact ⟨table', returns, ⟨cells', inserted.valid, inserted.strong strong, inserted.clear, sized'⟩, stays⟩
  | delete key =>
    obtain ⟨table', cells', returns, removed⟩ := remove_spec valid key
    obtain ⟨sized', stays⟩ := removed.sized clear sized
    refine ⟨table', returns, ⟨cells', removed.valid, fun c member => strong c (removed.subset member), removed.clear, sized'⟩, ?_⟩
    exact fun initial _ => ⟨stays initial, removed.initialSizeInEffect.trans initial⟩
  | setRehashSize size =>
    obtain ⟨table', cells', returns, kept, sized', stays⟩ :=
      maybeShrinkTable_spec (valid.parameters table.rehashThreshold size (computeShrinkSize size table.growSize))
    refine ⟨table', returns, ⟨cells', kept.valid, fun c member => strong c (kept.subset member), kept.clear clear,
      sized' ⟨rfl, sized.width, sized.least, sized.fits⟩⟩, fun initial _ => ?_⟩
    have same := stays fun shrinks => by
      have cleared : table.initialSizeInEffect = false := shrinks.2
      rw [initial] at cleared
      contradiction
    exact same ▸ ⟨rfl, initial⟩
  | setRehashThreshold threshold =>
    obtain ⟨table', cells', returns, kept, sized', cleared, stays⟩ :=
      newSize_spec (valid.parameters threshold table.rehashSize table.shrinkSize) table.growSize
    refine ⟨table', returns, ⟨cells', kept.valid, fun c member => strong c (kept.subset member), cleared,
      sized' sized.least sized.fits⟩, fun initial _ => ⟨stays initial, kept.initialSizeInEffect.trans initial⟩⟩

theorem performAll_healthy (healthy : Healthy type table) (operations : List (Operation κ δ)) :
    ∃ table', performAll type table operations = some table' ∧ Healthy type table' ∧
      (table.initialSizeInEffect = true →
        (∀ n table', performAll type table (operations.take n) = some table' → (table'.count : ℤ) ≤ table.growSize) →
        table'.growSize = table.growSize ∧ table'.initialSizeInEffect = true) := by
  induction operations generalizing table with
  | nil => exact ⟨table, rfl, healthy, fun initial _ => ⟨rfl, initial⟩⟩
  | cons operation operations ih =>
    obtain ⟨table₁, first, healthy₁, stays⟩ := perform_healthy healthy operation
    obtain ⟨table', rest, healthy', stays'⟩ := ih healthy₁
    have step (operations : List (Operation κ δ)) :
        performAll type table (operation :: operations) = performAll type table₁ operations := by
      rw [performAll, foldlM_cons, first]
      rfl
    refine ⟨table', (step operations).trans rest, healthy', fun initial small => ?_⟩
    obtain ⟨same, initial₁⟩ := stays initial (small 1 table₁ (by rw [take_succ_cons, step]; rfl))
    rw [← same]
    refine stays' initial₁ fun n table₂ returns => ?_
    rw [same]
    exact small (n + 1) table₂ (by rw [take_succ_cons, step]; exact returns)

/-- Every cascade of resizings ends with enough buckets, and a table that is neither too full nor, once the initial size
is not in effect, too empty. An initial size above the minimum stays until the count exceeds it. -/
theorem resizing_keeps_bounds (type : TableType κ) (initialSize : Option ℕ) (operations : List (Operation κ δ)) :
    ∃ table, performAll type (makeHashTable initialSize) operations = some table ∧
      (table.count : ℤ) ≤ table.growSize ∧
      roundHalfEven (table.growSize / table.rehashThreshold.value) ≤ table.vector.length ∧
      (table.initialSizeInEffect = true ∨ table.growSize ≤ minimumSize ∨ table.shrinkSize ≤ table.count) ∧
      ∀ k : ℕ, initialSize = some k → minimumSize < k →
        (∀ n table', performAll type (makeHashTable initialSize) (operations.take n) = some table' → table'.count ≤ k) →
        table.growSize = k ∧ table.initialSizeInEffect = true := by
  obtain ⟨table, returns, ⟨cells, -, -, -, sized⟩, stays⟩ := performAll_healthy (healthy_make type initialSize) operations
  refine ⟨table, returns, sized.fits, sized.width, sized.settled, fun k given large small => ?_⟩
  subst given
  have made : (makeHashTable (some k) : HashTable κ δ).growSize = k ∧
      (makeHashTable (some k) : HashTable κ δ).initialSizeInEffect = true := by
    simp [makeHashTable, large, resetTable]
  rw [← made.1]
  refine stays made.2 fun n table' returns => ?_
  rw [made.1]
  exact_mod_cast small n table' returns

end

end

open Library

variable {κ δ : Type} {type : TableType κ} {table table' : HashTable κ δ} {p q : Option ℕ} {n hash i fuel : ℕ} {size : ℤ}

def Allocated (n : ℕ) (p : Option ℕ) : Prop := ∀ i, p = some i → i < n

structure Closed (n : ℕ) (table : HashTable κ δ) : Prop where
  length : table.pairs.length = n
  pairs : ∀ pair ∈ table.pairs, Allocated n pair.cdr
  vectors : ∀ vector ∈ table.vectors, ∀ p ∈ vector, Allocated n p

theorem allocated_none : Allocated n none := nofun

theorem allocated_getD {vector : List (Option ℕ)} (all : ∀ p ∈ vector, Allocated n p) : Allocated n (vector.getD i none) := by
  rw [List.getD_eq_getElem?_getD]
  cases found : vector[i]? with
  | none => exact allocated_none
  | some p => exact all p (List.mem_of_getElem? found)

section
variable (closed : Closed n table)
include closed

theorem Closed.slot (v : ℕ) : ∀ p ∈ table.vectors.getD v [], Allocated n p := by
  intro p member
  rw [List.getD_eq_getElem?_getD] at member
  cases found : table.vectors[v]? with
  | none => simp [found] at member
  | some vector =>
    rw [found] at member
    exact closed.vectors vector (List.mem_of_getElem? found) p member

theorem Closed.bucket : Allocated n (table.bucket i) := allocated_getD (closed.slot _)

theorem Closed.setCdr (allocated : Allocated n q) : Closed n (table.setCdr i q) := by
  refine ⟨by simpa [HashTable.setCdr] using closed.length, fun pair member => ?_, closed.vectors⟩
  obtain ⟨j, inside, rfl⟩ := List.mem_iff_getElem.mp member
  simp only [HashTable.setCdr, List.getElem_modify]
  split
  · exact allocated
  · exact closed.pairs _ (List.getElem_mem _)

theorem Closed.setBucket (allocated : Allocated n p) : Closed n (table.setBucket hash p) := by
  refine ⟨closed.length, closed.pairs, fun vector member q present => ?_⟩
  obtain ⟨j, inside, rfl⟩ := List.mem_iff_getElem.mp member
  simp only [HashTable.setBucket, List.getElem_modify] at present
  split at present
  · rcases List.mem_or_eq_of_mem_set present with old | rfl
    · exact closed.vectors _ (List.getElem_mem _) q old
    · exact allocated
  · exact closed.vectors _ (List.getElem_mem _) q present

theorem Closed.setNext (allocated : Allocated n p) : Closed n (table.setNext hash q p) := by
  cases q with
  | none => exact closed.setBucket allocated
  | some q => exact closed.setCdr allocated

theorem Closed.cdr {pair : Pair (Entry κ δ) (Option ℕ)} (held : table.pairs[i]? = some pair) :
    Allocated n pair.cdr := closed.pairs pair (List.mem_of_getElem? held)

theorem Closed.pair {pair : Pair (Entry κ δ) (Option ℕ)} (held : table.pairs[i]? = some pair) :
    Allocated n (some i) := by
  rintro j ⟨⟩
  exact closed.length ▸ (getElem?_eq_some_iff.mp held).1

theorem resetTable_closed : Closed n (resetTable table) := by
  refine ⟨closed.length, closed.pairs, fun vector member p present => ?_⟩
  rcases List.mem_append.mp member with old | new
  · exact closed.vectors vector old p present
  · rw [List.mem_singleton.mp new] at present
    rw [List.eq_of_mem_replicate present]
    exact allocated_none

theorem rehashLoop_closed (returns : rehashLoop type fuel p table = some table') : Closed n table' := by
  induction fuel generalizing p table with
  | zero =>
    cases p with
    | none => exact Option.some.inj returns ▸ closed
    | some p => cases returns
  | succ fuel ih =>
    cases p with
    | none => exact Option.some.inj returns ▸ closed
    | some p =>
      cases held : table.pairs[p]? with
      | none => simp [rehashLoop, held] at returns
      | some pair =>
        rw [rehashLoop_pair held] at returns
        split at returns
        · have dropped : Closed n table.decrementTableCount := ⟨closed.length, closed.pairs, closed.vectors⟩
          exact ih dropped returns
        · exact ih ((closed.setCdr closed.bucket).setBucket (closed.pair held)) returns

theorem foldlM_rehash_closed {buckets : List (Option ℕ)}
    (returns : buckets.foldlM (fun table entries => rehash type table entries) table = some table') : Closed n table' := by
  induction buckets generalizing table with
  | nil => exact Option.some.inj returns ▸ closed
  | cons p buckets ih =>
    rw [List.foldlM_cons, Option.bind_eq_bind, Option.bind_eq_some_iff] at returns
    obtain ⟨table₁, first, rest⟩ := returns
    exact ih (rehashLoop_closed closed first) rest

theorem relink_closed (returns : relink type table size = some table') : Closed n table' := by
  have grown : Closed n { table with growSize := size } := ⟨closed.length, closed.pairs, closed.vectors⟩
  have reset := resetTable_closed grown
  have cleared : Closed n { resetTable { table with growSize := size } with needsRehash := false } :=
    ⟨reset.length, reset.pairs, reset.vectors⟩
  exact foldlM_rehash_closed cleared returns

theorem newSize_closed (returns : newSize type table size = some table') : Closed n table' := by
  fun_induction newSize type table size with
  | case1 table size none => cases returns
  | case2 table size table₁ relinked shrinks ih => exact ih (relink_closed closed relinked) returns
  | case3 table size table₁ relinked settled => exact Option.some.inj returns ▸ relink_closed closed relinked

theorem maybeShrinkTable_closed (returns : maybeShrinkTable type table = some table') : Closed n table' := by
  unfold maybeShrinkTable at returns
  split at returns
  · exact newSize_closed closed returns
  · exact Option.some.inj returns ▸ closed

theorem extractLoop_closed (returns : extractLoop table i = some (table', q)) : Closed n table' ∧ Allocated n q := by
  induction i generalizing table' q with
  | zero =>
    cases returns
    exact ⟨closed, allocated_none⟩
  | succ i ih =>
    rw [extractLoop, Option.bind_eq_bind, Option.bind_eq_some_iff] at returns
    obtain ⟨⟨table₁, entries⟩, before, returns⟩ := returns
    obtain ⟨closed₁, allocated⟩ := ih before
    dsimp only at returns
    have emptied : Closed n (table₁.setBucket i none) := closed₁.setBucket allocated_none
    split at returns
    · cases returns
      exact ⟨emptied, allocated⟩
    · next p found =>
      rw [Option.bind_eq_bind, Option.bind_eq_some_iff] at returns
      obtain ⟨last, -, returns⟩ := returns
      cases returns
      exact ⟨emptied.setCdr allocated, found ▸ closed₁.bucket⟩

theorem computeHash_closed {key : κ} (returns : computeHash type table key = some (table', hash)) :
    Closed n table' := by
  unfold computeHash at returns
  split at returns
  · rw [Option.bind_eq_bind, Option.bind_eq_some_iff] at returns
    obtain ⟨table₁, rehashed, returns⟩ := returns
    cases returns
    rw [rehashTable, Option.bind_eq_bind, Option.bind_eq_some_iff] at rehashed
    obtain ⟨⟨table₂, entries⟩, taken, rehashed⟩ := rehashed
    rw [Option.bind_eq_bind, Option.bind_eq_some_iff] at rehashed
    obtain ⟨table₃, relinked, shrunk⟩ := rehashed
    obtain ⟨closed₂, -⟩ := extractLoop_closed closed taken
    have cleared : Closed n { table₂ with needsRehash := false } := ⟨closed₂.length, closed₂.pairs, closed₂.vectors⟩
    exact maybeShrinkTable_closed (rehashLoop_closed cleared relinked) shrunk
  · cases returns
    exact closed

theorem remove_closed {key : κ} (returns : remove type table key = some table') : Closed n table' := by
  rw [remove, Option.bind_eq_bind, Option.bind_eq_some_iff] at returns
  obtain ⟨⟨table₁, hash⟩, hashed, returns⟩ := returns
  have closed₁ := computeHash_closed closed hashed
  rw [Option.bind_eq_bind, Option.bind_eq_some_iff] at returns
  obtain ⟨⟨found, before⟩, -, returns⟩ := returns
  cases found with
  | none =>
    cases returns
    exact closed₁
  | some p =>
    rw [Option.bind_eq_bind, Option.bind_eq_some_iff] at returns
    obtain ⟨pair, held, shrunk⟩ := returns
    have unlinked : Closed n (table₁.setNext hash before pair.cdr) := closed₁.setNext (closed₁.cdr held)
    have fewer : Closed n (table₁.setNext hash before pair.cdr).decrementTableCount :=
      ⟨unlinked.length, unlinked.pairs, unlinked.vectors⟩
    exact maybeShrinkTable_closed fewer shrunk

end

theorem Allocated.le {m : ℕ} (allocated : Allocated n p) (le : n ≤ m) : Allocated m p :=
  fun i same => (allocated i same).trans_le le

section
variable (closed : Closed n table)
include closed

theorem Closed.consPair (key : κ) (datum : δ) : Closed (n + 1) (table.consPair key datum) := by
  refine ⟨?_, fun pair member => ?_, fun vector member p present => (closed.vectors vector member p present).le (Nat.le_succ n)⟩
  · simp [HashTable.consPair, closed.length]
  · rcases List.mem_append.mp member with old | new
    · exact (closed.pairs pair old).le (Nat.le_succ n)
    · rw [List.mem_singleton.mp new]
      exact allocated_none

theorem Closed.setDatum (datum : δ) : Closed n (table.setDatum i datum) := by
  refine ⟨by simpa [HashTable.setDatum] using closed.length, fun pair member => ?_, closed.vectors⟩
  obtain ⟨j, inside, rfl⟩ := List.mem_iff_getElem.mp member
  have small : j < table.pairs.length := by simpa [HashTable.setDatum] using inside
  have held := closed.pairs _ (List.getElem_mem small)
  simp only [HashTable.setDatum, List.getElem_modify]
  split <;> exact held

theorem maybeGrowTable_closed (returns : maybeGrowTable type table = some table') : Closed n table' := by
  unfold maybeGrowTable at returns
  split at returns
  · rw [Option.bind_eq_bind, Option.bind_eq_some_iff] at returns
    obtain ⟨table₁, grown, returns⟩ := returns
    cases returns
    have closed₁ := newSize_closed closed grown
    exact ⟨closed₁.length, closed₁.pairs, closed₁.vectors⟩
  · cases returns
    exact closed

theorem put_closed {key : κ} {datum : δ} (returns : put type table key datum = some table') :
    ∃ n', Closed n' table' := by
  rw [put, Option.bind_eq_bind, Option.bind_eq_some_iff] at returns
  obtain ⟨⟨table₁, hash⟩, hashed, returns⟩ := returns
  have closed₁ := computeHash_closed closed hashed
  rw [Option.bind_eq_bind, Option.bind_eq_some_iff] at returns
  obtain ⟨⟨found, before⟩, -, returns⟩ := returns
  cases found with
  | some p =>
    cases returns
    exact ⟨n, closed₁.setDatum datum⟩
  | none =>
    have last : Allocated (n + 1) (some table₁.pairs.length) := by
      rw [closed₁.length]
      rintro i ⟨⟩
      exact Nat.lt_succ_self n
    have appended : Closed (n + 1) ((table₁.consPair key datum).setNext hash before (some table₁.pairs.length)) :=
      (closed₁.consPair key datum).setNext last
    have counted : Closed (n + 1)
        ((table₁.consPair key datum).setNext hash before (some table₁.pairs.length)).incrementTableCount :=
      ⟨appended.length, appended.pairs, appended.vectors⟩
    exact ⟨n + 1, maybeGrowTable_closed counted returns⟩

end

/-- A table as the operations leave it: its buckets are lists of pairs that have been allocated. -/
def Formed (type : TableType κ) (table : HashTable κ δ) : Prop :=
  ∃ cells n, Valid type table cells ∧ Closed n table

theorem formed_make (initialSize : Option ℕ) : Formed type (makeHashTable initialSize : HashTable κ δ) := by
  obtain ⟨cells, valid, -⟩ := healthy_make type initialSize
  have empty (table : HashTable κ δ) (pairs : table.pairs = []) (vectors : table.vectors = []) :
      Closed 0 (resetTable table) := by
    apply resetTable_closed
    exact ⟨by simp [pairs], by simp [pairs], by simp [vectors]⟩
  refine ⟨cells, 0, valid, ?_⟩
  unfold makeHashTable
  split
  · split <;> exact empty _ rfl rfl
  · exact empty _ rfl rfl

theorem perform_formed {operation : Operation κ δ} (formed : Formed type table)
    (returns : perform type table operation = some table') : Formed type table' := by
  obtain ⟨cells, n, valid, closed⟩ := formed
  cases operation with
  | set key datum =>
    obtain ⟨table₁, cells', done, inserted⟩ := put_spec valid key datum
    obtain rfl := Option.some.inj (done.symm.trans returns)
    obtain ⟨n', closed'⟩ := put_closed closed returns
    exact ⟨cells', n', inserted.valid, closed'⟩
  | delete key =>
    obtain ⟨table₁, cells', done, removed⟩ := remove_spec valid key
    obtain rfl := Option.some.inj (done.symm.trans returns)
    exact ⟨cells', n, removed.valid, remove_closed closed returns⟩
  | setRehashSize size =>
    obtain ⟨table₁, cells', done, kept, -⟩ :=
      maybeShrinkTable_spec (valid.parameters table.rehashThreshold size (computeShrinkSize size table.growSize))
    obtain rfl := Option.some.inj (done.symm.trans returns)
    refine ⟨cells', n, kept.valid, maybeShrinkTable_closed ?_ returns⟩
    exact ⟨closed.length, closed.pairs, closed.vectors⟩
  | setRehashThreshold threshold =>
    obtain ⟨table₁, cells', done, kept, -⟩ :=
      newSize_spec (valid.parameters threshold table.rehashSize table.shrinkSize) table.growSize
    obtain rfl := Option.some.inj (done.symm.trans returns)
    refine ⟨cells', n, kept.valid, newSize_closed ?_ returns⟩
    exact ⟨closed.length, closed.pairs, closed.vectors⟩

theorem performAll_formed {operations : List (Operation κ δ)} (formed : Formed type table)
    (returns : performAll type table operations = some table') : Formed type table' := by
  induction operations generalizing table with
  | nil => exact Option.some.inj returns ▸ formed
  | cons operation operations ih =>
    rw [performAll, List.foldlM_cons, Option.bind_eq_bind, Option.bind_eq_some_iff] at returns
    obtain ⟨table₁, first, rest⟩ := returns
    exact ih (perform_formed formed first) rest

end MitScheme.Runtime.HashTables
