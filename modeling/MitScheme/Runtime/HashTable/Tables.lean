import MitScheme.Library.Chains
import MitScheme.Runtime.HashTable.Sizes

/-!
A table with the pairs and the vectors that it has allocated. A bucket is a list of pairs. Nothing is returned when a
loop along a list does not end within as many steps as there are pairs.
-/

namespace MitScheme.Runtime.HashTables

open Library

/-- The type of a table: its keys, and whether their hash numbers change with the addresses. -/
structure TableType (κ : Type) where
  keyEqual : κ → κ → Bool
  keyHash : κ → ℕ → ℕ
  rehashAfterGc : Bool
  refl : ∀ a, keyEqual a a = true
  symm : ∀ a b, keyEqual a b = true → keyEqual b a = true
  trans : ∀ a b c, keyEqual a b = true → keyEqual b c = true → keyEqual a c = true
  hash_equal : ∀ a b n, keyEqual a b = true → keyHash a n = keyHash b n
  hash_lt : ∀ a n, 0 < n → keyHash a n < n

/-- A weak entry is not valid once the garbage collector has reclaimed it. -/
structure Entry (κ δ : Type) where
  key : κ
  datum : δ
  reclaimed : Bool
deriving DecidableEq

structure HashTable (κ δ : Type) where
  rehashThreshold : RehashThreshold
  rehashSize : RehashSize
  count : ℕ
  growSize : ℤ
  shrinkSize : ℤ
  buckets : ℕ
  primes : ℕ
  needsRehash : Bool
  initialSizeInEffect : Bool
  pairs : List (Pair (Entry κ δ) (Option ℕ))
  vectors : List (List (Option ℕ))

section
variable {κ δ : Type} (type : TableType κ)

namespace HashTable

variable (table : HashTable κ δ)

/-- `(table-buckets table)` -/
def vector : List (Option ℕ) := table.vectors.getD table.buckets []

def bucket (hash : ℕ) : Option ℕ := table.vector.getD hash none

def setBucket (hash : ℕ) (p : Option ℕ) : HashTable κ δ :=
  { table with vectors := table.vectors.modify table.buckets fun vector => vector.set hash p }

def setCdr (p : ℕ) (q : Option ℕ) : HashTable κ δ :=
  { table with pairs := table.pairs.modify p fun pair => { pair with cdr := q } }

/-- The reference to a pair is changed, in the pair before it or in its bucket. -/
def setNext (hash : ℕ) (before : Option ℕ) (p : Option ℕ) : HashTable κ δ :=
  match before with
  | some q => table.setCdr q p
  | none => table.setBucket hash p

def incrementTableCount : HashTable κ δ := { table with count := table.count + 1 }

def decrementTableCount : HashTable κ δ := { table with count := table.count - 1 }

/-- `set-entry-datum!` on the entry of a pair -/
def setDatum (p : ℕ) (datum : δ) : HashTable κ δ :=
  { table with pairs := table.pairs.modify p fun pair => { pair with car := { pair.car with datum := datum } } }

/-- A new pair, of a new entry and the empty list; its address is the number of the pairs before. -/
def consPair (key : κ) (datum : δ) : HashTable κ δ :=
  { table with pairs := table.pairs ++ [⟨⟨key, datum, false⟩, none⟩] }

/-- The test of `maybe-shrink-table!` -/
def Shrinks : Prop := (table.count : ℤ) < table.shrinkSize ∧ table.initialSizeInEffect = false

instance : Decidable table.Shrinks := by unfold Shrinks; infer_instance

end HashTable

/-- `reset-table!` makes a vector of empty buckets. -/
def resetTable (table : HashTable κ δ) : HashTable κ δ :=
  let size := roundHalfEven (table.growSize / table.rehashThreshold.value)
  let primes := primesLoop size (if size < table.primes then firstPrime else table.primes)
  { table with
    shrinkSize := computeShrinkSize table.rehashSize table.growSize
    primes := primes
    buckets := table.vectors.length
    vectors := table.vectors ++ [List.replicate primes none] }

def rehashLoop : (fuel : ℕ) → Option ℕ → HashTable κ δ → Option (HashTable κ δ)
  | _, none, table => some table
  | 0, some _, _ => none
  | fuel + 1, some p, table => do
    let ⟨entry, q⟩ ← table.pairs[p]?
    if entry.reclaimed then rehashLoop fuel q table.decrementTableCount
    else
      let hash := type.keyHash entry.key table.vector.length
      rehashLoop fuel q ((table.setCdr p (table.bucket hash)).setBucket hash (some p))

def rehash (table : HashTable κ δ) (entries : Option ℕ) : Option (HashTable κ δ) :=
  rehashLoop type table.pairs.length entries table

/-- `new-size!` before its call to `maybe-shrink-table!` -/
def relink (table : HashTable κ δ) (size : ℤ) : Option (HashTable κ δ) :=
  table.vector.foldlM (fun table entries => rehash type table entries)
    { resetTable { table with growSize := size } with needsRehash := false }

structure SameSizes (table table' : HashTable κ δ) : Prop where
  rehashThreshold : table'.rehashThreshold = table.rehashThreshold
  rehashSize : table'.rehashSize = table.rehashSize
  growSize : table'.growSize = table.growSize
  shrinkSize : table'.shrinkSize = table.shrinkSize
  buckets : table'.buckets = table.buckets
  primes : table'.primes = table.primes
  needsRehash : table'.needsRehash = table.needsRehash
  initialSizeInEffect : table'.initialSizeInEffect = table.initialSizeInEffect

variable {table table' table₁ : HashTable κ δ} {type}

theorem SameSizes.refl (table : HashTable κ δ) : SameSizes table table := ⟨rfl, rfl, rfl, rfl, rfl, rfl, rfl, rfl⟩

theorem SameSizes.trans (first : SameSizes table table₁) (second : SameSizes table₁ table') : SameSizes table table' :=
  ⟨second.1.trans first.1, second.2.trans first.2, second.3.trans first.3, second.4.trans first.4,
    second.5.trans first.5, second.6.trans first.6, second.7.trans first.7, second.8.trans first.8⟩

theorem decrementTableCount_sizes : SameSizes table table.decrementTableCount := ⟨rfl, rfl, rfl, rfl, rfl, rfl, rfl, rfl⟩

theorem incrementTableCount_sizes : SameSizes table table.incrementTableCount := ⟨rfl, rfl, rfl, rfl, rfl, rfl, rfl, rfl⟩

theorem consPair_sizes {key : κ} {datum : δ} : SameSizes table (table.consPair key datum) :=
  ⟨rfl, rfl, rfl, rfl, rfl, rfl, rfl, rfl⟩

theorem setNext_sizes {hash : ℕ} {q p : Option ℕ} : SameSizes table (table.setNext hash q p) := by
  cases q <;> exact ⟨rfl, rfl, rfl, rfl, rfl, rfl, rfl, rfl⟩

theorem rehashLoop_sizes {fuel : ℕ} {p : Option ℕ} (returns : rehashLoop type fuel p table = some table') :
    SameSizes table table' := by
  induction fuel generalizing p table with
  | zero =>
    cases p with
    | none => exact Option.some.inj returns ▸ .refl table
    | some p => cases returns
  | succ fuel ih =>
    cases p with
    | none => exact Option.some.inj returns ▸ .refl table
    | some p =>
      rw [rehashLoop, Option.bind_eq_bind, Option.bind_eq_some_iff] at returns
      obtain ⟨⟨entry, q⟩, -, returns⟩ := returns
      dsimp only at returns
      split at returns
      · have rest := ih returns
        exact ⟨rest.1, rest.2, rest.3, rest.4, rest.5, rest.6, rest.7, rest.8⟩
      · have rest := ih returns
        exact ⟨rest.1, rest.2, rest.3, rest.4, rest.5, rest.6, rest.7, rest.8⟩

theorem foldlM_rehash_sizes {buckets : List (Option ℕ)}
    (returns : buckets.foldlM (fun table entries => rehash type table entries) table = some table') :
    SameSizes table table' := by
  induction buckets generalizing table with
  | nil => exact Option.some.inj returns ▸ .refl table
  | cons p buckets ih =>
    rw [List.foldlM_cons, Option.bind_eq_bind, Option.bind_eq_some_iff] at returns
    obtain ⟨table₁, first, rest⟩ := returns
    exact (rehashLoop_sizes first).trans (ih rest)

theorem relink_growSize {size : ℤ} (returns : relink type table size = some table') :
    table'.growSize = size ∧ table'.shrinkSize = computeShrinkSize table'.rehashSize size := by
  have same := foldlM_rehash_sizes returns
  rw [same.growSize, same.shrinkSize, same.rehashSize]
  exact ⟨rfl, rfl⟩

variable (type)

/-- `new-size!`; its last call, to `maybe-shrink-table!`, is written out. -/
def newSize (table : HashTable κ δ) (size : ℤ) : Option (HashTable κ δ) :=
  match _returns : relink type table size with
  | none => none
  | some table' =>
    if table'.Shrinks then newSize table' (shrinkLoop table'.rehashSize table'.count table'.growSize) else some table'
termination_by size.toNat
decreasing_by
  next shrinks =>
  obtain ⟨grow, shrink⟩ := relink_growSize _returns
  have less := shrinks.1
  rw [shrink] at less
  have large := minimumSize_lt_of_lt less
  have smaller := shrinkLoop_lt less
  unfold minimumSize at large
  rw [grow]
  omega

def maybeShrinkTable (table : HashTable κ δ) : Option (HashTable κ δ) :=
  if table.Shrinks then newSize type table (shrinkLoop table.rehashSize table.count table.growSize) else some table

theorem newSize_eq (table : HashTable κ δ) (size : ℤ) :
    newSize type table size = (relink type table size).bind (maybeShrinkTable type) := by
  rw [newSize]
  split
  · next none => rw [none]; rfl
  · next some => rw [some]; rfl

def maybeGrowTable (table : HashTable κ δ) : Option (HashTable κ δ) := do
  if table.count > table.growSize then
    let table ← newSize type table (growLoop table.rehashSize table.count table.growSize)
    return { table with initialSizeInEffect := false }
  else return table

/-- The last pair of a list, for `append!` -/
def lastPair (pairs : List (Pair (Entry κ δ) (Option ℕ))) : (fuel : ℕ) → ℕ → Option ℕ
  | 0, _ => none
  | fuel + 1, p => do
    match (← pairs[p]?).cdr with
    | some q => lastPair pairs fuel q
    | none => return p

/-- The buckets up to `i` are appended, the last of them first. -/
def extractLoop (table : HashTable κ δ) : (i : ℕ) → Option (HashTable κ δ × Option ℕ)
  | 0 => some (table, none)
  | i + 1 => do
    let (table, entries) ← extractLoop table i
    let p := table.bucket i
    let table := table.setBucket i none
    match p with
    | none => return (table, entries)
    | some p =>
      let last ← lastPair table.pairs table.pairs.length p
      return (table.setCdr last entries, some p)

def extractTableEntries (table : HashTable κ δ) : Option (HashTable κ δ × Option ℕ) :=
  extractLoop table table.vector.length

def rehashTable (table : HashTable κ δ) : Option (HashTable κ δ) := do
  let (table, entries) ← extractTableEntries table
  let table ← rehash type { table with needsRehash := false } entries
  maybeShrinkTable type table

/-- `compute-hash!`, for keys with and without address hashing; the flag is clear after `rehash-table!`. -/
def computeHash (table : HashTable κ δ) (key : κ) : Option (HashTable κ δ × ℕ) := do
  if type.rehashAfterGc && table.needsRehash then
    let table ← rehashTable type table
    return (table, type.keyHash key table.vector.length)
  else return (table, type.keyHash key table.vector.length)

def searchLoop (pairs : List (Pair (Entry κ δ) (Option ℕ))) (key : κ) :
    (fuel : ℕ) → (p q : Option ℕ) → Option (Option ℕ × Option ℕ)
  | _, none, q => some (none, q)
  | 0, some _, _ => none
  | fuel + 1, some p, q => do
    let ⟨entry, next⟩ ← pairs[p]?
    if !entry.reclaimed && type.keyEqual entry.key key then return (some p, q) else searchLoop pairs key fuel next (some p)

/-- `method:put!` -/
def put (table : HashTable κ δ) (key : κ) (datum : δ) : Option (HashTable κ δ) := do
  let (table, hash) ← computeHash type table key
  match ← searchLoop type table.pairs key table.pairs.length (table.bucket hash) none with
  | (some p, _) => return table.setDatum p datum
  | (none, q) =>
    let r := table.pairs.length
    maybeGrowTable type ((table.consPair key datum).setNext hash q (some r)).incrementTableCount

/-- `method:remove!`; whether the key was found is not told. -/
def remove (table : HashTable κ δ) (key : κ) : Option (HashTable κ δ) := do
  let (table, hash) ← computeHash type table key
  match ← searchLoop type table.pairs key table.pairs.length (table.bucket hash) none with
  | (some p, q) =>
    let next := (← table.pairs[p]?).cdr
    let table := table.setNext hash q next
    maybeShrinkTable type table.decrementTableCount
  | (none, _) => return table

def makeTable : HashTable κ δ :=
  { rehashThreshold := defaultRehashThreshold, rehashSize := defaultRehashSize, count := 0, growSize := minimumSize,
    shrinkSize := 0, buckets := 0, primes := firstPrime, needsRehash := false, initialSizeInEffect := false,
    pairs := [], vectors := [] }

def makeHashTable (initialSize : Option ℕ) : HashTable κ δ :=
  resetTable <| match initialSize with
    | some size => if size > minimumSize then { makeTable with growSize := size, initialSizeInEffect := true } else makeTable
    | none => makeTable

def setHashTableRehashThreshold (table : HashTable κ δ) (threshold : RehashThreshold) : Option (HashTable κ δ) :=
  newSize type { table with rehashThreshold := threshold } table.growSize

def setHashTableRehashSize (table : HashTable κ δ) (size : RehashSize) : Option (HashTable κ δ) :=
  maybeShrinkTable type
    { table with rehashSize := size, shrinkSize := computeShrinkSize size table.growSize }

end

end MitScheme.Runtime.HashTables
