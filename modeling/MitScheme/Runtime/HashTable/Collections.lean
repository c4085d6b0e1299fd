import MitScheme.Runtime.HashTable.Walks

/-!
Tables across garbage collections. A collection changes the hash numbers that come from addresses, reclaims entries of
weak tables, and sets the flag of the tables that rehash after it.
-/

namespace MitScheme.Runtime.HashTables

open Library List

/-- The types of a table after each number of collections -/
structure MovingType (κ : Type) where
  after : ℕ → TableType κ
  keyEqual : ∀ n, (after n).keyEqual = (after 0).keyEqual
  rehashAfterGc : ∀ n, (after n).rehashAfterGc = (after 0).rehashAfterGc
  keyHash : (after 0).rehashAfterGc = false → ∀ n, (after n).keyHash = (after 0).keyHash

section
variable {κ δ : Type} (type : TableType κ) (table : HashTable κ δ) (key : κ)

/-- `method:get` -/
def get : Option (HashTable κ δ × Option δ) := do
  let (table, hash) ← computeHash type table key
  match ← searchLoop type table.pairs key table.pairs.length (table.bucket hash) none with
  | (some p, _) => return (table, some (← table.pairs[p]?).car.datum)
  | (none, _) => return (table, none)

def hashTableUpdate (procedure : Option δ → δ) : Option (HashTable κ δ) := do
  let (table, datum) ← get type table key
  put type table key (procedure datum)

def hashTableClear : HashTable κ δ :=
  resetTable { table with growSize := if table.initialSizeInEffect then table.growSize else minimumSize, count := 0 }

def Entry.reclaim (dead : κ → Bool) (entry : Entry κ δ) : Entry κ δ :=
  { entry with reclaimed := entry.reclaimed || dead entry.key }

/-- A collection, and `mark-address-hash-tables!` after it -/
def collect (dead : κ → Bool) : HashTable κ δ :=
  { table with
    needsRehash := table.needsRehash || type.rehashAfterGc
    pairs := table.pairs.map fun pair => { pair with car := pair.car.reclaim dead } }

end

/-- Equal keys are reclaimed together. None is reclaimed from a strong table. -/
inductive Event {κ : Type} (type : MovingType κ) (δ : Type) where
  | change (operation : Operation κ δ)
  | ref (key : κ)
  | update (key : κ) (procedure : Option δ → δ)
  | clear
  | collect (dead : κ → Bool) (together : ∀ a b, (type.after 0).keyEqual a b = true → dead a = dead b)

structure Session (κ δ : Type) where
  collections : ℕ
  table : HashTable κ δ

section
variable {κ δ : Type} {type : MovingType κ}

def Session.step (s : Session κ δ) : Event type δ → Option (Session κ δ)
  | .change operation => (perform (type.after s.collections) s.table operation).map (⟨s.collections, ·⟩)
  | .ref key => (get (type.after s.collections) s.table key).map (⟨s.collections, ·.1⟩)
  | .update key procedure => (hashTableUpdate (type.after s.collections) s.table key procedure).map (⟨s.collections, ·⟩)
  | .clear => some ⟨s.collections, hashTableClear s.table⟩
  | .collect dead _ => some ⟨s.collections + 1, collect (type.after s.collections) s.table dead⟩

def runAll (s : Session κ δ) (events : List (Event type δ)) : Option (Session κ δ) := events.foldlM Session.step s

/-- The associations of a key are replaced. -/
def change (type : TableType κ) (key : κ) (datum : Option δ) (map : κ → Option δ) : κ → Option δ :=
  fun key' => if type.keyEqual key' key then datum else map key'

/-- What an event does to a finite map. -/
def mapStep (map : κ → Option δ) : Event type δ → κ → Option δ
  | .change (.set key datum) => change (type.after 0) key (some datum) map
  | .change (.delete key) => change (type.after 0) key none map
  | .change (.setRehashSize _) | .change (.setRehashThreshold _) | .ref _ => map
  | .update key procedure => change (type.after 0) key (some (procedure (map key))) map
  | .clear => fun _ => none
  | .collect dead _ => fun key => if dead key then none else map key

end

section
variable {κ δ : Type} {type : TableType κ} {table table' : HashTable κ δ} {cells : List (List (ℕ × Entry κ δ))}
  {nodes nodes' : List (ℕ × Entry κ δ)} {map : κ → Option δ} {key key' : κ} {datum : δ}

/-- The valid entries are the associations of the map. -/
def Presents (type : TableType κ) (nodes : List (ℕ × Entry κ δ)) (map : κ → Option δ) : Prop :=
  ∀ key datum, map key = some datum ↔ ∃ c ∈ live nodes, type.keyEqual c.2.key key = true ∧ c.2.datum = datum

def Refines (type : TableType κ) (table : HashTable κ δ) (map : κ → Option δ) : Prop :=
  ∃ cells, Valid type table cells ∧ Presents type cells.flatten map

theorem Kept.refines {cells' : List (List (ℕ × Entry κ δ))} (kept : Kept type table table' cells cells')
    (presents : Presents type cells.flatten map) : Refines type table' map := by
  refine ⟨cells', kept.valid, fun key datum => ?_⟩
  simp only [presents key datum, kept.perm.mem_iff]

theorem keyEqual_congr (equal : type.keyEqual key' key = true) (a : κ) : type.keyEqual a key' = type.keyEqual a key := by
  apply Bool.eq_iff_iff.mpr
  exact ⟨fun here => type.trans _ _ _ here equal, fun here => type.trans _ _ _ here (type.symm _ _ equal)⟩

theorem Presents.change (found : List (ℕ × Entry κ δ)) {given : Option δ} (presents : Presents type nodes map)
    (here : ∀ c ∈ found, type.keyEqual c.2.key key = true)
    (one : ∀ datum, given = some datum ↔ ∃ c ∈ found, c.2.datum = datum)
    (perm : (live nodes').Perm (found ++ others type key (live nodes))) :
    Presents type nodes' (change type key given map) := by
  intro key' datum
  simp only [perm.mem_iff, mem_append, or_and_right, exists_or, others, mem_filter, and_assoc, HashTables.change]
  by_cases same : type.keyEqual key' key = true
  · simp only [keyEqual_congr same, if_pos same, one]
    constructor
    · rintro ⟨c, member, held⟩
      exact .inl ⟨c, member, here c member, held⟩
    · rintro (⟨c, member, -, held⟩ | ⟨c, -, different, equal, -⟩)
      · exact ⟨c, member, held⟩
      · simp [equal] at different
  · rw [if_neg same, presents key' datum]
    have apart (c : ℕ × Entry κ δ) (equal : type.keyEqual c.2.key key' = true) : ¬type.keyEqual c.2.key key = true :=
      fun equal' => same (type.trans _ _ _ (type.symm _ _ equal) equal')
    constructor
    · rintro ⟨c, member, equal, held⟩
      exact .inr ⟨c, member, by simp [apart c equal], equal, held⟩
    · rintro (⟨c, member, equal, -⟩ | ⟨c, member, -, equal, held⟩)
      · exact absurd (here c member) (apart c equal)
      · exact ⟨c, member, equal, held⟩

theorem get_refines (refines : Refines type table map) (key : κ) :
    ∃ table', get type table key = some (table', map key) ∧ Refines type table' map := by
  obtain ⟨cells, valid, presents⟩ := refines
  obtain ⟨table', cells', hashed, kept, clear, -⟩ := computeHash_spec valid key
  obtain ⟨-, presents'⟩ : Refines type table' map := kept.refines presents
  refine ⟨table', ?_, kept.refines presents⟩
  rw [get, hashed, Option.bind_eq_bind, Option.bind_some]
  dsimp only
  rcases search_spec kept.valid clear key with ⟨front, c, rest, split, here, returns⟩ | ⟨absent, returns⟩
  · have chain := kept.valid.linked.chains (type.keyHash key cells'.length)
    rw [split] at chain
    obtain ⟨-, -, -, next, held, -⟩ := chain_append.mp chain
    have member : c ∈ live cells'.flatten := by
      apply mem_filter.mpr
      exact ⟨mem_flatten_of_getD (i := type.keyHash key cells'.length) (by rw [split]; simp), by simp [here.1]⟩
    simp [returns, held, (presents key c.2.datum).mpr ⟨c, kept.perm.mem_iff.mp member, here.2, rfl⟩]
  · have missing : map key = none := by
      apply Option.eq_none_iff_forall_ne_some.mpr
      intro datum found
      obtain ⟨c, member, equal, -⟩ := (presents key datum).mp found
      obtain ⟨member, valid⟩ := mem_filter.mp (kept.perm.mem_iff.mpr member)
      exact absent c member ⟨by simpa using valid, equal⟩
    simp [returns, missing]

theorem put_refines (refines : Refines type table map) (key : κ) (datum : δ) :
    ∃ table', put type table key datum = some table' ∧ Refines type table' (change type key (some datum) map) := by
  obtain ⟨cells, valid, presents⟩ := refines
  obtain ⟨table', cells', returns, inserted⟩ := put_spec valid key datum
  obtain ⟨c, here, rfl, perm⟩ := inserted.perm
  refine ⟨table', returns, cells', inserted.valid, presents.change [c] ?_ ?_ perm⟩
  · simp [here.2]
  · simp

theorem remove_refines (refines : Refines type table map) (key : κ) :
    ∃ table', remove type table key = some table' ∧ Refines type table' (change type key none map) := by
  obtain ⟨cells, valid, presents⟩ := refines
  obtain ⟨table', cells', returns, removed⟩ := remove_spec valid key
  exact ⟨table', returns, cells', removed.valid, presents.change [] (by simp) (by simp) removed.perm⟩

theorem resetTable_refines (grounded : Grounded some none table.pairs) (empty : table.count = 0) (primes : 0 < table.primes)
    (flag : table.needsRehash = true → type.rehashAfterGc = true) : Refines type (resetTable table) fun _ => none := by
  have positive := resetTable_primes table primes
  refine ⟨_, ⟨(resetTable_spec table).1, by simpa using positive, positive, grounded, ?_, flag, fun _ i c member => ?_, ?_⟩, ?_⟩
  · rw [flatten_replicate_nil]
    exact empty
  · rw [getD_replicate_nil] at member
    cases member
  · simp [DistinctKeys, live]
  · simp [Presents, live]

def reclaimCell (dead : κ → Bool) (c : ℕ × Entry κ δ) : ℕ × Entry κ δ := (c.1, c.2.reclaim dead)

theorem live_reclaim (dead : κ → Bool) :
    live (nodes.map (reclaimCell dead)) = ((live nodes).filter fun c => !dead c.2.key).map (reclaimCell dead) := by
  rw [live, live, filter_map, filter_filter]
  congr 1
  apply filter_congr
  simp [reclaimCell, Entry.reclaim, Bool.and_comm]

section
variable {type' : TableType κ} (keyEqual : type'.keyEqual = type.keyEqual) (rehash : type'.rehashAfterGc = type.rehashAfterGc)
  (keyHash : type.rehashAfterGc = false → type'.keyHash = type.keyHash)
include keyEqual rehash keyHash

theorem collect_valid (valid : Valid type table cells) (dead : κ → Bool) :
    Valid type' (collect type table dead) (cells.map (List.map (reclaimCell dead))) := by
  refine mapped_valid valid (by simp) (fun c => ⟨rfl, rfl, fun alive => ?_⟩) (fun start nodes chain => ?_) keyEqual
    (fun set => ?_) fun clear => ?_
  · exact (Bool.or_eq_false_iff.mp alive).1
  · exact chain.map (Entry.reclaim dead)
  · rw [rehash]
    exact (Bool.or_eq_true_iff.mp set).elim valid.flag id
  · exact (Bool.or_eq_false_iff.mp clear).imp_right keyHash

theorem collect_refines (refines : Refines type table map) {dead : κ → Bool}
    (together : ∀ a b, type.keyEqual a b = true → dead a = dead b) :
    Refines type' (collect type table dead) fun key => if dead key then none else map key := by
  obtain ⟨cells, valid, presents⟩ := refines
  refine ⟨_, collect_valid keyEqual rehash keyHash valid dead, fun key datum => ?_⟩
  rw [← map_flatten, live_reclaim, keyEqual, Option.ite_none_left_eq_some, presents key datum]
  constructor
  · rintro ⟨alive, c, member, equal, held⟩
    rw [← together _ _ equal] at alive
    exact ⟨_, mem_map.mpr ⟨c, mem_filter.mpr ⟨member, by simpa using alive⟩, rfl⟩, equal, held⟩
  · rintro ⟨_, moved, equal, held⟩
    obtain ⟨c, among, rfl⟩ := mem_map.mp moved
    obtain ⟨member, alive⟩ := mem_filter.mp among
    refine ⟨?_, c, member, equal, held⟩
    rw [← together _ _ equal]
    simpa [reclaimCell, Entry.reclaim] using alive

end

end

section
variable {κ δ : Type} {type : MovingType κ} {s : Session κ δ} {map : κ → Option δ}

theorem step_refines (refines : Refines (type.after s.collections) s.table map) (event : Event type δ) :
    ∃ s', s.step event = some s' ∧ Refines (type.after s'.collections) s'.table (mapStep map event) := by
  have moved : (change (type.after s.collections) : κ → Option δ → _) = change (type.after 0) := by
    unfold change
    rw [type.keyEqual]
  cases event with
  | change operation =>
    cases operation with
    | set key datum =>
      obtain ⟨table', returns, refines'⟩ := put_refines refines key datum
      exact ⟨⟨s.collections, table'⟩, by simp [Session.step, perform, returns], by rwa [moved] at refines'⟩
    | delete key =>
      obtain ⟨table', returns, refines'⟩ := remove_refines refines key
      exact ⟨⟨s.collections, table'⟩, by simp [Session.step, perform, returns], by rwa [moved] at refines'⟩
    | setRehashSize size =>
      obtain ⟨cells, valid, presents⟩ := refines
      obtain ⟨table', cells', returns, kept, -⟩ :=
        maybeShrinkTable_spec (valid.parameters s.table.rehashThreshold size (computeShrinkSize size s.table.growSize))
      exact ⟨⟨s.collections, table'⟩, by simp [Session.step, perform, setHashTableRehashSize, returns], kept.refines presents⟩
    | setRehashThreshold threshold =>
      obtain ⟨cells, valid, presents⟩ := refines
      obtain ⟨table', cells', returns, kept, -⟩ :=
        newSize_spec (valid.parameters threshold s.table.rehashSize s.table.shrinkSize) s.table.growSize
      exact ⟨⟨s.collections, table'⟩, by simp [Session.step, perform, setHashTableRehashThreshold, returns], kept.refines presents⟩
  | ref key =>
    obtain ⟨table', returns, refines'⟩ := get_refines refines key
    exact ⟨⟨s.collections, table'⟩, by simp [Session.step, returns], refines'⟩
  | update key procedure =>
    obtain ⟨table₁, found, refines₁⟩ := get_refines refines key
    obtain ⟨table', returns, refines'⟩ := put_refines refines₁ key (procedure (map key))
    exact ⟨⟨s.collections, table'⟩, by simp [Session.step, hashTableUpdate, found, returns], by rwa [moved] at refines'⟩
  | clear =>
    obtain ⟨cells, valid, -⟩ := refines
    exact ⟨_, rfl, resetTable_refines valid.grounded rfl valid.primes valid.flag⟩
  | collect dead together =>
    refine ⟨_, rfl, collect_refines ?_ ?_ (fun fixed => ?_) refines fun a b equal => together a b ?_⟩
    · rw [type.keyEqual, type.keyEqual s.collections]
    · rw [type.rehashAfterGc, type.rehashAfterGc s.collections]
    · rw [type.rehashAfterGc] at fixed
      rw [type.keyHash fixed, type.keyHash fixed s.collections]
    · rwa [type.keyEqual] at equal

theorem runAll_refines (refines : Refines (type.after s.collections) s.table map) (events : List (Event type δ)) :
    ∃ s', runAll s events = some s' ∧ Refines (type.after s'.collections) s'.table (events.foldl mapStep map) := by
  induction events generalizing s map with
  | nil => exact ⟨s, rfl, refines⟩
  | cons event events ih =>
    obtain ⟨s₁, first, refines₁⟩ := step_refines refines event
    obtain ⟨s', rest, refines'⟩ := ih refines₁
    exact ⟨s', by rwa [runAll, foldlM_cons, first], refines'⟩

/-- However operations and collections follow each other, a table that was made empty answers as the finite map does, and
a walk through it finds each association of the map once. -/
theorem tables_are_maps (type : MovingType κ) (initialSize : Option ℕ) (events : List (Event type δ)) :
    ∃ s, runAll ⟨0, makeHashTable initialSize⟩ events = some s ∧
      (∀ key, ∃ table, get (type.after s.collections) s.table key = some (table, events.foldl mapStep (fun _ => none) key)) ∧
      (∀ key datum, events.foldl mapStep (fun _ => none) key = some datum ↔
        ∃ c ∈ associations s.table, (type.after 0).keyEqual c.2.key key = true ∧ c.2.datum = datum) ∧
      (associations s.table).Pairwise fun c c' => (type.after 0).keyEqual c.2.key c'.2.key = false := by
  have empty : Refines (type.after 0) (makeHashTable initialSize : HashTable κ δ) fun _ => none := by
    have reset (table : HashTable κ δ) (pairs : table.pairs = []) (empty : table.count = 0) (primes : 0 < table.primes)
        (clear : table.needsRehash = false) : Refines (type.after 0) (resetTable table) fun _ => none := by
      refine resetTable_refines (fun i inside => ?_) empty primes fun set => ?_
      · simp [pairs] at inside
      · simp [clear] at set
    unfold makeHashTable
    split
    · split <;> exact reset _ rfl rfl two_pos rfl
    · exact reset _ rfl rfl two_pos rfl
  obtain ⟨s, returns, refines⟩ := runAll_refines (s := ⟨0, makeHashTable initialSize⟩) empty events
  refine ⟨s, returns, fun key => ?_, ?_⟩
  · obtain ⟨table, answers, -⟩ := get_refines refines key
    exact ⟨table, answers⟩
  · obtain ⟨cells, valid, presents⟩ := refines
    rw [associations_eq valid.linked, ← type.keyEqual s.collections]
    exact ⟨presents, valid.keys⟩

end

end MitScheme.Runtime.HashTables
