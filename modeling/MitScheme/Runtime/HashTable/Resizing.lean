import MitScheme.Runtime.HashTable.Relinking

/-!
A table keeps its associations when it is resized, and its sizes keep their bounds.
-/

namespace MitScheme.Runtime.HashTables

open Library List

variable {κ δ : Type} {type : TableType κ} {table table' table₁ : HashTable κ δ}
  {cells cells' cells₁ : List (List (ℕ × Entry κ δ))} {moved : List (ℕ × Entry κ δ)} {size : ℤ} {n : ℕ}

def Placed (type : TableType κ) (cells : List (List (ℕ × Entry κ δ))) : Prop :=
  ∀ i, ∀ c ∈ cells.getD i [], c.2.reclaimed = false → type.keyHash c.2.key cells.length = i

def DistinctKeys (type : TableType κ) (moved : List (ℕ × Entry κ δ)) : Prop :=
  (live moved).Pairwise fun c c' => type.keyEqual c.2.key c'.2.key = false

structure Valid (type : TableType κ) (table : HashTable κ δ) (cells : List (List (ℕ × Entry κ δ))) : Prop where
  linked : Linked table cells
  nonempty : 0 < cells.length
  primes : 0 < table.primes
  grounded : Grounded some none table.pairs
  count : table.count = cells.flatten.length
  flag : table.needsRehash = true → type.rehashAfterGc = true
  placed : table.needsRehash = false → Placed type cells
  keys : DistinctKeys type cells.flatten

theorem Valid.parameters (valid : Valid type table cells) (rehashThreshold : RehashThreshold) (rehashSize : RehashSize)
    (shrinkSize : ℤ) :
    Valid type { table with rehashThreshold := rehashThreshold, rehashSize := rehashSize, shrinkSize := shrinkSize } cells :=
  ⟨⟨valid.linked.chains, valid.linked.width, valid.linked.distinct, valid.linked.inside⟩, valid.nonempty, valid.primes,
    valid.grounded, valid.count, valid.flag, valid.placed, valid.keys⟩

structure Kept (type : TableType κ) (table table' : HashTable κ δ) (cells cells' : List (List (ℕ × Entry κ δ))) : Prop where
  valid : Valid type table' cells'
  perm : (live cells'.flatten).Perm (live cells.flatten)
  count : table'.count ≤ table.count
  subset : cells'.flatten ⊆ cells.flatten
  cars : table'.pairs.map Pair.car = table.pairs.map Pair.car
  rehashThreshold : table'.rehashThreshold = table.rehashThreshold
  rehashSize : table'.rehashSize = table.rehashSize
  initialSizeInEffect : table'.initialSizeInEffect = table.initialSizeInEffect
  clear : table.needsRehash = false → table'.needsRehash = false

theorem Kept.refl (valid : Valid type table cells) : Kept type table table cells cells :=
  ⟨valid, .refl _, le_rfl, .refl _, rfl, rfl, rfl, rfl, id⟩

theorem Kept.trans (first : Kept type table table₁ cells cells₁) (second : Kept type table₁ table' cells₁ cells') :
    Kept type table table' cells cells' :=
  ⟨second.valid, second.perm.trans first.perm, second.count.trans first.count, fun _ member => first.subset (second.subset member), second.cars.trans first.cars,
    second.rehashThreshold.trans first.rehashThreshold, second.rehashSize.trans first.rehashSize,
    second.initialSizeInEffect.trans first.initialSizeInEffect, second.clear ∘ first.clear⟩

theorem DistinctKeys.perm {moved' : List (ℕ × Entry κ δ)} (keys : DistinctKeys type moved)
    (same : (live moved').Perm (live moved)) : DistinctKeys type moved' := by
  refine (same.pairwise_iff fun {c c'} different => ?_).mpr keys
  apply Bool.eq_false_iff.mpr
  intro equal
  rw [type.symm _ _ equal] at different
  contradiction

theorem live_live (moved : List (ℕ × Entry κ δ)) : live (live moved) = live moved := by simp [live]

theorem flatten_replicate_nil {α : Type} : (List.replicate n ([] : List α)).flatten = [] := by simp

theorem Linked.ends (linked : Linked table cells) {c : ℕ × Entry κ δ} (member : c ∈ cells.flatten) :
    ∃ nodes, Chain some table.pairs (some c.1) nodes none := by
  obtain ⟨bucket, in_cells, in_bucket⟩ := mem_flatten.mp member
  obtain ⟨i, inside, rfl⟩ := mem_iff_getElem.mp in_cells
  have chain := linked.chains i
  rw [getD_eq_getElem?_getD, getElem?_eq_getElem inside] at chain
  obtain ⟨front, rest, split⟩ := append_of_mem in_bucket
  rw [split] at chain
  exact ⟨_, chain.suffix⟩

theorem placed_place (placed : Placed type cells) (nonempty : 0 < cells.length) (c : ℕ × Entry κ δ) :
    Placed type (place type cells c) := by
  unfold place
  cases valid : c.2.reclaimed with
  | true => exact placed
  | false =>
    rw [if_neg Bool.false_ne_true]
    intro i c' member valid'
    have small := type.hash_lt c.2.key _ nonempty
    rw [getD_modify _ small] at member
    rw [length_modify]
    split at member
    · next same =>
      rcases mem_cons.mp member with rfl | member
      · exact same.symm
      · exact same ▸ placed _ c' member valid'
    · exact placed i c' member valid'

theorem placed_foldl (placed : Placed type cells) (nonempty : 0 < cells.length) :
    Placed type (moved.foldl (place type) cells) := by
  induction moved generalizing cells with
  | nil => exact placed
  | cons c rest ih => exact ih (placed_place placed nonempty c) (by rwa [length_place])

theorem relinked_valid (nonempty : 0 < n) (linked : Linked table' (moved.foldl (place type) (List.replicate n [])))
    (relinked : Relinked table table' moved) (count : table.count = moved.length) (primes : 0 < table.primes)
    (grounded : Grounded some none table.pairs) (clear : table.needsRehash = false) (keys : DistinctKeys type moved) :
    Valid type table' (moved.foldl (place type) (List.replicate n [])) ∧
      (moved.foldl (place type) (List.replicate n [])).flatten.Perm (live moved) := by
  have contents : (moved.foldl (place type) (replicate n [])).flatten.Perm (live moved) := by
    have room : 0 < (replicate n ([] : List (ℕ × Entry κ δ))).length := by simpa using nonempty
    have placed := flatten_foldl_place type moved room
    rwa [flatten_replicate_nil, append_nil] at placed
  have lengths := congrArg length relinked.cars
  rw [length_map, length_map] at lengths
  refine ⟨⟨linked, by simpa using nonempty, relinked.sizes.primes ▸ primes, ?_, ?_, ?_, fun _ => ?_, ?_⟩, contents⟩
  · refine grounded.change (fun i => i ∈ (live moved).map Prod.fst) (fun i member => ?_) relinked.outside lengths
    obtain ⟨c, present, rfl⟩ := mem_map.mp member
    exact linked.ends (contents.mem_iff.mpr present)
  · have small : (live moved).length ≤ moved.length := length_live_le
    rw [relinked.count, contents.length_eq]
    omega
  · intro set
    rw [relinked.sizes.needsRehash, clear] at set
    contradiction
  · refine placed_foldl (fun i c member => ?_) (by simpa using nonempty)
    simp [getD_eq_getElem?_getD, getElem?_replicate] at member
    split at member <;> simp at member
  · apply keys.perm
    rw [← live_live moved]
    exact contents.filter _

theorem Linked.forall₂ (linked : Linked table cells) :
    List.Forall₂ (fun p bucket => Chain some table.pairs p bucket none) table.vector cells := by
  refine forall₂_iff_get.mpr ⟨linked.width.symm, fun i inside inside' => ?_⟩
  have chain := linked.chains i
  rw [HashTable.bucket, getD_eq_getElem?_getD, getElem?_eq_getElem inside, getD_eq_getElem?_getD,
    getElem?_eq_getElem inside'] at chain
  exact chain

theorem resetTable_spec (table : HashTable κ δ) :
    Linked (resetTable table) (List.replicate (resetTable table).primes []) ∧
      roundHalfEven (table.growSize / table.rehashThreshold.value) ≤ (resetTable table).primes := by
  refine ⟨⟨fun i => ?_, ?_, ?_, ?_⟩, le_primesLoop _⟩
  · have empty : (resetTable table).bucket i = none := by
      simp only [HashTable.bucket, HashTable.vector, resetTable, getD_eq_getElem?_getD, getElem?_concat_length,
        Option.getD_some, getElem?_replicate]
      generalize primesLoop _ _ = n
      split <;> rfl
    rw [empty, getD_eq_getElem?_getD, getElem?_replicate]
    split <;> rfl
  · simp [HashTable.vector, resetTable]
  · simp
  · simp [resetTable]

theorem resetTable_primes (table : HashTable κ δ) (primes : 0 < table.primes) : 0 < (resetTable table).primes := by
  have first : 0 < firstPrime := by decide
  refine lt_of_lt_of_le ?_ (primesLoop_ge _)
  split
  · exact first
  · exact primes

theorem relink_spec (valid : Valid type table cells) (size : ℤ) : ∃ table' cells', relink type table size =
    some table' ∧ Kept type table table' cells cells' ∧ table'.needsRehash = false ∧ table'.growSize = size ∧
    table'.shrinkSize = computeShrinkSize table'.rehashSize size ∧
    roundHalfEven (size / table'.rehashThreshold.value) ≤ table'.vector.length := by
  let start : HashTable κ δ := { resetTable { table with growSize := size } with needsRehash := false }
  obtain ⟨reset, wide⟩ := resetTable_spec { table with growSize := size }
  have linked : Linked start (replicate start.primes []) := ⟨reset.chains, reset.width, reset.distinct, reset.inside⟩
  have positive : 0 < start.primes := resetTable_primes { table with growSize := size } valid.primes
  have distinct : (((replicate start.primes []).flatten ++ cells.flatten).map Prod.fst).Nodup := by
    rw [flatten_replicate_nil]
    exact valid.linked.distinct
  obtain ⟨table', returns, relinked, linked'⟩ :=
    foldlM_rehash_spec type linked (by simpa using positive) valid.linked.forall₂ distinct
  obtain ⟨valid', contents⟩ := relinked_valid positive linked' relinked valid.count positive valid.grounded rfl valid.keys
  refine ⟨table', _, returns, ⟨valid', ?_, ?_, ?_, relinked.cars, relinked.sizes.rehashThreshold, relinked.sizes.rehashSize,
    relinked.sizes.initialSizeInEffect, fun _ => relinked.sizes.needsRehash⟩, relinked.sizes.needsRehash,
    relinked.sizes.growSize, ?_, ?_⟩
  · rw [← live_live cells.flatten]
    exact contents.filter _
  · rw [relinked.count]
    exact Nat.sub_le _ _
  · intro c member
    exact mem_of_mem_filter (contents.mem_iff.mp member)
  · rw [relinked.sizes.shrinkSize, relinked.sizes.rehashSize]
    rfl
  · rw [relinked.sizes.rehashThreshold, ← linked'.width, length_foldl_place, length_replicate]
    exact wide

structure Resizable (table : HashTable κ δ) : Prop where
  shrink : table.shrinkSize = computeShrinkSize table.rehashSize table.growSize
  width : roundHalfEven (table.growSize / table.rehashThreshold.value) ≤ table.vector.length
  least : minimumSize ≤ table.growSize
  fits : (table.count : ℤ) ≤ table.growSize

structure Sized (table : HashTable κ δ) : Prop extends Resizable table where
  settled : table.initialSizeInEffect = true ∨ table.growSize ≤ minimumSize ∨ table.shrinkSize ≤ table.count

theorem Resizable.same (resizable : Resizable table) (sizes : SameSizes table table')
    (width : table'.vector.length = table.vector.length) (fits : (table'.count : ℤ) ≤ table.growSize) : Resizable table' := by
  refine ⟨?_, ?_, ?_, ?_⟩
  · rw [sizes.shrinkSize, sizes.rehashSize, sizes.growSize]
    exact resizable.shrink
  · rw [sizes.growSize, sizes.rehashThreshold, width]
    exact resizable.width
  · rw [sizes.growSize]
    exact resizable.least
  · rwa [sizes.growSize]

theorem maybeShrinkTable_of_newSize (valid : Valid type table cells)
    (resizes : table.Shrinks → ∃ table' cells',
      newSize type table (shrinkLoop table.rehashSize table.count table.growSize) = some table' ∧
      Kept type table table' cells cells' ∧ (Resizable table → Sized table')) :
    ∃ table' cells', maybeShrinkTable type table = some table' ∧ Kept type table table' cells cells' ∧
      (Resizable table → Sized table') ∧ (¬table.Shrinks → table' = table) := by
  unfold maybeShrinkTable
  by_cases shrinks : table.Shrinks
  · obtain ⟨table', cells', returns, kept, sized⟩ := resizes shrinks
    rw [if_pos shrinks]
    exact ⟨table', cells', returns, kept, sized, absurd shrinks⟩
  · rw [if_neg shrinks]
    refine ⟨table, cells, rfl, .refl valid, fun resizable => ⟨resizable, ?_⟩, fun _ => rfl⟩
    cases initial : table.initialSizeInEffect with
    | true => exact .inl rfl
    | false => exact .inr (.inr (not_lt.mp fun less => shrinks ⟨less, initial⟩))

theorem newSize_spec (valid : Valid type table cells) (size : ℤ) : ∃ table' cells', newSize type table size =
    some table' ∧ Kept type table table' cells cells' ∧ (minimumSize ≤ size → (table.count : ℤ) ≤ size → Sized table') ∧
    table'.needsRehash = false ∧ (table.initialSizeInEffect = true → table'.growSize = size) := by
  generalize measure : size.toNat = m
  induction m using Nat.strong_induction_on generalizing size table cells with
  | _ m ih =>
    obtain ⟨table₁, cells₁, returns, kept, clear, grow, shrink, width⟩ := relink_spec valid size
    obtain ⟨table', cells', returns', kept', sized, stays⟩ := maybeShrinkTable_of_newSize kept.valid fun shrinks => by
      have less : (table₁.count : ℤ) < computeShrinkSize table₁.rehashSize table₁.growSize := by
        rw [grow, ← shrink]
        exact shrinks.1
      have large := minimumSize_lt_of_lt less
      have smaller := shrinkLoop_lt less
      obtain ⟨table₂, cells₂, returns₂, kept₂, sized₂, -⟩ :=
        ih _ (by unfold minimumSize at large; omega) kept.valid
          (shrinkLoop table₁.rehashSize table₁.count table₁.growSize) rfl
      exact ⟨table₂, cells₂, returns₂, kept₂, fun resizable =>
        sized₂ minimumSize_le_shrinkLoop (le_shrinkLoop resizable.fits)⟩
    refine ⟨table', cells', ?_, kept.trans kept', fun least fits => ?_, kept'.clear clear, fun initial => ?_⟩
    · rw [newSize_eq, returns]
      exact returns'
    · have count := kept.count
      exact sized ⟨grow ▸ shrink, grow ▸ width, grow ▸ least, by omega⟩
    · have settled : ¬table₁.Shrinks := by
        intro shrinks
        have cleared := shrinks.2
        rw [kept.initialSizeInEffect, initial] at cleared
        contradiction
      rw [stays settled, grow]

theorem maybeShrinkTable_spec (valid : Valid type table cells) :
    ∃ table' cells', maybeShrinkTable type table = some table' ∧ Kept type table table' cells cells' ∧
      (Resizable table → Sized table') ∧ (¬table.Shrinks → table' = table) := by
  apply maybeShrinkTable_of_newSize valid
  intro _
  obtain ⟨table', cells', returns, kept, sized, -⟩ :=
    newSize_spec valid (shrinkLoop table.rehashSize table.count table.growSize)
  exact ⟨table', cells', returns, kept, fun resizable =>
    sized minimumSize_le_shrinkLoop (le_shrinkLoop resizable.fits)⟩

end MitScheme.Runtime.HashTables
