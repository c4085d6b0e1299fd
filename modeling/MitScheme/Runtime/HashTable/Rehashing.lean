import MitScheme.Runtime.HashTable.Resizing

/-!
`rehash-table!` takes the lists out of the buckets, appends them, and relinks their entries.
-/

namespace MitScheme.Runtime.HashTables

open Library List

variable {κ δ : Type} {type : TableType κ} {table table' : HashTable κ δ} {cells : List (List (ℕ × Entry κ δ))}
  {nodes : List (ℕ × Entry κ δ)} {c : ℕ × Entry κ δ} {i j fuel : ℕ}

theorem Linked.apart (linked : Linked table cells) (different : i ≠ j) {c c' : ℕ × Entry κ δ}
    (member : c ∈ cells.getD i []) (member' : c' ∈ cells.getD j []) : c.1 ≠ c'.1 := by
  have inside {k : ℕ} {c : ℕ × Entry κ δ} (member : c ∈ cells.getD k []) :
      ∃ small : k < (cells.map (map Prod.fst)).length, c.1 ∈ (cells.map (map Prod.fst))[k] := by
    rw [getD_eq_getElem?_getD] at member
    by_cases small : k < cells.length
    · rw [getElem?_eq_getElem small] at member
      exact ⟨by rwa [length_map], by rw [getElem_map]; exact mem_map.mpr ⟨c, member, rfl⟩⟩
    · rw [getElem?_eq_none (not_lt.mp small)] at member
      cases member
  have disjoint := (nodup_flatten.mp (map_flatten ▸ linked.distinct)).2
  rw [pairwise_iff_getElem] at disjoint
  obtain ⟨small, here⟩ := inside member
  obtain ⟨small', here'⟩ := inside member'
  intro same
  rcases lt_or_gt_of_ne different with less | greater
  · exact disjoint i j small small' less here (same ▸ here')
  · exact disjoint j i small' small greater here' (same ▸ here)

def extracted (cells : List (List (ℕ × Entry κ δ))) : ℕ → List (ℕ × Entry κ δ)
  | 0 => []
  | i + 1 => cells.getD i [] ++ extracted cells i

theorem mem_extracted : c ∈ extracted cells i ↔ ∃ j < i, c ∈ cells.getD j [] := by
  induction i with
  | zero => simp [extracted]
  | succ i ih =>
    rw [extracted, mem_append, ih]
    constructor
    · rintro (here | ⟨j, less, before⟩)
      · exact ⟨i, Nat.lt_succ_self i, here⟩
      · exact ⟨j, by omega, before⟩
    · rintro ⟨j, less, member⟩
      rcases Nat.lt_succ_iff_lt_or_eq.mp less with less | rfl
      · exact .inr ⟨j, less, member⟩
      · exact .inl member

theorem extracted_perm (cells : List (List (ℕ × Entry κ δ))) : (extracted cells cells.length).Perm cells.flatten := by
  have upTo (i : ℕ) (short : i ≤ cells.length) : (extracted cells i).Perm (cells.take i).flatten := by
    induction i with
    | zero => exact .refl _
    | succ i ih =>
      have inside : i < cells.length := short
      rw [extracted, take_add_one, flatten_append, getD_eq_getElem?_getD, getElem?_eq_getElem inside]
      refine ((ih inside.le).append_left _).trans ?_
      simpa using perm_append_comm
  simpa using upTo cells.length le_rfl

theorem lastPair_spec {p : ℕ} {x : Entry κ δ} {pairs : List (Pair (Entry κ δ) (Option ℕ))}
    (chain : Chain some pairs (some p) (nodes ++ [(i, x)]) none) (enough : nodes.length < fuel) :
    lastPair pairs fuel p = some i := by
  induction nodes generalizing p fuel with
  | nil =>
    obtain ⟨fuel, rfl⟩ : ∃ n, fuel = n + 1 := ⟨fuel - 1, by omega⟩
    obtain ⟨here, held⟩ := chain_single.mp chain
    cases here
    rw [lastPair, held]
    rfl
  | cons node nodes ih =>
    obtain ⟨fuel, rfl⟩ : ∃ n, fuel = n + 1 := ⟨fuel - 1, by omega⟩
    obtain ⟨here, next, held, chain⟩ := chain
    cases here
    obtain ⟨q, rfl⟩ : ∃ q, next = some q := by
      rcases nodes with _ | ⟨node', nodes⟩
      · exact ⟨i, (chain_single.mp chain).1⟩
      · exact ⟨node'.1, chain.1⟩
    rw [lastPair, held]
    exact ih chain (Nat.lt_of_succ_lt_succ enough)

/-- Some of the lists have been taken out of the buckets. -/
structure Extracted (table table' : HashTable κ δ) (cells : List (List (ℕ × Entry κ δ))) (i : ℕ) (entries : Option ℕ) : Prop where
  sizes : SameSizes table table'
  count : table'.count = table.count
  cars : table'.pairs.map Pair.car = table.pairs.map Pair.car
  width : table'.vector.length = table.vector.length
  inside : table'.buckets < table'.vectors.length
  taken : Chain some table'.pairs entries (extracted cells i) none
  chains : ∀ j, Chain some table'.pairs (table'.bucket j) (if j < i then [] else cells.getD j []) none
  grounded : Grounded some none table'.pairs

theorem cars_setCdr {q : Option ℕ} : (table.setCdr i q).pairs.map Pair.car = table.pairs.map Pair.car := by
  apply ext_getElem?
  intro j
  simp only [HashTable.setCdr, getElem?_map, getElem?_modify]
  split <;> simp [Function.comp_def]

theorem Chain.extend {pairs : List (Pair (Entry κ δ) (Option ℕ))} {p q : Option ℕ} {rest : List (ℕ × Entry κ δ)}
    {x : Entry κ δ} (chain : Chain some pairs p (nodes ++ [(i, x)]) none) (tail : Chain some pairs q rest none)
    (distinct : ((nodes ++ [(i, x)]).map Prod.fst).Nodup) (apart : i ∉ rest.map Prod.fst) :
    Chain some (pairs.modify i fun pair => { pair with cdr := q }) p (nodes ++ [(i, x)] ++ rest) none :=
  chain_append.mpr ⟨q, chain.retarget distinct q, tail.outside apart _⟩

theorem extractLoop_spec (linked : Linked table cells) (grounded : Grounded some none table.pairs) (short : i ≤ cells.length) :
    ∃ table' entries, extractLoop table i = some (table', entries) ∧ Extracted table table' cells i entries := by
  induction i with
  | zero =>
    refine ⟨table, none, rfl, .refl table, rfl, rfl, rfl, linked.inside, rfl, fun j => ?_, grounded⟩
    exact linked.chains j
  | succ i ih =>
    obtain ⟨table₁, entries, returns, before⟩ := ih (Nat.le_of_succ_le short)
    have small : i < table₁.vector.length := by
      rw [before.width, ← linked.width]
      exact short
    have chain := before.chains i
    rw [if_neg (lt_irrefl i)] at chain
    have sizes : SameSizes table (table₁.setBucket i none) :=
      before.sizes.trans ⟨rfl, rfl, rfl, rfl, rfl, rfl, rfl, rfl⟩
    have width : (table₁.setBucket i none).vector.length = table.vector.length := by
      rw [vector_setBucket before.inside, length_set, before.width]
    have inside : (table₁.setBucket i none).buckets < (table₁.setBucket i none).vectors.length := by
      simpa [HashTable.setBucket] using before.inside
    have emptied (j : ℕ) : Chain some table₁.pairs ((table₁.setBucket i none).bucket j)
        (if j < i + 1 then [] else cells.getD j []) none := by
      rw [bucket_setBucket before.inside small]
      have old := before.chains j
      by_cases same : j = i
      · rw [if_pos same, if_pos (by omega)]
        rfl
      · by_cases less : j < i
        · rw [if_pos less] at old
          rwa [if_neg same, if_pos (by omega)]
        · rw [if_neg less] at old
          rwa [if_neg same, if_neg (by omega)]
    rw [extractLoop, returns, Option.bind_eq_bind, Option.bind_some]
    dsimp only
    cases list : table₁.bucket i with
    | none =>
      rw [list] at chain
      have empty : cells.getD i [] = [] := chain.nil_of_stop fun i => (Option.some_ne_none i).symm
      refine ⟨_, entries, rfl, sizes, before.count, before.cars, width, inside, ?_, emptied, before.grounded⟩
      rw [extracted, empty]
      exact before.taken
    | some p =>
      rw [list] at chain
      have nonempty : cells.getD i [] ≠ [] := by
        intro empty
        rw [empty] at chain
        exact Option.some_ne_none p chain
      obtain ⟨front, ⟨last, x⟩, split⟩ := (eq_nil_or_concat' _).resolve_left nonempty
      have distinct := chain.nodup (Option.some_injective _) fun i same => Option.some_ne_none i same.symm
      rw [split] at chain distinct
      have short := chain.length_le distinct
      rw [length_append] at short
      have apart {c : ℕ × Entry κ δ} (k : ℕ) (member : c ∈ cells.getD k []) (different : i ≠ k) : c.1 ≠ last :=
        (linked.apart different (split ▸ by simp : (last, x) ∈ cells.getD i []) member).symm
      have apart_taken : last ∉ (extracted cells i).map Prod.fst := by
        intro member
        obtain ⟨c, taken, same⟩ := mem_map.mp member
        obtain ⟨k, less, present⟩ := mem_extracted.mp taken
        exact apart k present (by omega) same
      have whole := Chain.extend chain before.taken distinct apart_taken
      have last_pair : lastPair (table₁.setBucket i none).pairs (table₁.setBucket i none).pairs.length p = some last :=
        lastPair_spec chain short
      refine ⟨(table₁.setBucket i none).setCdr last entries, some p, ?_, ?_⟩
      · dsimp only
        rw [last_pair]
        rfl
      · refine ⟨sizes.trans ⟨rfl, rfl, rfl, rfl, rfl, rfl, rfl, rfl⟩, before.count, ?_, width, inside, ?_, fun j => ?_, ?_⟩
        · rw [cars_setCdr]
          exact before.cars
        · rw [extracted, split]
          exact whole
        · refine (emptied j).outside (fun member => ?_) _
          obtain ⟨c, present, same⟩ := mem_map.mp member
          split at present
          · cases present
          · exact apart j present (by omega) same
        · refine before.grounded.change (fun k => k = last) (fun k same => ?_) (fun k different => ?_) (by simp [HashTable.setCdr, HashTable.setBucket])
          · subst same
            rw [append_assoc] at whole
            exact ⟨_, whole.suffix⟩
          · simp [HashTable.setCdr, HashTable.setBucket, Ne.symm different]

theorem getD_replicate_nil {n : ℕ} : (List.replicate n ([] : List (ℕ × Entry κ δ))).getD i [] = [] := by
  rw [getD_eq_getElem?_getD, getElem?_replicate]
  split <;> rfl

theorem rehashTable_spec (valid : Valid type table cells) : ∃ table' cells', rehashTable type table = some table' ∧
    Kept type table table' cells cells' ∧ table'.needsRehash = false := by
  obtain ⟨table₁, entries, returns, taken⟩ := extractLoop_spec valid.linked valid.grounded le_rfl
  rw [valid.linked.width] at returns
  have empty : Linked { table₁ with needsRehash := false } (replicate cells.length []) := by
    refine ⟨fun j => ?_, ?_, by simp, taken.inside⟩
    · have chain := taken.chains j
      rw [getD_replicate_nil]
      split at chain
      · exact chain
      · next large =>
        rwa [getD_eq_getElem?_getD, getElem?_eq_none (not_lt.mp large)] at chain
    · rw [length_replicate, valid.linked.width, ← taken.width]
      rfl
  have distinct : (((replicate cells.length []).flatten ++ extracted cells cells.length).map Prod.fst).Nodup := by
    rw [flatten_replicate_nil, nil_append, ((extracted_perm cells).map Prod.fst).nodup_iff]
    exact valid.linked.distinct
  have short : (extracted cells cells.length).length ≤ table₁.pairs.length := by
    apply taken.taken.length_le
    rwa [flatten_replicate_nil] at distinct
  obtain ⟨table₂, returns₂, relinked, linked⟩ :=
    rehashLoop_spec type empty (by simpa using valid.nonempty) taken.taken distinct short
  have same_live : (live (extracted cells cells.length)).Perm (live cells.flatten) := (extracted_perm cells).filter _
  have count : table₁.count = (extracted cells cells.length).length := by
    rw [taken.count, valid.count, (extracted_perm cells).length_eq]
  have primes : 0 < table₁.primes := by
    rw [taken.sizes.primes]
    exact valid.primes
  obtain ⟨valid₂, contents⟩ :=
    relinked_valid valid.nonempty linked relinked count primes taken.grounded rfl (valid.keys.perm same_live)
  generalize (extracted cells cells.length).foldl (place type) (replicate cells.length []) = cells₂ at valid₂ contents
  have clear : table₂.needsRehash = false := relinked.sizes.needsRehash
  have kept : Kept type table table₂ cells cells₂ := by
    refine ⟨valid₂, ?_, ?_, ?_, relinked.cars.trans taken.cars,
      relinked.sizes.rehashThreshold.trans taken.sizes.rehashThreshold,
      relinked.sizes.rehashSize.trans taken.sizes.rehashSize,
      relinked.sizes.initialSizeInEffect.trans taken.sizes.initialSizeInEffect, fun _ => clear⟩
    · refine .trans ?_ same_live
      rw [← live_live (extracted cells cells.length)]
      exact contents.filter _
    · rw [relinked.count]
      exact (Nat.sub_le _ _).trans taken.count.le
    · intro c member
      exact (extracted_perm cells).mem_iff.mp (mem_of_mem_filter (contents.mem_iff.mp member))
  obtain ⟨table', cells', returns', kept', -⟩ := maybeShrinkTable_spec valid₂
  refine ⟨table', cells', ?_, kept.trans kept', kept'.clear clear⟩
  have rehashed : rehash type { table₁ with needsRehash := false } entries = some table₂ := returns₂
  rw [rehashTable, extractTableEntries, returns, Option.bind_eq_bind, Option.bind_some]
  dsimp only
  rw [rehashed]
  exact returns'

theorem computeHash_spec (valid : Valid type table cells) (key : κ) : ∃ table' cells', computeHash type table key =
    some (table', type.keyHash key cells'.length) ∧ Kept type table table' cells cells' ∧ table'.needsRehash =
    false ∧ (table.needsRehash = false → table' = table ∧ cells' = cells) := by
  unfold computeHash
  by_cases stale : (type.rehashAfterGc && table.needsRehash) = true
  · obtain ⟨table', cells', returns, kept, clear⟩ := rehashTable_spec valid
    refine ⟨table', cells', ?_, kept, clear, fun fresh => ?_⟩
    · rw [if_pos stale, returns, kept.valid.linked.width]
      rfl
    · rw [fresh, Bool.and_false] at stale
      contradiction
  · have clear : table.needsRehash = false := by
      apply Bool.eq_false_iff.mpr
      intro set
      exact stale (by rw [valid.flag set, set]; rfl)
    refine ⟨table, cells, ?_, .refl valid, clear, fun _ => ⟨rfl, rfl⟩⟩
    rw [if_neg stale, valid.linked.width]
    rfl

end MitScheme.Runtime.HashTables
