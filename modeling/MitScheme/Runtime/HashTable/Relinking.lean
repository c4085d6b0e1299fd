import MitScheme.Runtime.HashTable.Tables
import Mathlib.Data.List.Flatten

/-!
What `method:rehash!` does to the lists in the buckets: the valid entries are put in front of the buckets
of their keys, one after the other.
-/

namespace MitScheme.Runtime.HashTables

open Library List HashTable

variable {κ δ : Type} {type : TableType κ} {table table' : HashTable κ δ} {cells : List (List (ℕ × Entry κ δ))}
  {moved rest : List (ℕ × Entry κ δ)} {c : ℕ × Entry κ δ} {p : Option ℕ} {i n hash fuel : ℕ}

def live (moved : List (ℕ × Entry κ δ)) : List (ℕ × Entry κ δ) := moved.filter fun c => !c.2.reclaimed

@[simp] theorem live_append : live (moved ++ rest) = live moved ++ live rest := filter_append _ _

@[simp] theorem live_cons_reclaimed (reclaimed : c.2.reclaimed = true) : live (c :: moved) = live moved := by simp [live, reclaimed]

@[simp] theorem live_cons_valid (valid : c.2.reclaimed = false) : live (c :: moved) = c :: live moved := by simp [live, valid]

structure Linked (table : HashTable κ δ) (cells : List (List (ℕ × Entry κ δ))) : Prop where
  chains : ∀ i, Chain some table.pairs (table.bucket i) (cells.getD i []) none
  width : cells.length = table.vector.length
  distinct : (cells.flatten.map Prod.fst).Nodup
  inside : table.buckets < table.vectors.length

theorem vector_setBucket (inside : table.buckets < table.vectors.length) :
    (table.setBucket hash p).vector = table.vector.set hash p := by
  simp [vector, setBucket, getElem?_eq_getElem inside]

theorem bucket_setBucket (inside : table.buckets < table.vectors.length) (small : hash < table.vector.length) :
    (table.setBucket hash p).bucket i = if i = hash then p else table.bucket i := by
  rw [bucket, vector_setBucket inside, bucket, getD_eq_getElem?_getD, getElem?_set]
  by_cases same : hash = i
  · subst same
    simp [small]
  · rw [if_neg same, if_neg (Ne.symm same), getD_eq_getElem?_getD]

theorem getD_modify (f : List (ℕ × Entry κ δ) → List (ℕ × Entry κ δ)) (small : hash < cells.length) :
    (cells.modify hash f).getD i [] = if i = hash then f (cells.getD hash []) else cells.getD i [] := by
  by_cases same : hash = i
  · subst same
    simp [getElem?_eq_getElem small]
  · simp [same, Ne.symm same]

theorem flatten_modify_cons (small : hash < cells.length) :
    (cells.modify hash (c :: ·)).flatten.Perm (c :: cells.flatten) := by
  induction cells generalizing hash with
  | nil => cases small
  | cons bucket cells ih =>
    cases hash with
    | zero => exact .refl _
    | succ hash =>
      exact ((ih (Nat.lt_of_succ_lt_succ small)).append_left bucket).trans perm_middle

theorem mem_flatten_of_getD (member : c ∈ cells.getD i []) : c ∈ cells.flatten := by
  rw [getD_eq_getElem?_getD] at member
  cases found : cells[i]? with
  | none => simp [found] at member
  | some bucket =>
    rw [found] at member
    exact mem_flatten.mpr ⟨bucket, mem_of_getElem? found, member⟩

def place (type : TableType κ) (cells : List (List (ℕ × Entry κ δ))) (c : ℕ × Entry κ δ) : List (List (ℕ × Entry κ δ)) :=
  if c.2.reclaimed then cells else cells.modify (type.keyHash c.2.key cells.length) (c :: ·)

@[simp] theorem length_place : (place type cells c).length = cells.length := by
  unfold place
  split <;> simp

theorem flatten_place (nonempty : 0 < cells.length) : (place type cells c).flatten.Perm (live [c] ++ cells.flatten) := by
  unfold place
  cases valid : c.2.reclaimed with
  | true => simp [valid, live]
  | false =>
    rw [live_cons_valid valid]
    exact flatten_modify_cons (type.hash_lt _ _ nonempty)

structure Relinked (table table' : HashTable κ δ) (moved : List (ℕ × Entry κ δ)) : Prop where
  sizes : SameSizes table table'
  count : table'.count = table.count - (moved.length - (live moved).length)
  outside : ∀ i, i ∉ (live moved).map Prod.fst → table'.pairs[i]? = table.pairs[i]?
  cars : table'.pairs.map Pair.car = table.pairs.map Pair.car
  vectors : table'.vectors.length = table.vectors.length
  others : ∀ v ≠ table.buckets, table'.vectors[v]? = table.vectors[v]?

theorem length_live_le : (live moved).length ≤ moved.length := length_filter_le _ _

theorem Relinked.refl (table : HashTable κ δ) : Relinked table table [] :=
  ⟨.refl table, rfl, fun _ _ => rfl, rfl, rfl, fun _ _ => rfl⟩

theorem Relinked.trans {table₁ : HashTable κ δ} (first : Relinked table table₁ moved) (second : Relinked table₁ table' rest) :
    Relinked table table' (moved ++ rest) := by
  refine ⟨first.sizes.trans second.sizes, ?_, fun i apart => ?_, second.cars.trans first.cars,
    second.vectors.trans first.vectors, fun v other => ?_⟩
  · have small : (live moved).length ≤ moved.length := length_live_le
    have small' : (live rest).length ≤ rest.length := length_live_le
    rw [second.count, first.count, live_append, length_append, length_append]
    omega
  · rw [live_append, map_append, mem_append, not_or] at apart
    rw [second.outside i apart.2, first.outside i apart.1]
  · rw [second.others v (first.sizes.buckets ▸ other), first.others v other]

theorem relinked_front (linked : Linked table cells) (small : hash < table.vector.length)
    (apart : c.1 ∉ cells.flatten.map Prod.fst) (held : ∃ q, table.pairs[c.1]? = some ⟨c.2, q⟩) :
    Linked ((table.setCdr c.1 (table.bucket hash)).setBucket hash (some c.1)) (cells.modify hash (c :: ·)) := by
  obtain ⟨q, held⟩ := held
  have small' : hash < cells.length := linked.width ▸ small
  have inside : (table.setCdr c.1 (table.bucket hash)).buckets < (table.setCdr c.1 (table.bucket hash)).vectors.length :=
    linked.inside
  refine ⟨fun i => ?_, ?_, ?_, ?_⟩
  · rw [bucket_setBucket inside small, getD_modify _ small']
    have frame (j : ℕ) : Chain some (table.setCdr c.1 (table.bucket hash)).pairs (table.bucket j) (cells.getD j []) none := by
      apply (linked.chains j).outside
      intro member
      obtain ⟨cell, present, same⟩ := mem_map.mp member
      exact apart (mem_map.mpr ⟨cell, mem_flatten_of_getD present, same⟩)
    split
    · refine ⟨rfl, table.bucket hash, ?_, frame hash⟩
      simp [setCdr, setBucket, held]
    · exact frame i
  · rw [length_modify, vector_setBucket inside, length_set, linked.width]
    rfl
  · rw [((flatten_modify_cons small').map Prod.fst).nodup_iff, map_cons, nodup_cons]
    exact ⟨apart, linked.distinct⟩
  · simpa [setBucket] using inside

theorem relinked_step (entry : Entry κ δ) (q : Option ℕ) (valid : entry.reclaimed = false) :
    Relinked table ((table.setCdr i q).setBucket hash p) [(i, entry)] := by
  refine ⟨⟨rfl, rfl, rfl, rfl, rfl, rfl, rfl, rfl⟩, ?_, fun j apart => ?_, ?_, ?_, fun v other => ?_⟩
  · rw [live_cons_valid valid]
    rfl
  · have different : i ≠ j := by
      rintro rfl
      simp [live, valid] at apart
    simp [setBucket, setCdr, different]
  · apply ext_getElem?
    intro j
    simp only [setBucket, setCdr, getElem?_map, getElem?_modify]
    split <;> simp [Function.comp_def]
  · simp [setBucket, setCdr]
  · simp [setBucket, setCdr, other.symm]

@[simp] theorem length_foldl_place : (moved.foldl (place type) cells).length = cells.length := by
  induction moved generalizing cells with
  | nil => rfl
  | cons c rest ih => rw [foldl_cons, ih, length_place]

theorem flatten_foldl_place (type : TableType κ) (moved : List (ℕ × Entry κ δ)) (nonempty : 0 < cells.length) :
    (moved.foldl (place type) cells).flatten.Perm (live moved ++ cells.flatten) := by
  induction moved generalizing cells with
  | nil => exact .refl _
  | cons c rest ih =>
    have first : live (c :: rest) = live [c] ++ live rest := by rw [← live_append, singleton_append]
    rw [first]
    have placed : (place type cells c).flatten.Perm (live [c] ++ cells.flatten) := flatten_place nonempty
    refine (ih (by rwa [length_place])).trans ?_
    calc live rest ++ (place type cells c).flatten
        |>.Perm (live rest ++ (live [c] ++ cells.flatten)) := placed.append_left _
      _ |>.Perm (live [c] ++ live rest ++ cells.flatten) := by
        rw [← append_assoc]
        exact perm_append_comm.append_right _

theorem rehashLoop_pair {entry : Entry κ δ} {q : Option ℕ} (held : table.pairs[i]? = some ⟨entry, q⟩) :
    rehashLoop type (fuel + 1) (some i) table =
      if entry.reclaimed then rehashLoop type fuel q table.decrementTableCount
      else rehashLoop type fuel q ((table.setCdr i (table.bucket (type.keyHash entry.key table.vector.length))).setBucket
        (type.keyHash entry.key table.vector.length) (some i)) := by
  rw [rehashLoop, held]
  rfl

theorem rehashLoop_spec (type : TableType κ) (linked : Linked table cells) (nonempty : 0 < cells.length)
    (chain : Chain some table.pairs p moved none) (distinct : ((cells.flatten ++ moved).map Prod.fst).Nodup)
    (enough : moved.length ≤ fuel) : ∃ table', rehashLoop type fuel p table = some table' ∧
    Relinked table table' moved ∧ Linked table' (moved.foldl (place type) cells) := by
  induction moved generalizing table cells p fuel with
  | nil =>
    cases chain
    exact ⟨table, by cases fuel <;> rfl, .refl table, linked⟩
  | cons c rest ih =>
    obtain ⟨i, entry⟩ := c
    obtain ⟨rfl, q, held, chain⟩ := chain
    obtain ⟨fuel, rfl⟩ : ∃ n, fuel = n + 1 := ⟨fuel - 1, by rw [length_cons] at enough; omega⟩
    have enough : rest.length ≤ fuel := Nat.le_of_succ_le_succ enough
    rw [rehashLoop_pair held]
    cases valid : entry.reclaimed with
    | true =>
      have unlinked : Linked table.decrementTableCount cells :=
        ⟨linked.chains, linked.width, linked.distinct, linked.inside⟩
      have distinct : ((cells.flatten ++ rest).map Prod.fst).Nodup :=
        distinct.sublist (((sublist_cons_self _ _).append_left _).map _)
      obtain ⟨table', returns, relinked, linked'⟩ := ih unlinked nonempty chain distinct enough
      refine ⟨table', by exact returns, ?_, by simpa [place, valid] using linked'⟩
      have dropped : Relinked table table.decrementTableCount [(i, entry)] :=
        ⟨⟨rfl, rfl, rfl, rfl, rfl, rfl, rfl, rfl⟩, by simp [live, valid, decrementTableCount],
          fun _ _ => rfl, rfl, rfl, fun _ _ => rfl⟩
      exact dropped.trans relinked
    | false =>
      have apart : i ∉ cells.flatten.map Prod.fst := by
        rw [map_append, nodup_append] at distinct
        intro member
        exact distinct.2.2 i member i mem_cons_self rfl
      have small : type.keyHash entry.key table.vector.length < table.vector.length :=
        type.hash_lt _ _ (linked.width ▸ nonempty)
      have front := relinked_front (c := (i, entry)) linked small apart ⟨q, held⟩
      have step : place type cells (i, entry) = cells.modify (type.keyHash entry.key table.vector.length) ((i, entry) :: ·) := by
        rw [place, valid, linked.width]
        rfl
      rw [← step] at front
      have chain : Chain some ((table.setCdr i (table.bucket (type.keyHash entry.key table.vector.length))).setBucket
          (type.keyHash entry.key table.vector.length) (some i)).pairs q rest none := by
        apply chain.outside
        intro member
        rw [map_append, map_cons, nodup_append, nodup_cons] at distinct
        exact distinct.2.1.1 member
      have distinct : (((place type cells (i, entry)).flatten ++ rest).map Prod.fst).Nodup := by
        have moved : ((place type cells (i, entry)).flatten ++ rest).Perm (cells.flatten ++ (i, entry) :: rest) := by
          refine ((flatten_place nonempty).append_right rest).trans ?_
          rw [live_cons_valid valid]
          exact perm_middle.symm
        exact ((moved.map Prod.fst).nodup_iff).mpr distinct
      obtain ⟨table', returns, relinked, linked'⟩ := ih front (by rwa [length_place]) chain distinct enough
      exact ⟨table', by exact returns, (relinked_step entry _ valid).trans relinked, linked'⟩

theorem foldlM_rehash_spec (type : TableType κ) {buckets : List (Option ℕ)} {old : List (List (ℕ × Entry κ δ))} (linked : Linked table cells)
    (nonempty : 0 < cells.length) (chains : List.Forall₂ (fun p bucket => Chain some table.pairs p bucket none) buckets old)
    (distinct : ((cells.flatten ++ old.flatten).map Prod.fst).Nodup) :
    ∃ table', buckets.foldlM (fun table entries => rehash type table entries) table = some table' ∧
      Relinked table table' old.flatten ∧ Linked table' (old.flatten.foldl (place type) cells) := by
  induction buckets generalizing table cells old with
  | nil =>
    cases chains
    exact ⟨table, rfl, .refl table, linked⟩
  | cons p buckets ih =>
    obtain ⟨bucket, old, chain, others, rfl⟩ := forall₂_cons_left_iff.mp chains
    rw [flatten_cons, ← append_assoc] at distinct
    have first : ((cells.flatten ++ bucket).map Prod.fst).Nodup :=
      distinct.sublist ((sublist_append_left _ _).map _)
    have short : bucket.length ≤ table.pairs.length := by
      apply chain.length_le
      exact first.sublist ((sublist_append_right _ _).map _)
    obtain ⟨table₁, returns, relinked, linked₁⟩ := rehashLoop_spec type linked nonempty chain first short
    have kept : Forall₂ (fun p bucket => Chain some table₁.pairs p bucket none) buckets old := by
      have both := (forall₂_and_left (p := fun list => list ∈ old) _ _).mpr ⟨fun _ member => member, others.flip⟩
      refine (both.imp fun list q both => ?_).flip
      obtain ⟨member, chain⟩ := both
      apply Chain.frame chain
      intro i present
      apply relinked.outside
      intro moved
      obtain ⟨cell, in_list, same⟩ := mem_map.mp present
      rw [map_append, nodup_append] at distinct
      refine distinct.2.2 i ?_ i ?_ rfl
      · obtain ⟨c, c_moved, rfl⟩ := mem_map.mp moved
        exact mem_map.mpr ⟨c, mem_append_right _ (mem_of_mem_filter c_moved), rfl⟩
      · exact mem_map.mpr ⟨cell, mem_flatten.mpr ⟨list, member, in_list⟩, same⟩
    have distinct₁ : (((bucket.foldl (place type) cells).flatten ++ old.flatten).map Prod.fst).Nodup := by
      have placed := (flatten_foldl_place type bucket nonempty).append_right old.flatten
      rw [(placed.map Prod.fst).nodup_iff]
      have fewer : (live bucket ++ cells.flatten ++ old.flatten).Sublist (bucket ++ cells.flatten ++ old.flatten) :=
        (filter_sublist.append_right _).append_right _
      refine .sublist (fewer.map _) ?_
      rwa [((perm_append_comm.append_right old.flatten).map Prod.fst).nodup_iff]
    obtain ⟨table', rest, relinked', linked'⟩ := ih linked₁ (by rwa [length_foldl_place]) kept distinct₁
    refine ⟨table', ?_, ?_, ?_⟩
    · rw [foldlM_cons, rehash, returns]
      exact rest
    · exact relinked.trans relinked'
    · rw [flatten_cons, foldl_append]
      exact linked'

end MitScheme.Runtime.HashTables
