import MitScheme.Library.Run
import MitScheme.Runtime.HashTable.References
import Mathlib.Data.List.Pairwise

/-!
`hash-table-walk` goes through the buckets of the vector that the table had when the walk began. A procedure that
deletes the association it was given can make the table relink the very pairs that the walk goes through.
-/

namespace MitScheme.Runtime.HashTables

open Library List Option

section
variable {κ δ : Type}

def chainLoop (pairs : List (Pair (Entry κ δ) (Option ℕ))) : (fuel : ℕ) → Option ℕ → List (ℕ × Entry κ δ)
  | 0, _ => []
  | _, none => []
  | fuel + 1, some p =>
    match pairs[p]? with
    | none => []
    | some pair => (p, pair.car) :: chainLoop pairs fuel pair.cdr

def cellsFrom (pairs : List (Pair (Entry κ δ) (Option ℕ))) (p : Option ℕ) : List (ℕ × Entry κ δ) :=
  chainLoop pairs pairs.length p

def associations (table : HashTable κ δ) : List (ℕ × Entry κ δ) := live (table.vector.flatMap (cellsFrom table.pairs))

/-- The loops of `method:fold` for `hash-table-walk`. -/
structure Walk (κ δ : Type) where
  table : HashTable κ δ
  buckets : ℕ
  i : ℕ
  p : Option ℕ
  calls : List (ℕ × Entry κ δ)

namespace Walk

def slots (w : Walk κ δ) : List (Option ℕ) := w.table.vectors.getD w.buckets []

/-- The cells that the walk would go through if the table stayed as it is. -/
def course (w : Walk κ δ) : List (ℕ × Entry κ δ) :=
  cellsFrom w.table.pairs w.p ++ (w.slots.drop w.i).flatMap (cellsFrom w.table.pairs)

def ahead (w : Walk κ δ) : List (ℕ × Entry κ δ) := live w.course

end Walk

variable (type : TableType κ) (procedure : List (κ × δ) → Bool)

/-- Whether the procedure deletes the key of its last call, given all the calls. -/
def deletes (calls : List (ℕ × Entry κ δ)) : Bool := procedure (calls.map fun c => (c.2.key, c.2.datum))

def kons (w : Walk κ δ) (p : ℕ) (entry : Entry κ δ) : Option (Walk κ δ) :=
  if entry.reclaimed then some w
  else
    let calls := w.calls ++ [(p, entry)]
    if deletes procedure calls then do
      let table ← remove type w.table entry.key
      return { w with table := table, calls := calls }
    else some { w with calls := calls }

def walkStep (w : Walk κ δ) : Option (Option (Walk κ δ)) :=
  match w.p with
  | none =>
    match w.slots[w.i]? with
    | none => some none
    | some p => some (some { w with i := w.i + 1, p := p })
  | some p => do
    let w ← kons type procedure w p (← w.table.pairs[p]?).car
    return some { w with p := (← w.table.pairs[p]?).cdr }

def walkStart (table : HashTable κ δ) : Walk κ δ := ⟨table, table.buckets, 0, none, []⟩

def hashTableWalk (fuel : ℕ) (table : HashTable κ δ) : Option (Walk κ δ) :=
  loop (walkStep type procedure) fuel (walkStart table)

def kept : (past calls : List (ℕ × Entry κ δ)) → List (ℕ × Entry κ δ)
  | _, [] => []
  | past, c :: calls =>
    let rest := kept (past ++ [c]) calls
    if deletes procedure (past ++ [c]) then rest else c :: rest

def WalksRight (table : HashTable κ δ) : Prop :=
  ∃ fuel w, hashTableWalk type procedure fuel table = some w ∧ w.calls.Perm (associations table) ∧
    (associations w.table).Perm (kept procedure [] w.calls)

def Deletes (w : Walk κ δ) : Prop :=
  ∃ p pair, w.p = some p ∧ w.table.pairs[p]? = some pair ∧ pair.car.reclaimed = false ∧
    deletes procedure (w.calls ++ [(p, pair.car)]) = true

/-- A deletion relinks the pairs if the rehash flag is set, or if it makes the count fall below the shrink size. -/
def Relinks (table : HashTable κ δ) : Prop :=
  (type.rehashAfterGc = true ∧ table.needsRehash = true) ∨ table.decrementTableCount.Shrinks

/-- No deletion of the walk meets a table that it would relink. -/
def Settled (table : HashTable κ δ) : Prop :=
  ∀ w, Goes (walkStep type procedure) (walkStart table) w → Deletes procedure w → ¬Relinks type w.table

end

section
variable {κ δ : Type} {type : TableType κ} {procedure : List (κ × δ) → Bool} {table table' : HashTable κ δ}
  {pairs : List (Pair (Entry κ δ) (Option ℕ))} {cells cells' : List (List (ℕ × Entry κ δ))}
  {nodes front rest past calls : List (ℕ × Entry κ δ)} {c : ℕ × Entry κ δ} {w w' : Walk κ δ} {p : Option ℕ} {i n fuel : ℕ}

theorem chainLoop_eq (chain : Chain some pairs p nodes none) (enough : nodes.length ≤ fuel) :
    chainLoop pairs fuel p = nodes := by
  induction nodes generalizing p fuel with
  | nil =>
    cases chain
    cases fuel <;> rfl
  | cons c nodes ih =>
    obtain ⟨i, entry⟩ := c
    obtain ⟨rfl, next, held, chain⟩ := chain
    obtain ⟨fuel, rfl⟩ : ∃ n, fuel = n + 1 := ⟨fuel - 1, by rw [length_cons] at enough; omega⟩
    rw [chainLoop, held]
    dsimp only
    rw [ih chain (Nat.le_of_succ_le_succ enough)]

theorem cellsFrom_eq (chain : Chain some pairs p nodes none) : cellsFrom pairs p = nodes :=
  chainLoop_eq chain <| chain.length_le (chain.nodup (some_injective _) fun i same => some_ne_none i same.symm)

theorem chain_cellsFrom (grounded : Grounded some none pairs) (allocated : Allocated pairs.length p) :
    Chain some pairs p (cellsFrom pairs p) none := by
  cases p with
  | none =>
    have nothing : cellsFrom pairs none = [] := cellsFrom_eq rfl
    rw [nothing]
    rfl
  | some p =>
    obtain ⟨nodes, chain⟩ := grounded p (allocated p rfl)
    rwa [cellsFrom_eq chain]

@[simp] theorem cellsFrom_none : cellsFrom pairs none = [] := cellsFrom_eq rfl

theorem cellsFrom_some {pair : Pair (Entry κ δ) (Option ℕ)} (grounded : Grounded some none pairs) (held : pairs[i]? = some pair) :
    cellsFrom pairs (some i) = (i, pair.car) :: cellsFrom pairs pair.cdr := by
  have inside := (List.getElem?_eq_some_iff.mp held).1
  obtain ⟨nodes, chain⟩ := grounded i inside
  cases nodes with
  | nil => cases chain
  | cons c nodes =>
    have whole := cellsFrom_eq chain
    obtain ⟨j, x⟩ := c
    obtain ⟨same, next, held', tail⟩ := chain
    obtain rfl := some.inj same
    obtain rfl := some.inj (held.symm.trans held')
    rw [whole, cellsFrom_eq tail]

theorem flatMap_cellsFrom (linked : Linked table cells) : table.vector.flatMap (cellsFrom table.pairs) = cells.flatten := by
  have same : table.vector.map (cellsFrom table.pairs) = cells := by
    rw [← forall₂_eq_eq_eq, forall₂_map_left_iff]
    exact linked.forall₂.imp fun p bucket => cellsFrom_eq
  rw [flatMap_def, same]

theorem associations_eq (linked : Linked table cells) : associations table = live cells.flatten := by
  rw [associations, flatMap_cellsFrom linked]

theorem kept_snoc : kept procedure past (calls ++ [c]) =
    kept procedure past calls ++ if deletes procedure (past ++ calls ++ [c]) then [] else [c] := by
  induction calls generalizing past with
  | nil => simp [kept]
  | cons c' calls ih =>
    rw [cons_append, kept, kept, ih]
    split <;> simp

structure Walkable (type : TableType κ) (n : ℕ) (w : Walk κ δ) (cells : List (List (ℕ × Entry κ δ))) : Prop where
  valid : Valid type w.table cells
  closed : Closed n w.table
  allocated : Allocated n w.p

theorem Walkable.held (walkable : Walkable type n w cells) (here : w.p = some i) : ∃ pair, w.table.pairs[i]? = some pair := by
  have inside := walkable.allocated i here
  rw [← walkable.closed.length] at inside
  exact ⟨_, getElem?_eq_getElem inside⟩

theorem Walkable.course_some (walkable : Walkable type n w cells) (here : w.p = some i)
    {pair : Pair (Entry κ δ) (Option ℕ)} (held : w.table.pairs[i]? = some pair) :
    w.course = (i, pair.car) :: (cellsFrom w.table.pairs pair.cdr ++ (w.slots.drop w.i).flatMap (cellsFrom w.table.pairs)) := by
  rw [Walk.course, here, cellsFrom_some walkable.valid.grounded held, cons_append]

theorem course_slot {p : Option ℕ} (here : w.p = none) (held : w.slots[w.i]? = some p) :
    ({ w with i := w.i + 1, p := p } : Walk κ δ).course = w.course := by
  obtain ⟨inside, same⟩ := List.getElem?_eq_some_iff.mp held
  have split : w.slots.drop w.i = p :: w.slots.drop (w.i + 1) := by rw [drop_eq_getElem_cons inside, same]
  rw [Walk.course, Walk.course, here, cellsFrom_none, split]
  rfl

def turns (w : Walk κ δ) : ℕ := w.course.length + (w.slots.length - w.i)

theorem walkStep_stays (walkable : Walkable type n w cells) (stays : ¬Deletes procedure w) :
    (walkStep type procedure w = some none ∧ w.ahead = []) ∨
    ∃ w', walkStep type procedure w = some (some w') ∧ Walkable type n w' cells ∧ w'.table = w.table ∧
      (w'.calls = w.calls ∧ w'.ahead = w.ahead ∨
        ∃ c, w'.calls = w.calls ++ [c] ∧ w.ahead = c :: w'.ahead ∧ deletes procedure (w.calls ++ [c]) = false) ∧
      turns w' < turns w := by
  cases here : w.p with
  | none =>
    cases held : w.slots[w.i]? with
    | none =>
      refine .inl ⟨by simp [walkStep, here, held], ?_⟩
      rw [Walk.ahead, Walk.course, here, drop_eq_nil_of_le (getElem?_eq_none_iff.mp held), cellsFrom_none]
      rfl
    | some p =>
      have inside := (List.getElem?_eq_some_iff.mp held).1
      have same := course_slot here held
      refine .inr ⟨{ w with i := w.i + 1, p := p }, by simp [walkStep, here, held], ?_, rfl, .inl ⟨rfl, congrArg live same⟩, ?_⟩
      · exact ⟨walkable.valid, walkable.closed, walkable.closed.slot _ p (mem_of_getElem? held)⟩
      · rw [turns, turns, same]
        have slots : ({ w with i := w.i + 1, p := p } : Walk κ δ).slots = w.slots := rfl
        rw [slots]
        dsimp only
        omega
  | some p =>
    obtain ⟨pair, held⟩ := walkable.held here
    have course := walkable.course_some here held
    have next : Allocated n pair.cdr := walkable.closed.cdr held
    cases valid : pair.car.reclaimed with
    | true =>
      have same : ({ w with p := pair.cdr } : Walk κ δ).ahead = w.ahead := by
        rw [Walk.ahead, Walk.ahead, course, live_cons_reclaimed valid]
        rfl
      refine .inr ⟨{ w with p := pair.cdr }, by simp [walkStep, here, held, kons, valid],
        ⟨walkable.valid, walkable.closed, next⟩, rfl, .inl ⟨rfl, same⟩, ?_⟩
      rw [turns, turns, course, length_cons, Walk.course]
      exact Nat.add_lt_add_right (Nat.lt_succ_self _) _
    | false =>
      have silent : deletes procedure (w.calls ++ [(p, pair.car)]) = false :=
        Bool.eq_false_iff.mpr fun set => stays ⟨p, pair, here, held, valid, set⟩
      refine .inr ⟨{ w with p := pair.cdr, calls := w.calls ++ [(p, pair.car)] }, by simp [walkStep, here, held, kons,
        valid, silent], ⟨walkable.valid, walkable.closed, next⟩, rfl, .inr ⟨(p, pair.car), rfl, ?_, silent⟩, ?_⟩
      · rw [Walk.ahead, course, live_cons_valid valid]
        rfl
      · rw [turns, turns, course, length_cons, Walk.course]
        exact Nat.add_lt_add_right (Nat.lt_succ_self _) _

theorem DistinctKeys.unique {c' : ℕ × Entry κ δ} (keys : DistinctKeys type nodes) (member : c ∈ live nodes)
    (member' : c' ∈ live nodes) (equal : type.keyEqual c.2.key c'.2.key = true) : c = c' := by
  by_contra different
  have symmetric : Std.Symm fun c c' : ℕ × Entry κ δ => type.keyEqual c.2.key c'.2.key = false := by
    refine ⟨fun a b apart => Bool.eq_false_iff.mpr fun equal => ?_⟩
    rw [type.symm _ _ equal] at apart
    contradiction
  have apart := Pairwise.forall keys member member' different
  rw [equal] at apart
  contradiction

theorem remove_settled (valid : Valid type table cells) (settled : ¬Relinks type table) (member : c ∈ live cells.flatten) :
    ∃ hash front rest next, hash < cells.length ∧ cells.getD hash [] = front ++ c :: rest ∧
      table.pairs[c.1]? = some ⟨c.2, next⟩ ∧
      remove type table c.2.key = some (table.setNext hash (lastOf front none) next).decrementTableCount := by
  obtain ⟨present, strong⟩ := mem_filter.mp member
  have strong : c.2.reclaimed = false := by simpa using strong
  have own : Matches type c.2.key c := ⟨strong, type.refl _⟩
  have clear : table.needsRehash = false := by
    apply Bool.eq_false_iff.mpr
    intro set
    exact settled (.inl ⟨valid.flag set, set⟩)
  have hashed : computeHash type table c.2.key = some (table, type.keyHash c.2.key cells.length) := by
    rw [computeHash, clear, Bool.and_false, if_neg Bool.false_ne_true, valid.linked.width]
    rfl
  rcases search_spec valid clear c.2.key with ⟨front, c', rest, split, here, returns⟩ | ⟨absent, -⟩
  · have member' : c' ∈ live cells.flatten := by
      have inside : c' ∈ cells.getD (type.keyHash c.2.key cells.length) [] := by
        rw [split]
        simp
      refine mem_filter.mpr ⟨mem_flatten_of_getD inside, ?_⟩
      simpa using here.1
    obtain rfl : c' = c := valid.keys.unique member' member here.2
    have chain := valid.linked.chains (type.keyHash c'.2.key cells.length)
    rw [split] at chain
    obtain ⟨-, -, -, next, held, -⟩ := chain_append.mp chain
    refine ⟨_, front, rest, next, type.hash_lt _ _ valid.nonempty, split, held, ?_⟩
    have fixed : ¬(table.setNext (type.keyHash c'.2.key cells.length) (lastOf front none) next).decrementTableCount.Shrinks := by
      intro shrinks
      have same : SameSizes table (table.setNext (type.keyHash c'.2.key cells.length) (lastOf front none) next).decrementTableCount :=
        unlink_sizes
      have less := shrinks.1
      rw [unlink_count, same.shrinkSize] at less
      exact settled (.inr ⟨less, same.initialSizeInEffect.symm.trans shrinks.2⟩)
    rw [remove, hashed, bind_eq_bind, bind_some]
    dsimp only
    rw [returns, bind_eq_bind, bind_some]
    dsimp only
    rw [held, bind_eq_bind, bind_some]
    dsimp only
    rw [maybeShrinkTable, if_neg fixed]
  · exact absurd own (absent c present)

theorem held_before (linked : Linked table cells) {hash q : ℕ} (split : cells.getD hash [] = front ++ c :: rest)
    (before : lastOf front none = some q) : ∃ x, table.pairs[q]? = some ⟨x, some c.1⟩ := by
  have chain := linked.chains hash
  rw [split] at chain
  rcases eq_nil_or_concat' front with rfl | ⟨front, ⟨j, x⟩, rfl⟩
  · cases before
  · obtain rfl : j = q := by simpa [lastOf] using before
    obtain ⟨middle, first, rfl, -⟩ := chain_append.mp chain
    obtain ⟨start, -, last⟩ := chain_append.mp first
    exact ⟨x, (chain_single.mp last).2⟩

theorem cellsFrom_unlink (valid : Valid type table cells) {hash : ℕ} (next : Option ℕ)
    (split : cells.getD hash [] = front ++ c :: rest) (allocated : Allocated table.pairs.length p)
    (apart : c.1 ∉ (cellsFrom table.pairs p).map Prod.fst) :
    cellsFrom (table.setNext hash (lastOf front none) next).decrementTableCount.pairs p = cellsFrom table.pairs p := by
  cases before : lastOf front none with
  | none => rfl
  | some q =>
    have chain := chain_cellsFrom valid.grounded allocated
    apply cellsFrom_eq
    apply chain.outside
    intro member
    obtain ⟨⟨j, x⟩, present, rfl⟩ := mem_map.mp member
    obtain ⟨y, held⟩ := held_before valid.linked split before
    obtain ⟨before', after, parts⟩ := append_of_mem present
    rw [parts] at chain apart
    obtain ⟨-, next', held', tail⟩ := chain.suffix
    obtain ⟨-, rfl⟩ := Pair.mk.inj (some.inj (held'.symm.trans held))
    cases after with
    | nil => cases tail
    | cons c' after =>
      obtain ⟨same, -⟩ := tail
      apply apart
      rw [some.inj same]
      simp

theorem drop_unlink (valid : Valid type table cells) {hash v : ℕ} (next : Option ℕ) (small : hash < cells.length)
    (split : cells.getD hash [] = front ++ c :: rest)
    (apart : c.1 ∉ (((table.vectors.getD v []).drop i).flatMap (cellsFrom table.pairs)).map Prod.fst) :
    ((table.setNext hash (lastOf front none) next).decrementTableCount.vectors.getD v []).drop i =
      (table.vectors.getD v []).drop i := by
  rcases eq_nil_or_concat' front with rfl | ⟨front, d, rfl⟩
  · change ((table.vectors.modify table.buckets fun vector => vector.set hash next).getD v []).drop i = _
    rw [getD_eq_getElem?_getD, getElem?_modify, getD_eq_getElem?_getD]
    by_cases same : table.buckets = v
    · subst same
      have inside := valid.linked.inside
      rw [getElem?_eq_getElem inside]
      simp only [Option.map_eq_map, map_some, getD_some, if_pos]
      have vector : table.vectors[table.buckets] = table.vector := by
        rw [HashTable.vector, getD_eq_getElem?_getD, getElem?_eq_getElem inside, getD_some]
      rw [vector]
      have before : hash < i := by
        by_contra behind
        apply apart
        have small' : hash < table.vector.length := valid.linked.width ▸ small
        have chain := valid.linked.chains hash
        rw [split] at chain
        have bucket : table.vector[hash] = table.bucket hash := by
          rw [HashTable.bucket, getD_eq_getElem?_getD, getElem?_eq_getElem small', getD_some]
        have member : table.bucket hash ∈ (table.vectors.getD table.buckets []).drop i := by
          rw [← bucket]
          apply mem_drop_iff_getElem.mpr
          exact ⟨hash - i, by change _ < table.vector.length; omega, by change table.vector[i + (hash - i)] = _; congr 1; omega⟩
        refine mem_map.mpr ⟨c, mem_flatMap.mpr ⟨_, member, ?_⟩, rfl⟩
        rw [cellsFrom_eq chain]
        exact mem_cons_self
      rw [drop_set_of_lt before]
    · simp [same]
  · have last : lastOf (front ++ [d]) none = some d.1 := by simp [lastOf]
    rw [last]
    rfl

/-- The calls and the associations ahead are those of the table at the start, and what was not deleted is in the table. -/
structure Walking (type : TableType κ) (procedure : List (κ × δ) → Bool) (start : HashTable κ δ) (n : ℕ) (w : Walk κ δ)
    (cells : List (List (ℕ × Entry κ δ))) : Prop extends Walkable type n w cells where
  account : (w.calls ++ w.ahead).Perm (associations start)
  left : (live cells.flatten).Perm (kept procedure [] w.calls ++ w.ahead)
  distinct : ((associations start).map Prod.fst).Nodup

theorem walking_start (valid : Valid type table cells) (closed : Closed n table) :
    Walking type procedure table n (walkStart table) cells := by
  have ahead : (walkStart table).ahead = associations table := by
    rw [Walk.ahead, Walk.course, associations, walkStart, cellsFrom_none]
    rfl
  refine ⟨⟨valid, closed, allocated_none⟩, ?_, ?_, ?_⟩
  · rw [ahead]
    exact .refl _
  · rw [ahead, associations_eq valid.linked]
    exact .refl _
  · rw [associations_eq valid.linked]
    exact valid.linked.distinct.sublist (filter_sublist.map _)

theorem Chain.car_held {store : List (Pair (Entry κ δ) (Option ℕ))} {start stop : Option ℕ}
    (chain : Chain some store start nodes stop) (member : c ∈ nodes) : ∃ next, store[c.1]? = some ⟨c.2, next⟩ := by
  obtain ⟨before, after, rfl⟩ := append_of_mem member
  obtain ⟨-, -, -, next, held, -⟩ := chain_append.mp chain
  exact ⟨next, held⟩

theorem Walkable.course_held (walkable : Walkable type n w cells) (member : c ∈ w.course) :
    ∃ next, w.table.pairs[c.1]? = some ⟨c.2, next⟩ := by
  have grounded := walkable.valid.grounded
  have length := walkable.closed.length
  rcases mem_append.mp member with here | later
  · exact Chain.car_held (chain_cellsFrom grounded (length ▸ walkable.allocated)) here
  · obtain ⟨p, slot, here⟩ := mem_flatMap.mp later
    have allocated := walkable.closed.slot w.buckets p (mem_of_mem_drop slot)
    exact Chain.car_held (chain_cellsFrom grounded (length ▸ allocated)) here

theorem Walking.apart (walking : Walking type procedure table n w cells) (course : w.course = c :: rest)
    (valid : c.2.reclaimed = false) : c.1 ∉ rest.map Prod.fst := by
  intro member
  obtain ⟨⟨i, entry⟩, present, same⟩ := mem_map.mp member
  obtain ⟨next, held⟩ := walking.course_held (c := c) (course ▸ mem_cons_self)
  obtain ⟨next', held'⟩ := walking.course_held (c := (i, entry)) (course ▸ mem_cons_of_mem _ present)
  obtain rfl : i = c.1 := same
  obtain ⟨rfl, -⟩ := Pair.mk.inj (some.inj (held'.symm.trans held))
  have distinct := ((walking.account.map Prod.fst).nodup_iff).mpr walking.distinct
  rw [Walk.ahead, course, live_cons_valid valid, map_append, nodup_append, map_cons, nodup_cons] at distinct
  apply distinct.2.1.1
  exact mem_map.mpr ⟨_, mem_filter.mpr ⟨present, by simpa using valid⟩, rfl⟩

theorem course_settled (walking : Walking type procedure table n w cells) {entry : Entry κ δ} {hash : ℕ} {next : Option ℕ}
    (here : w.p = some i) (held : w.table.pairs[i]? = some ⟨entry, next⟩) (valid : entry.reclaimed = false)
    (small : hash < cells.length) (split : cells.getD hash [] = front ++ (i, entry) :: rest) (calls : List (ℕ × Entry κ δ)) :
    (w.table.setNext hash (lastOf front none) next).decrementTableCount.pairs[i]? = some ⟨entry, next⟩ ∧
    w.course = (i, entry) :: ({ w with
      table := (w.table.setNext hash (lastOf front none) next).decrementTableCount, p := next, calls := calls } : Walk κ δ).course := by
  have course := walking.course_some here held
  have apart := walking.apart course valid
  rw [map_append, mem_append, not_or] at apart
  obtain ⟨apart, apart'⟩ := apart
  have length := walking.closed.length
  refine ⟨?_, ?_⟩
  · cases before : lastOf front none with
    | none => exact held
    | some q =>
      have chain := walking.valid.linked.chains hash
      rw [split] at chain
      have distinct := chain.nodup (some_injective _) fun i same => some_ne_none i same.symm
      obtain ⟨d, member, rfl⟩ := mem_of_lastOf before
      rw [map_append, nodup_append] at distinct
      have different := distinct.2.2 d.1 (mem_map_of_mem member) i (by simp)
      simp [HashTable.setNext, HashTable.setCdr, HashTable.decrementTableCount, different, held]
  · have list := cellsFrom_unlink walking.valid next split (length ▸ walking.closed.cdr held) apart
    have slots := drop_unlink walking.valid next small split apart'
    have lists : ∀ p ∈ w.slots.drop w.i,
        cellsFrom (w.table.setNext hash (lastOf front none) next).decrementTableCount.pairs p = cellsFrom w.table.pairs p := by
      intro p member
      apply cellsFrom_unlink walking.valid next split (length ▸ walking.closed.slot _ p (mem_of_mem_drop member))
      intro present
      apply apart'
      obtain ⟨d, inside, same⟩ := mem_map.mp present
      exact mem_map.mpr ⟨d, mem_flatMap.mpr ⟨p, member, inside⟩, same⟩
    have after : ({ w with
      table := (w.table.setNext hash (lastOf front none) next).decrementTableCount, p := next, calls := calls } : Walk κ δ).course =
        cellsFrom w.table.pairs next ++ (w.slots.drop w.i).flatMap (cellsFrom w.table.pairs) := by
      rw [← flatMap_congr lists]
      exact congrArg₂ (· ++ ·) list (congrArg (flatMap _) slots)
    rw [course, after]

theorem others_perm (keys : DistinctKeys type nodes) (left : (live nodes).Perm (front ++ c :: rest)) :
    (others type c.2.key (live nodes)).Perm (front ++ rest) := by
  have strong : ∀ d ∈ front ++ c :: rest, d.2.reclaimed = false := by
    intro d member
    simpa using (mem_filter.mp (left.mem_iff.mpr member)).2
  have whole : live (front ++ c :: rest) = front ++ c :: rest :=
    filter_eq_self.mpr fun d member => by simpa using strong d member
  have without : live (front ++ rest) = front ++ rest := by
    refine filter_eq_self.mpr fun d member => ?_
    have member : d ∈ front ++ c :: rest := by
      rcases mem_append.mp member with member | member
      · exact mem_append_left _ member
      · exact mem_append_right _ (mem_cons_of_mem _ member)
    simpa using strong d member
  have keys : DistinctKeys type (front ++ c :: rest) := by
    apply keys.perm
    rw [whole]
    exact left.symm
  have split := others_of_split keys ⟨strong c (by simp), type.refl c.2.key⟩
  rw [whole, without] at split
  exact split ▸ left.filter _

theorem walkStep_deletes (walking : Walking type procedure table n w cells) (removes : Deletes procedure w)
    (settled : ¬Relinks type w.table) :
    ∃ w' cells' c, walkStep type procedure w = some (some w') ∧ Walkable type n w' cells' ∧
      w'.calls = w.calls ++ [c] ∧ w.ahead = c :: w.ahead.tail ∧ deletes procedure (w.calls ++ [c]) = true ∧
      (live cells'.flatten).Perm (kept procedure [] w.calls ++ w.ahead.tail) ∧
      w'.ahead = w.ahead.tail := by
  obtain ⟨p, ⟨entry, next⟩, here, held, valid, deleted⟩ := removes
  change entry.reclaimed = false at valid
  have ahead : w.ahead = (p, entry) :: w.ahead.tail := by
    rw [Walk.ahead, walking.course_some here held, live_cons_valid valid, tail_cons]
  obtain ⟨table', cells', returns, removed⟩ := remove_spec walking.valid entry.key
  have closed := remove_closed walking.closed returns
  obtain ⟨next', held'⟩ : ∃ next', table'.pairs[p]? = some ⟨entry, next'⟩ := by
    have car := congrArg (fun cars => cars[p]?) removed.cars
    simp only [getElem?_map, held, map_some] at car
    obtain ⟨pair, found, same⟩ := map_eq_some_iff.mp car
    exact ⟨pair.cdr, by rw [found, ← same]⟩
  have left := walking.left
  rw [ahead] at left
  refine ⟨{ w with table := table', p := next', calls := w.calls ++ [(p, entry)] }, cells', (p, entry), ?_,
    ⟨removed.valid, closed, closed.cdr held'⟩, rfl, ahead, deleted, ?_, ?_⟩
  · simp [walkStep, here, held, kons, valid, deleted, returns, held']
  · exact removed.perm.trans (others_perm walking.valid.keys left)
  · have member : (p, entry) ∈ live cells.flatten := left.mem_iff.mpr (by simp)
    obtain ⟨hash, front, rest, next₁, small, split, held₁, returns₁⟩ := remove_settled walking.valid settled member
    obtain rfl := some.inj (returns.symm.trans returns₁)
    obtain ⟨-, rfl⟩ := Pair.mk.inj (some.inj (held₁.symm.trans held))
    obtain ⟨same, course⟩ := course_settled walking here held valid small split (w.calls ++ [(p, entry)])
    obtain ⟨-, rfl⟩ := Pair.mk.inj (some.inj (same.symm.trans held'))
    rw [Walk.ahead, Walk.ahead, course, live_cons_valid valid, tail_cons]

theorem walking_step (walking : Walking type procedure table n w cells)
    (settled : Deletes procedure w → ¬Relinks type w.table) :
    (walkStep type procedure w = some none ∧ w.ahead = []) ∨
    ∃ w' cells', walkStep type procedure w = some (some w') ∧ Walking type procedure table n w' cells' ∧
      (w'.ahead.length < w.ahead.length ∨ w'.ahead.length = w.ahead.length ∧ turns w' < turns w) := by
  by_cases removes : Deletes procedure w
  · obtain ⟨w', cells', c, stepped, walkable, calls, ahead, deleted, left, same⟩ := walkStep_deletes walking removes
      (settled removes)
    refine .inr ⟨w', cells', stepped, ⟨walkable, ?_, ?_, walking.distinct⟩, .inl ?_⟩
    · refine .trans ?_ walking.account
      rw [calls, ahead, same, append_assoc]
      rfl
    · rw [calls, kept_snoc, nil_append, deleted, if_pos rfl, append_nil, same]
      exact left
    · rw [same, ahead]
      exact Nat.lt_succ_self _
  · rcases walkStep_stays walking.toWalkable removes with finished | ⟨w', stepped, walkable, kept_table, moves, turn⟩
    · exact .inl finished
    · refine .inr ⟨w', cells, stepped, ?_⟩
      rcases moves with ⟨calls, ahead⟩ | ⟨c, calls, ahead, silent⟩
      · refine ⟨⟨walkable, ?_, ?_, walking.distinct⟩, .inr ⟨congrArg length ahead, turn⟩⟩
        · rw [calls, ahead]
          exact walking.account
        · rw [calls, ahead]
          exact walking.left
      · have account := walking.account
        have left := walking.left
        rw [ahead] at account left
        refine ⟨⟨walkable, ?_, ?_, walking.distinct⟩, .inl ?_⟩
        · rw [calls, append_assoc]
          exact account
        · rw [calls, kept_snoc, nil_append, silent, if_neg Bool.false_ne_true, append_assoc]
          exact left
        · rw [ahead]
          exact Nat.lt_succ_self _

theorem lex_of_lt {a b a' b' : ℕ} (less : a' < a ∨ a' = a ∧ b' < b) : Prod.Lex (· < ·) (· < ·) (a', b') (a, b) :=
  Prod.lex_def.mpr less

/-- A walk whose deletions do not relink the pairs calls the procedure once for each association, and leaves those that
were not deleted. -/
theorem walksRight_of_settled (formed : Formed type table) (settled : Settled type procedure table) :
    WalksRight type procedure table := by
  obtain ⟨cells, n, valid, closed⟩ := formed
  obtain ⟨fuel, w, ends, ⟨goes, cells', walking⟩, finished⟩ :=
    loop_ends (walkStep type procedure) (s := walkStart table)
      (fun w => Goes (walkStep type procedure) (walkStart table) w ∧ ∃ cells, Walking type procedure table n w cells)
      (fun w => (w.ahead.length, turns w))
      (fun w inv => by
        obtain ⟨goes, cells, walking⟩ := inv
        rcases walking_step walking (settled w goes) with ⟨finished, -⟩ | ⟨w', cells', stepped, walking', less⟩
        · exact .inl finished
        · exact .inr ⟨w', stepped, ⟨goes.tail stepped, cells', walking'⟩, lex_of_lt less⟩)
      ⟨.refl, cells, walking_start valid closed⟩
  have nothing : w.ahead = [] := by
    rcases walking_step walking (settled w goes) with ⟨-, none⟩ | ⟨w', cells', stepped, -⟩
    · exact none
    · rw [finished] at stepped
      cases stepped
  have account := walking.account
  have left := walking.left
  rw [nothing, append_nil] at account left
  refine ⟨fuel, w, ends, account, ?_⟩
  rw [associations_eq walking.valid.linked]
  exact left

theorem kons_calls {p : ℕ} {entry : Entry κ δ} (called : kons type procedure w p entry = some w') :
    w'.calls ≠ [] ∨ w'.calls = w.calls ∧ w'.table = w.table := by
  unfold kons at called
  split at called
  · exact .inr (some.inj called ▸ ⟨rfl, rfl⟩)
  · refine .inl ?_
    dsimp only at called
    split at called
    · obtain ⟨table', -, same⟩ := bind_eq_some_iff.mp called
      cases same
      simp
    · cases called
      simp

/-- The table stays as it was until the first call. -/
theorem table_of_no_calls (goes : Goes (walkStep type procedure) (walkStart table) w) (none : w.calls = []) : w.table = table := by
  induction goes with
  | refl => rfl
  | @tail v w _ stepped ih =>
    cases here : v.p with
    | none =>
      cases held : v.slots[v.i]? with
      | none => simp [walkStep, here, held] at stepped
      | some q =>
        simp only [walkStep, here, held, some.injEq] at stepped
        subst stepped
        exact ih none
    | some p =>
      simp only [walkStep, here, bind_eq_bind, bind_eq_some_iff] at stepped
      obtain ⟨pair, held, w₁, called, pair', held', stepped⟩ := stepped
      cases stepped
      rcases kons_calls called with some_call | ⟨calls, same⟩
      · exact absurd none some_call
      · exact same.trans (ih (calls.symm.trans none))

end

def remainderType : TableType ℕ where
  keyEqual := fun a b => decide (a = b)
  keyHash := fun key n => key % n
  rehashAfterGc := false
  refl := by simp
  symm := by simp [eq_comm]
  trans := fun a b c first second => by simp_all
  hash_equal := fun a b n same => by simp_all
  hash_lt := fun key n positive => Nat.mod_lt key positive

def oneMore : RehashSize := .integer 1 (by decide)

/-- The keys 10, 5 and 0 are put in one bucket, and two more entries are deleted again. -/
def crowd : List (Operation ℕ Unit) :=
  [.setRehashSize oneMore, .set 1 (), .set 2 (), .set 10 (), .set 5 (), .set 0 (), .delete 1, .delete 2]

def crowded : HashTable ℕ Unit where
  rehashThreshold := defaultRehashThreshold
  rehashSize := oneMore
  count := 3
  growSize := 5
  shrinkSize := 3
  buckets := 1
  primes := 5
  needsRehash := false
  initialSizeInEffect := false
  pairs := [⟨⟨1, (), false⟩, none⟩, ⟨⟨2, (), false⟩, none⟩, ⟨⟨10, (), false⟩, none⟩, ⟨⟨5, (), false⟩, some 2⟩, ⟨⟨0, (), false⟩, some 3⟩]
  vectors := [[some 2, some 0, some 1, none, none], [some 4, none, none, none, none]]

theorem nextPrime_eq {p q : ℕ} (prime : q.Prime) (more : p < q) (least : ∀ n < q, p < n → ¬n.Prime) : nextPrime p = q := by
  rw [nextPrime, Nat.find_eq_iff]
  exact ⟨⟨more, prime⟩, fun n less both => least n less both.1 both.2⟩

theorem primesLoop_four : primesLoop 4 2 = 5 := by
  have two : nextPrime 2 = 3 := nextPrime_eq (by decide) (by decide) fun n less more => by omega
  have three : nextPrime 3 = 5 := by
    apply nextPrime_eq (by decide) (by decide)
    intro n less more
    obtain rfl : n = 4 := by omega
    decide
  rw [primesLoop, if_neg (by decide), two, primesLoop, if_neg (by decide), three, primesLoop, if_pos (by decide)]

theorem primesLoop_five : primesLoop 5 5 = 5 := by rw [primesLoop, if_pos (by decide)]

theorem roundHalfEven_default (size : ℤ) : roundHalfEven (size / defaultRehashThreshold.value) = size := by
  have same : (size : ℚ) / defaultRehashThreshold.value = size := div_one _
  rw [same, roundHalfEven_intCast]

theorem resetTable_eq {κ δ : Type} (table : HashTable κ δ) {size : ℤ} {primes : ℕ}
    (rounded : roundHalfEven (table.growSize / table.rehashThreshold.value) = size)
    (found : primesLoop size (if size < table.primes then firstPrime else table.primes) = primes) :
    resetTable table = { table with
      shrinkSize := computeShrinkSize table.rehashSize table.growSize
      primes := primes
      buckets := table.vectors.length
      vectors := table.vectors ++ [List.replicate primes none] } := by
  rw [resetTable, rounded, found]

def full : HashTable ℕ Unit := { crowded with
  count := 4
  growSize := 4
  shrinkSize := 0
  buckets := 0
  pairs := [⟨⟨1, (), false⟩, none⟩, ⟨⟨2, (), false⟩, none⟩, ⟨⟨10, (), false⟩, some 3⟩, ⟨⟨5, (), false⟩, none⟩]
  vectors := [[some 2, some 0, some 1, none, none]] }

def overfull : HashTable ℕ Unit := { full with
  count := 5
  pairs := [⟨⟨1, (), false⟩, none⟩, ⟨⟨2, (), false⟩, none⟩, ⟨⟨10, (), false⟩, some 3⟩, ⟨⟨5, (), false⟩, some 4⟩, ⟨⟨0, (), false⟩, none⟩] }

def grown : HashTable ℕ Unit := { crowded with
  count := 5
  vectors := [[some 2, some 0, some 1, none, none], [some 4, some 0, some 1, none, none]] }

theorem crowd_full : performAll remainderType (makeHashTable none) (crowd.take 5) = some full := by
  have made : (makeHashTable none : HashTable ℕ Unit) = { full with
      rehashSize := defaultRehashSize, count := 0, pairs := [], vectors := [replicate 5 none] } :=
    (resetTable_eq makeTable (roundHalfEven_default 4) primesLoop_four).trans rfl
  rw [made]
  rfl

theorem newSize_overfull : newSize remainderType overfull 5 = some grown := by
  rw [newSize_eq, relink, resetTable_eq { overfull with growSize := 5 } (roundHalfEven_default 5) primesLoop_five]
  rfl

theorem full_grows : perform remainderType full (.set 0 ()) = some grown := by
  have size : growLoop oneMore 5 4 = 5 := by
    rw [growLoop, if_pos (by decide), growLoop, if_neg (by decide)]
    rfl
  have added : perform remainderType full (.set 0 ()) = maybeGrowTable remainderType overfull := rfl
  have grows : maybeGrowTable remainderType overfull =
      (newSize remainderType overfull (growLoop oneMore 5 4)).bind fun table => some { table with initialSizeInEffect := false } :=
    rfl
  rw [added, grows, size, newSize_overfull]
  rfl

theorem crowd_grown : performAll remainderType (makeHashTable none) (crowd.take 6) = some grown := by
  have split : crowd.take 6 = crowd.take 5 ++ [.set 0 ()] := rfl
  rw [split, performAll, foldlM_append]
  change (performAll remainderType (makeHashTable none) (crowd.take 5)).bind _ = _
  rw [crowd_full, bind_some, foldlM_cons, full_grows]
  rfl

theorem crowd_crowded : performAll remainderType (makeHashTable none) crowd = some crowded := by
  have split : crowd = crowd.take 6 ++ [.delete 1, .delete 2] := rfl
  rw [split, performAll, foldlM_append]
  change (performAll remainderType (makeHashTable none) (crowd.take 6)).bind _ = _
  rw [crowd_grown]
  rfl

def deletesFirst (calls : List (ℕ × Unit)) : Bool := calls.length = 1

theorem walksRight_of_settled_grown : WalksRight remainderType deletesFirst grown := by
  refine walksRight_of_settled (performAll_formed (formed_make none) crowd_grown) fun w goes removes => ?_
  obtain ⟨p, pair, -, -, -, deleted⟩ := removes
  have none : w.calls = [] := by
    simpa [deletes, deletesFirst] using deleted
  rw [table_of_no_calls goes none]
  rintro (⟨flag, -⟩ | shrinks)
  · cases flag
  · exact absurd shrinks.1 (by decide)

def deletesFive (calls : List (ℕ × Unit)) : Bool := calls.getLast? = some (5, ())

/-- The deletion puts the pair of the key 10 in front of the pair of the key 0, where the walk has been. -/
def relinked : HashTable ℕ Unit := { crowded with
  count := 2
  growSize := 4
  shrinkSize := 0
  buckets := 2
  pairs := [⟨⟨1, (), false⟩, none⟩, ⟨⟨2, (), false⟩, none⟩, ⟨⟨10, (), false⟩, some 4⟩, ⟨⟨5, (), false⟩, some 2⟩, ⟨⟨0, (), false⟩, none⟩]
  vectors := crowded.vectors ++ [[some 2, none, none, none, none]] }

def unlinked : HashTable ℕ Unit := { crowded with
  count := 2
  pairs := [⟨⟨1, (), false⟩, none⟩, ⟨⟨2, (), false⟩, none⟩, ⟨⟨10, (), false⟩, none⟩, ⟨⟨5, (), false⟩, some 2⟩, ⟨⟨0, (), false⟩, some 2⟩] }

theorem remove_relinked : remove remainderType crowded 5 = some relinked := by
  have shrinks : remove remainderType crowded 5 = newSize remainderType unlinked (shrinkLoop oneMore 2 5) := rfl
  have size : shrinkLoop oneMore 2 5 = 4 := by
    rw [shrinkLoop, if_neg (by decide), if_pos (by decide), shrinkLoop, if_pos (by decide)]
    rfl
  rw [shrinks, size, newSize_eq, relink,
    resetTable_eq { unlinked with growSize := 4 } (roundHalfEven_default 4) primesLoop_four]
  rfl

theorem walk_repeats : (hashTableWalk remainderType deletesFive 12 crowded).map (fun w => w.calls.map fun c => c.2.key) =
    some [0, 5, 10, 0] := by
  let zero : ℕ × Entry ℕ Unit := (4, ⟨0, (), false⟩)
  let five : ℕ × Entry ℕ Unit := (3, ⟨5, (), false⟩)
  have called : kons remainderType deletesFive ⟨crowded, 1, 1, some 3, [zero]⟩ 3 five.2 =
      (remove remainderType crowded 5).bind fun table => some ⟨table, 1, 1, some 3, [zero, five]⟩ := rfl
  rw [remove_relinked] at called
  have deletion : walkStep remainderType deletesFive ⟨crowded, 1, 1, some 3, [zero]⟩ =
      some (some ⟨relinked, 1, 1, some 2, [zero, five]⟩) := by
    change (kons remainderType deletesFive ⟨crowded, 1, 1, some 3, [zero]⟩ 3 five.2).bind _ = _
    rw [called]
    rfl
  have walk : hashTableWalk remainderType deletesFive 12 crowded =
      loop (walkStep remainderType deletesFive) 10 ⟨crowded, 1, 1, some 3, [zero]⟩ := by
    have enters : walkStep remainderType deletesFive (walkStart crowded) = some (some ⟨crowded, 1, 1, some 4, []⟩) := rfl
    have passes : walkStep remainderType deletesFive ⟨crowded, 1, 1, some 4, []⟩ = some (some ⟨crowded, 1, 1, some 3, [zero]⟩) := rfl
    rw [hashTableWalk, loop_step enters, loop_step passes]
  rw [walk, loop_step deletion]
  rfl

theorem walk_with_deletion_repeats_call : ∃ table, performAll remainderType (makeHashTable none) crowd = some table ∧
    ¬WalksRight remainderType deletesFive table := by
  refine ⟨crowded, crowd_crowded, ?_⟩
  rintro ⟨fuel, w, ends, account, -⟩
  obtain ⟨w', ends', calls⟩ := map_eq_some_iff.mp walk_repeats
  obtain rfl := loop_unique ends ends'
  have lengths := congrArg length calls
  rw [length_map, account.length_eq] at lengths
  cases lengths

end MitScheme.Runtime.HashTables
