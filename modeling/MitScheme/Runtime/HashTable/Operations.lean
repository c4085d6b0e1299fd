import MitScheme.Runtime.HashTable.Rehashing

/-!
What `hash-table-set!` and `hash-table-delete!` do to the associations.
-/

namespace MitScheme.Runtime.HashTables

open Library List

variable {κ δ : Type} {type : TableType κ} {table table' : HashTable κ δ} {cells : List (List (ℕ × Entry κ δ))}
  {nodes front rest tail : List (ℕ × Entry κ δ)} {c : ℕ × Entry κ δ} {p q : Option ℕ} {key : κ} {hash i fuel : ℕ}

def Matches (type : TableType κ) (key : κ) (c : ℕ × Entry κ δ) : Prop :=
  c.2.reclaimed = false ∧ type.keyEqual c.2.key key = true

def lastOf (front : List (ℕ × Entry κ δ)) (q : Option ℕ) : Option ℕ := ((front.map Prod.fst).getLast?).or q

theorem lastOf_cons : lastOf (c :: front) q = lastOf front (some c.1) := by
  rw [lastOf, lastOf, map_cons, getLast?_cons]
  cases (front.map Prod.fst).getLast? <;> rfl

theorem searchLoop_spec (type : TableType κ) (key : κ) {pairs : List (Pair (Entry κ δ) (Option ℕ))} (chain : Chain some pairs p nodes none)
    (enough : nodes.length ≤ fuel) :
    (∃ front c rest, nodes = front ++ c :: rest ∧ Matches type key c ∧
      searchLoop type pairs key fuel p q = some (some c.1, lastOf front q)) ∨
    (∀ c ∈ nodes, ¬Matches type key c) ∧ searchLoop type pairs key fuel p q = some (none, lastOf nodes q) := by
  induction nodes generalizing p q fuel with
  | nil =>
    cases chain
    exact .inr ⟨forall_mem_nil _, by cases fuel <;> rfl⟩
  | cons c nodes ih =>
    obtain ⟨i, entry⟩ := c
    obtain ⟨rfl, next, held, chain⟩ := chain
    obtain ⟨fuel, rfl⟩ : ∃ n, fuel = n + 1 := ⟨fuel - 1, by rw [length_cons] at enough; omega⟩
    rw [searchLoop, held, Option.bind_eq_bind, Option.bind_some]
    dsimp only
    by_cases found : (!entry.reclaimed && type.keyEqual entry.key key) = true
    · rw [if_pos found]
      rw [Bool.and_eq_true, Bool.not_eq_true'] at found
      exact .inl ⟨[], (i, entry), nodes, rfl, found, rfl⟩
    · rw [if_neg found]
      rcases ih (q := some i) chain (Nat.le_of_succ_le_succ enough) with ⟨front, c, rest, rfl, found, returns⟩ | ⟨absent, returns⟩
      · exact .inl ⟨(i, entry) :: front, c, rest, rfl, found, by rw [returns, lastOf_cons]⟩
      · refine .inr ⟨forall_mem_cons.mpr ⟨fun here => ?_, absent⟩, by rw [returns, lastOf_cons]⟩
        exact found (by rw [here.1, here.2]; rfl)

theorem flatten_set (small : hash < cells.length) (bucket : List (ℕ × Entry κ δ)) : ∃ before after, cells.flatten =
    before ++ (cells.getD hash [] ++ after) ∧ (cells.set hash bucket).flatten = before ++ (bucket ++ after) := by
  refine ⟨(cells.take hash).flatten, (cells.drop (hash + 1)).flatten, ?_, ?_⟩
  · conv_lhs => rw [← take_append_drop hash cells, drop_eq_getElem_cons small]
    rw [flatten_append, flatten_cons, getD_eq_getElem?_getD, getElem?_eq_getElem small, Option.getD_some]
  · rw [set_eq_take_append_cons_drop, if_pos small, flatten_append, flatten_cons]

theorem getD_set (small : hash < cells.length) (bucket : List (ℕ × Entry κ δ)) :
    (cells.set hash bucket).getD i [] = if i = hash then bucket else cells.getD i [] := by
  rw [getD_eq_getElem?_getD, getElem?_set]
  by_cases same : hash = i
  · subst same
    simp [small]
  · rw [if_neg same, if_neg (Ne.symm same), getD_eq_getElem?_getD]

theorem setNext_linked (linked : Linked table cells) (small : hash < cells.length) (split : cells.getD hash [] = front ++ rest)
    (chain : Chain some table.pairs p tail none)
    (distinct : ((cells.set hash (front ++ tail)).flatten.map Prod.fst).Nodup) :
    Linked (table.setNext hash (lastOf front none) p) (cells.set hash (front ++ tail)) := by
  have small' : hash < table.vector.length := linked.width ▸ small
  have whole := linked.chains hash
  rw [split] at whole
  rcases eq_nil_or_concat' front with rfl | ⟨front, ⟨q, x⟩, rfl⟩
  · refine ⟨fun i => ?_, ?_, distinct, ?_⟩
    · change Chain some table.pairs ((table.setBucket hash p).bucket i) _ none
      rw [bucket_setBucket linked.inside small', getD_set small]
      split
      · exact chain
      · exact linked.chains i
    · rw [length_set, linked.width]
      exact (vector_setBucket linked.inside ▸ length_set.symm : _)
    · simpa [HashTable.setNext, lastOf, HashTable.setBucket] using linked.inside
  · have last : lastOf (front ++ [(q, x)]) none = some q := by simp [lastOf]
    rw [last]
    obtain ⟨middle, first, -⟩ := chain_append.mp whole
    have first_distinct : ((front ++ [(q, x)]).map Prod.fst).Nodup := by
      refine distinct.sublist (.map _ ?_)
      obtain ⟨before, after, -, flat⟩ := flatten_set small (front ++ [(q, x)] ++ tail)
      rw [flat, append_assoc (front ++ [(q, x)])]
      exact (sublist_append_left _ _).trans (sublist_append_right _ _)
    have apart : q ∉ tail.map Prod.fst := by
      obtain ⟨before, after, -, flat⟩ := flatten_set small (front ++ [(q, x)] ++ tail)
      have sub : ([(q, x)] ++ tail).Sublist (before ++ (front ++ [(q, x)] ++ tail ++ after)) := by
        rw [append_assoc front, append_assoc front]
        exact ((sublist_append_left _ _).trans (sublist_append_right _ _)).trans (sublist_append_right _ _)
      have nodup := distinct.sublist ((flat ▸ sub).map Prod.fst)
      exact (nodup_cons.mp nodup).1
    refine ⟨fun i => ?_, ?_, distinct, linked.inside⟩
    · rw [getD_set small]
      split
      · next same =>
        subst same
        exact chain_append.mpr ⟨p, first.retarget first_distinct p, chain.outside apart _⟩
      · next different =>
        apply (linked.chains i).outside
        intro member
        obtain ⟨c, present, same⟩ := mem_map.mp member
        exact linked.apart different present (split ▸ by simp : (q, x) ∈ cells.getD hash []) same
    · rw [length_set, linked.width]
      rfl

theorem mem_of_lastOf (last : lastOf front none = some i) : ∃ c ∈ front, c.1 = i := by
  rw [lastOf, Option.or_none] at last
  exact mem_map.mp (mem_of_getLast? last)

theorem setNext_grounded (grounded : Grounded some none table.pairs)
    (linked : Linked (table.setNext hash (lastOf front none) p) cells) (kept : front ⊆ cells.flatten) :
    Grounded some none (table.setNext hash (lastOf front none) p).pairs := by
  refine grounded.change (fun i => lastOf front none = some i) (fun i last => ?_) (fun i different => ?_) ?_
  · obtain ⟨c, member, rfl⟩ := mem_of_lastOf last
    exact linked.ends (kept member)
  · cases before : lastOf front none with
    | none => rfl
    | some q =>
      have other : q ≠ i := fun same => different (same ▸ before)
      simp [HashTable.setNext, HashTable.setCdr, other]
  · cases lastOf front none <;> simp [HashTable.setNext, HashTable.setCdr, HashTable.setBucket]

theorem setNext_cars : (table.setNext hash q p).pairs.map Pair.car = table.pairs.map Pair.car := by
  cases q with
  | none => rfl
  | some q => exact cars_setCdr

theorem setNext_count : (table.setNext hash q p).count = table.count := by cases q <;> rfl

theorem matches_bucket (placed : Placed type cells) (member : c ∈ cells.flatten) (here : Matches type key c) :
    c ∈ cells.getD (type.keyHash key cells.length) [] := by
  obtain ⟨bucket, in_cells, in_bucket⟩ := mem_flatten.mp member
  obtain ⟨i, inside, rfl⟩ := mem_iff_getElem.mp in_cells
  have at_i : c ∈ cells.getD i [] := by
    rwa [getD_eq_getElem?_getD, getElem?_eq_getElem inside]
  rw [← type.hash_equal _ _ _ here.2, placed i c at_i here.1]
  exact at_i

def others (type : TableType κ) (key : κ) (moved : List (ℕ × Entry κ δ)) : List (ℕ × Entry κ δ) :=
  moved.filter fun c => !type.keyEqual c.2.key key

theorem others_of_split (keys : DistinctKeys type (front ++ c :: rest)) (here : Matches type key c) :
    others type key (live (front ++ c :: rest)) = live (front ++ rest) := by
  rw [DistinctKeys, live_append, live_cons_valid here.1, pairwise_append] at keys
  have differs {c' : ℕ × Entry κ δ} (different : type.keyEqual c'.2.key c.2.key = false) :
      type.keyEqual c'.2.key key = false := by
    apply Bool.eq_false_iff.mpr
    intro equal
    rw [type.trans _ _ _ equal (type.symm _ _ here.2)] at different
    contradiction
  rw [others, live_append, live_cons_valid here.1, filter_append, filter_cons_of_neg (by simp [here.2]), live_append]
  congr 1
  · refine filter_eq_self.mpr fun c' member => ?_
    rw [differs (keys.2.2 c' member c mem_cons_self)]
    rfl
  · refine filter_eq_self.mpr fun c' member => ?_
    have different := (pairwise_cons.mp keys.2.1).1 c' member
    rw [differs]
    · rfl
    · apply Bool.eq_false_iff.mpr
      intro equal
      rw [type.symm _ _ equal] at different
      contradiction

theorem unlink_count : (table.setNext hash q p).decrementTableCount.count = table.count - 1 :=
  congrArg (· - 1) setNext_count

theorem unlink_sizes : SameSizes table (table.setNext hash q p).decrementTableCount :=
  setNext_sizes.trans decrementTableCount_sizes

theorem unlink_valid (valid : Valid type table cells) (clear : table.needsRehash = false) (small : hash < cells.length)
    (split : cells.getD hash [] = front ++ c :: rest) {next : Option ℕ} (held : table.pairs[c.1]? = some ⟨c.2, next⟩) :
    Valid type (table.setNext hash (lastOf front none) next).decrementTableCount (cells.set hash (front ++ rest)) ∧
      ∃ before after, cells.flatten = before ++ c :: after ∧ (cells.set hash (front ++ rest)).flatten = before ++ after := by
  obtain ⟨before, after, flat, flat'⟩ := flatten_set small (front ++ rest)
  rw [split] at flat
  have parts : cells.flatten = (before ++ front) ++ c :: (rest ++ after) := by rw [flat]; simp
  have parts' : (cells.set hash (front ++ rest)).flatten = (before ++ front) ++ (rest ++ after) := by rw [flat']; simp
  have fewer : (cells.set hash (front ++ rest)).flatten.Sublist cells.flatten := by
    rw [parts, parts']
    exact .append_left (sublist_cons_self _ _) _
  have chain := valid.linked.chains hash
  rw [split] at chain
  obtain ⟨-, -, here, next', held', tail⟩ := chain_append.mp chain
  obtain ⟨-, rfl⟩ := Pair.mk.inj (Option.some.inj (held.symm.trans held'))
  have linked := setNext_linked valid.linked small split tail (valid.linked.distinct.sublist (fewer.map _))
  refine ⟨⟨⟨linked.chains, linked.width, linked.distinct, linked.inside⟩, by simpa using valid.nonempty,
    by rw [unlink_sizes.primes]; exact valid.primes, ?_, ?_, fun set => ?_, fun _ => ?_, valid.keys.sublist (fewer.filter _)⟩, _, _, parts, parts'⟩
  · refine setNext_grounded valid.grounded linked fun c' member => ?_
    rw [parts']
    exact mem_append_left _ (mem_append_right _ member)
  · rw [unlink_count, valid.count, parts, parts']
    simp
    omega
  · rw [unlink_sizes.needsRehash.symm.trans set] at clear
    contradiction
  · intro i c' member valid'
    rw [getD_set small] at member
    rw [length_set]
    split at member
    · next same =>
      subst same
      refine valid.placed clear i c' ?_ valid'
      rw [split]
      rcases mem_append.mp member with member | member
      · exact mem_append_left _ member
      · exact mem_append_right _ (mem_cons_of_mem _ member)
    · exact valid.placed clear i c' member valid'

theorem search_spec (valid : Valid type table cells) (clear : table.needsRehash = false) (key : κ) :
    let hash := type.keyHash key cells.length
    (∃ front c rest, cells.getD hash [] = front ++ c :: rest ∧ Matches type key c ∧
      searchLoop type table.pairs key table.pairs.length (table.bucket hash) none = some (some c.1, lastOf front none)) ∨
    (∀ c ∈ cells.flatten, ¬Matches type key c) ∧
      searchLoop type table.pairs key table.pairs.length (table.bucket hash) none =
        some (none, lastOf (cells.getD hash []) none) := by
  intro hash
  have chain := valid.linked.chains hash
  have short := chain.length_le (chain.nodup (Option.some_injective _) fun i same => Option.some_ne_none i same.symm)
  rcases searchLoop_spec type key (q := none) chain short with found | ⟨absent, returns⟩
  · exact .inl found
  · exact .inr ⟨fun c member here => absent c (matches_bucket (valid.placed clear) member here) here, returns⟩

structure Removed (type : TableType κ) (key : κ) (table table' : HashTable κ δ) (cells cells' : List (List (ℕ × Entry κ δ))) :
    Prop where
  valid : Valid type table' cells'
  perm : (live cells'.flatten).Perm (others type key (live cells.flatten))
  subset : cells'.flatten ⊆ cells.flatten
  cars : table'.pairs.map Pair.car = table.pairs.map Pair.car
  clear : table'.needsRehash = false
  initialSizeInEffect : table'.initialSizeInEffect = table.initialSizeInEffect
  sized : table.needsRehash = false → Sized table →
    Sized table' ∧ (table.initialSizeInEffect = true → table'.growSize = table.growSize)

theorem others_of_absent (absent : ∀ c ∈ cells.flatten, ¬Matches type key c) :
    others type key (live cells.flatten) = live cells.flatten := by
  refine filter_eq_self.mpr fun c member => ?_
  obtain ⟨present, valid⟩ := mem_filter.mp member
  rw [Bool.not_eq_true'] at valid ⊢
  exact Bool.eq_false_iff.mpr fun equal => absent c present ⟨valid, equal⟩

theorem remove_spec (valid : Valid type table cells) (key : κ) :
    ∃ table' cells', remove type table key = some table' ∧ Removed type key table table' cells cells' := by
  obtain ⟨table₁, cells₁, hashed, kept, clear, fresh⟩ := computeHash_spec valid key
  have others_kept : (others type key (live cells₁.flatten)).Perm (others type key (live cells.flatten)) := kept.perm.filter _
  rw [remove, hashed, Option.bind_eq_bind, Option.bind_some]
  dsimp only
  rcases search_spec kept.valid clear key with ⟨front, c, rest, split, here, returns⟩ | ⟨absent, returns⟩
  · have small : type.keyHash key cells₁.length < cells₁.length := type.hash_lt _ _ kept.valid.nonempty
    have chain := kept.valid.linked.chains (type.keyHash key cells₁.length)
    rw [split] at chain
    obtain ⟨-, -, -, next, held, -⟩ := chain_append.mp chain
    obtain ⟨unlinked, before, after, parts, parts'⟩ := unlink_valid kept.valid clear small split held
    obtain ⟨table', cells', shrunk, kept', sized, stays⟩ := maybeShrinkTable_spec unlinked
    refine ⟨table', cells', ?_, kept'.valid, ?_, ?_, ?_, ?_, ?_, fun stale sized₀ => ?_⟩
    · rw [returns, Option.bind_eq_bind, Option.bind_some]
      dsimp only
      rw [held]
      exact shrunk
    · refine kept'.perm.trans (.trans (.of_eq ?_) others_kept)
      have keys := kept.valid.keys
      rw [parts] at keys ⊢
      rw [parts', others_of_split keys here]
    · intro c' member
      have member := kept'.subset member
      rw [parts'] at member
      apply kept.subset
      rw [parts]
      rcases mem_append.mp member with member | member
      · exact mem_append_left _ member
      · exact mem_append_right _ (mem_cons_of_mem _ member)
    · rw [kept'.cars, ← kept.cars]
      exact setNext_cars
    · exact kept'.clear (unlink_sizes.needsRehash.trans clear)
    · rw [kept'.initialSizeInEffect, ← kept.initialSizeInEffect]
      exact unlink_sizes.initialSizeInEffect
    · obtain ⟨rfl, rfl⟩ := fresh stale
      have width : (table₁.setNext (type.keyHash key cells₁.length) (lastOf front none) next).decrementTableCount.vector.length =
          table₁.vector.length := by
        rw [← unlinked.linked.width, length_set]
        exact valid.linked.width
      have fits := sized₀.fits
      have fewer : (table₁.count - 1 : ℕ) ≤ table₁.growSize := by omega
      rw [← unlink_count] at fewer
      refine ⟨sized (sized₀.toResizable.same unlink_sizes width fewer), fun initial => ?_⟩
      rw [stays]
      · exact unlink_sizes.growSize
      · intro shrinks
        have cleared := unlink_sizes.initialSizeInEffect.symm.trans shrinks.2
        rw [initial] at cleared
        contradiction
  · refine ⟨table₁, cells₁, ?_, kept.valid, ?_, kept.subset, kept.cars, clear, kept.initialSizeInEffect, fun stale sized => ?_⟩
    · rw [returns]
      rfl
    · refine .trans (.of_eq ?_) others_kept
      exact (others_of_absent absent).symm
    · obtain ⟨rfl, rfl⟩ := fresh stale
      exact ⟨sized, fun _ => rfl⟩

def withDatum (i : ℕ) (datum : δ) (c : ℕ × Entry κ δ) : ℕ × Entry κ δ :=
  if c.1 = i then (c.1, { c.2 with datum := datum }) else c

@[simp] theorem withDatum_fst {datum : δ} : (withDatum i datum c).1 = c.1 := by
  unfold withDatum
  split <;> rfl

@[simp] theorem withDatum_key {datum : δ} : (withDatum i datum c).2.key = c.2.key := by
  unfold withDatum
  split <;> rfl

@[simp] theorem withDatum_reclaimed {datum : δ} : (withDatum i datum c).2.reclaimed = c.2.reclaimed := by
  unfold withDatum
  split <;> rfl

theorem live_withDatum {datum : δ} : live (nodes.map (withDatum i datum)) = (live nodes).map (withDatum i datum) := by
  rw [live, filter_map]
  congr 1
  exact filter_congr fun c _ => by simp

/-- The cells change, but not their addresses and keys, and none becomes valid. -/
theorem mapped_valid {type' : TableType κ} {f : ℕ × Entry κ δ → ℕ × Entry κ δ} {pairs : List (Pair (Entry κ δ) (Option ℕ))}
    {stale : Bool} (valid : Valid type table cells) (length : pairs.length = table.pairs.length)
    (same : ∀ c, (f c).1 = c.1 ∧ (f c).2.key = c.2.key ∧ ((f c).2.reclaimed = false → c.2.reclaimed = false))
    (moved : ∀ start nodes, Chain some table.pairs start nodes none → Chain some pairs start (nodes.map f) none)
    (keyEqual : type'.keyEqual = type.keyEqual) (flag : stale = true → type'.rehashAfterGc = true)
    (clear : stale = false → table.needsRehash = false ∧ type'.keyHash = type.keyHash) :
    Valid type' { table with needsRehash := stale, pairs := pairs } (cells.map (List.map f)) := by
  have getD (j : ℕ) : (cells.map (map f)).getD j [] = (cells.getD j []).map f := by
    simp only [getD_eq_getElem?_getD, getElem?_map]
    cases cells[j]? <;> rfl
  refine ⟨⟨fun j => ?_, ?_, ?_, valid.linked.inside⟩, by simpa using valid.nonempty, valid.primes, fun j inside => ?_, ?_, flag,
    fun fresh => ?_, ?_⟩
  · rw [getD]
    exact moved _ _ (valid.linked.chains j)
  · rw [length_map]
    exact valid.linked.width
  · have firsts : Prod.fst ∘ f = Prod.fst := funext fun c => (same c).1
    rw [← map_flatten, map_map, firsts]
    exact valid.linked.distinct
  · obtain ⟨nodes, chain⟩ := valid.grounded j (length ▸ inside)
    exact ⟨_, moved _ _ chain⟩
  · rw [← map_flatten, length_map]
    exact valid.count
  · obtain ⟨fresh, keyHash⟩ := clear fresh
    intro j c member alive
    rw [getD] at member
    obtain ⟨c, present, rfl⟩ := mem_map.mp member
    rw [keyHash, (same c).2.1, length_map]
    exact valid.placed fresh j c present ((same c).2.2 alive)
  · rw [DistinctKeys, ← map_flatten, live, filter_map, pairwise_map, keyEqual]
    simp only [(same _).2.1]
    refine valid.keys.sublist (monotone_filter_right _ fun c alive => ?_)
    simpa using (same c).2.2 (by simpa using alive)

theorem setDatum_valid (valid : Valid type table cells) (datum : δ) :
    Valid type (table.setDatum i datum) (cells.map (List.map (withDatum i datum))) := by
  refine mapped_valid valid (by simp) (fun c => by simp) (fun start nodes chain => ?_) rfl valid.flag fun clear => ⟨clear, rfl⟩
  exact chain.update fun entry : Entry κ δ => { entry with datum := datum }

theorem append_count {datum : δ} :
    ((table.consPair key datum).setNext hash q p).incrementTableCount.count = table.count + 1 :=
  congrArg (· + 1) setNext_count

theorem append_sizes {datum : δ} : SameSizes table ((table.consPair key datum).setNext hash q p).incrementTableCount :=
  (consPair_sizes.trans setNext_sizes).trans incrementTableCount_sizes

theorem append_valid (valid : Valid type table cells) (clear : table.needsRehash = false) (key : κ) (datum : δ)
    (absent : ∀ c ∈ cells.flatten, ¬Matches type key c) :
    let hash := type.keyHash key cells.length
    let entry : Entry κ δ := ⟨key, datum, false⟩
    Valid type (((table.consPair key datum).setNext hash (lastOf (cells.getD hash []) none)
      (some table.pairs.length)).incrementTableCount) (cells.set hash (cells.getD hash [] ++ [(table.pairs.length, entry)])) ∧
    (cells.set hash (cells.getD hash [] ++ [(table.pairs.length, entry)])).flatten.Perm
      ((table.pairs.length, entry) :: cells.flatten) := by
  intro hash entry
  have small : hash < cells.length := type.hash_lt _ _ valid.nonempty
  obtain ⟨before, after, flat, flat'⟩ := flatten_set small (cells.getD hash [] ++ [(table.pairs.length, entry)])
  have perm : (cells.set hash (cells.getD hash [] ++ [(table.pairs.length, entry)])).flatten.Perm
      ((table.pairs.length, entry) :: cells.flatten) := by
    rw [flat, flat', append_assoc (cells.getD hash []), singleton_append, ← append_assoc, ← append_assoc]
    exact perm_middle
  have inside {c : ℕ × Entry κ δ} (member : c ∈ cells.flatten) : c.1 < table.pairs.length := by
    obtain ⟨bucket, in_cells, in_bucket⟩ := mem_flatten.mp member
    obtain ⟨i, small, rfl⟩ := mem_iff_getElem.mp in_cells
    have chain := valid.linked.chains i
    rw [getD_eq_getElem?_getD, getElem?_eq_getElem small] at chain
    exact chain.inside in_bucket
  have linked : Linked (table.consPair key datum) cells :=
    ⟨fun i => (valid.linked.chains i).alloc _, valid.linked.width, valid.linked.distinct, valid.linked.inside⟩
  have chain : Chain some (table.consPair key datum).pairs (some table.pairs.length) [(table.pairs.length, entry)] none :=
    chain_single.mpr ⟨rfl, getElem?_concat_length⟩
  have grounded : Grounded some none (table.consPair key datum).pairs := by
    intro i small
    rcases Nat.lt_succ_iff_lt_or_eq.mp (by simpa [HashTable.consPair] using small : i < table.pairs.length + 1) with old | rfl
    · obtain ⟨nodes, chain⟩ := valid.grounded i old
      exact ⟨nodes, chain.alloc _⟩
    · exact ⟨_, chain⟩
  have distinct : ((cells.set hash (cells.getD hash [] ++ [(table.pairs.length, entry)])).flatten.map Prod.fst).Nodup := by
    rw [(perm.map Prod.fst).nodup_iff, map_cons, nodup_cons]
    refine ⟨fun member => ?_, valid.linked.distinct⟩
    obtain ⟨c, present, same⟩ := mem_map.mp member
    exact absurd (inside present) (by omega)
  have linked' := setNext_linked linked small (append_nil _).symm chain distinct
  refine ⟨⟨⟨linked'.chains, linked'.width, linked'.distinct, linked'.inside⟩, by simpa using valid.nonempty,
    by rw [append_sizes.primes]; exact valid.primes, ?_, ?_, fun set => ?_, fun _ => ?_, ?_⟩, perm⟩
  · refine setNext_grounded grounded linked' fun c member => ?_
    rw [flat']
    exact mem_append_right _ (mem_append_left _ (mem_append_left _ member))
  · rw [append_count, perm.length_eq, length_cons, ← valid.count]
  · rw [append_sizes.needsRehash.symm.trans set] at clear
    contradiction
  · intro i c member valid'
    rw [getD_set small] at member
    rw [length_set]
    split at member
    · next same =>
      rcases mem_append.mp member with member | member
      · exact same ▸ valid.placed clear _ c member valid'
      · rw [mem_singleton.mp member]
        exact same.symm
    · exact valid.placed clear i c member valid'
  · have live_perm := perm.filter fun c => !c.2.reclaimed
    refine (live_perm.pairwise_iff fun {c c'} different => ?_).mpr ?_
    · apply Bool.eq_false_iff.mpr
      intro equal
      rw [type.symm _ _ equal] at different
      contradiction
    · change (live ((table.pairs.length, entry) :: cells.flatten)).Pairwise _
      rw [live_cons_valid rfl, pairwise_cons]
      refine ⟨fun c member => ?_, valid.keys⟩
      obtain ⟨present, valid'⟩ := mem_filter.mp member
      apply Bool.eq_false_iff.mpr
      intro equal
      exact absent c present ⟨by simpa using valid', type.symm _ _ equal⟩

structure Inserted (type : TableType κ) (key : κ) (datum : δ) (table table' : HashTable κ δ)
    (cells cells' : List (List (ℕ × Entry κ δ))) : Prop where
  valid : Valid type table' cells'
  perm : ∃ c, Matches type key c ∧ c.2.datum = datum ∧ (live cells'.flatten).Perm (c :: others type key (live cells.flatten))
  strong : (∀ c ∈ cells.flatten, c.2.reclaimed = false) → ∀ c ∈ cells'.flatten, c.2.reclaimed = false
  clear : table'.needsRehash = false
  sized : (∀ c ∈ cells.flatten, c.2.reclaimed = false) → table.needsRehash = false → Sized table →
    Sized table' ∧ (table.initialSizeInEffect = true → (table'.count : ℤ) ≤ table.growSize →
      table'.growSize = table.growSize ∧ table'.initialSizeInEffect = true)

theorem live_of_strong (strong : ∀ c ∈ nodes, c.2.reclaimed = false) : live nodes = nodes :=
  filter_eq_self.mpr fun c member => by simp [strong c member]

theorem Kept.count_eq {cells' : List (List (ℕ × Entry κ δ))} (kept : Kept type table table' cells cells')
    (valid : Valid type table cells) (strong : ∀ c ∈ cells.flatten, c.2.reclaimed = false) : table'.count = table.count := by
  have same := kept.perm.length_eq
  rw [live_of_strong strong, live_of_strong fun c member => strong c (kept.subset member)] at same
  rw [kept.valid.count, valid.count, same]

theorem Valid.withoutInitialSize (valid : Valid type table cells) :
    Valid type { table with initialSizeInEffect := false } cells :=
  ⟨⟨valid.linked.chains, valid.linked.width, valid.linked.distinct, valid.linked.inside⟩, valid.nonempty, valid.primes,
    valid.grounded, valid.count, valid.flag, valid.placed, valid.keys⟩

theorem maybeGrowTable_spec (valid : Valid type table cells) :
    ∃ table' cells', maybeGrowTable type table = some table' ∧ Valid type table' cells' ∧
      (live cells'.flatten).Perm (live cells.flatten) ∧ cells'.flatten ⊆ cells.flatten ∧
      (table.needsRehash = false → table'.needsRehash = false) ∧
      ((table.count : ℤ) ≤ table.growSize → table' = table) ∧
      ((∀ c ∈ cells.flatten, c.2.reclaimed = false) → minimumSize ≤ table.growSize → table.growSize < table.count →
        Sized table' ∧ table'.count = table.count) := by
  unfold maybeGrowTable
  by_cases full : table.count > table.growSize
  · obtain ⟨table', cells', returns, kept, sized, clear, stays⟩ :=
      newSize_spec valid (growLoop table.rehashSize table.count table.growSize)
    rw [if_pos full, returns]
    refine ⟨_, cells', rfl, kept.valid.withoutInitialSize, kept.perm, kept.subset, fun _ => clear,
      fun fits => absurd fits (full.not_ge), fun strong least _ => ?_⟩
    obtain ⟨⟨shrink, width, least', fits⟩, settled⟩ := sized (least.trans growLoop_grows) growLoop_large
    have count := kept.count_eq valid strong
    refine ⟨⟨⟨shrink, width, least', fits⟩, .inr ?_⟩, count⟩
    cases initial : table.initialSizeInEffect with
    | false =>
      rw [kept.initialSizeInEffect, initial] at settled
      exact settled.resolve_left Bool.false_ne_true
    | true =>
      -- The cascade did not shrink the table, and the next larger size is not too large either.
      refine .inr ?_
      rw [shrink, stays initial, kept.rehashSize, count]
      exact computeShrinkSize_growLoop_le (le_trans (by decide) least) full
  · rw [if_neg full]
    exact ⟨table, cells, rfl, valid, .refl _, .refl _, id, fun _ => rfl, fun _ _ above => absurd above full⟩

theorem live_split (keys : DistinctKeys type nodes) (member : c ∈ nodes) (here : Matches type key c) :
    (live nodes).Perm (c :: others type key (live nodes)) := by
  obtain ⟨front, rest, rfl⟩ := append_of_mem member
  rw [others_of_split keys here, live_append, live_cons_valid here.1, live_append]
  exact perm_middle

theorem withDatum_perm (valid : Valid type table cells) (member : c ∈ cells.flatten) (here : Matches type key c) (datum : δ) :
    (live ((cells.map (List.map (withDatum c.1 datum))).flatten)).Perm
      (withDatum c.1 datum c :: others type key (live cells.flatten)) := by
  have split := live_split valid.keys member here
  have addresses : ((live cells.flatten).map Prod.fst).Nodup := valid.linked.distinct.sublist (filter_sublist.map Prod.fst)
  rw [(split.map Prod.fst).nodup_iff, map_cons, nodup_cons] at addresses
  have flat : (cells.map (map (withDatum c.1 datum))).flatten = cells.flatten.map (withDatum c.1 datum) :=
    map_flatten.symm
  rw [flat, live_withDatum]
  refine (split.map _).trans (.of_eq ?_)
  refine congrArg (_ :: ·) ((map_congr_left fun c' other => ?_).trans (map_id _))
  have different : c'.1 ≠ c.1 := fun same => addresses.1 (mem_map.mpr ⟨c', other, same⟩)
  rw [withDatum, if_neg different]
  rfl

theorem put_spec (valid : Valid type table cells) (key : κ) (datum : δ) :
    ∃ table' cells', put type table key datum = some table' ∧ Inserted type key datum table table' cells cells' := by
  obtain ⟨table₁, cells₁, hashed, kept, clear, fresh⟩ := computeHash_spec valid key
  have others_kept : (others type key (live cells₁.flatten)).Perm (others type key (live cells.flatten)) := kept.perm.filter _
  rw [put, hashed, Option.bind_eq_bind, Option.bind_some]
  dsimp only
  rcases search_spec kept.valid clear key with ⟨front, c, rest, split, here, returns⟩ | ⟨absent, returns⟩
  · have member : c ∈ cells₁.flatten := mem_flatten_of_getD (i := type.keyHash key cells₁.length) (by rw [split]; simp)
    refine ⟨table₁.setDatum c.1 datum, cells₁.map (map (withDatum c.1 datum)), ?_, setDatum_valid kept.valid datum,
      ⟨withDatum c.1 datum c, ?_, ?_, ?_⟩, fun strong c' present => ?_, clear, fun _ stale sized => ?_⟩
    · rw [returns]
      rfl
    · rw [Matches, withDatum_reclaimed, withDatum_key]
      exact here
    · rw [withDatum, if_pos rfl]
    · exact (withDatum_perm kept.valid member here datum).trans (others_kept.cons _)
    · rw [← map_flatten] at present
      obtain ⟨c', old, rfl⟩ := mem_map.mp present
      rw [withDatum_reclaimed]
      exact strong c' (kept.subset old)
    · obtain ⟨rfl, rfl⟩ := fresh stale
      exact ⟨⟨⟨sized.shrink, sized.width, sized.least, sized.fits⟩, sized.settled⟩, fun initial _ => ⟨rfl, initial⟩⟩
  · obtain ⟨appended, perm⟩ := append_valid kept.valid clear key datum absent
    obtain ⟨table', cells', grown, valid', perm', subset, clear', stays, sized⟩ := maybeGrowTable_spec appended
    have strong_appended (strong : ∀ c ∈ cells.flatten, c.2.reclaimed = false) :
        ∀ c ∈ (cells₁.set (type.keyHash key cells₁.length) (cells₁.getD (type.keyHash key cells₁.length) [] ++
          [(table₁.pairs.length, ⟨key, datum, false⟩)])).flatten, c.2.reclaimed = false := by
      intro c member
      rcases mem_cons.mp (perm.mem_iff.mp member) with rfl | old
      · rfl
      · exact strong c (kept.subset old)
    refine ⟨table', cells', ?_, valid', ⟨(table₁.pairs.length, ⟨key, datum, false⟩), ⟨rfl, type.refl key⟩, rfl, ?_⟩,
      fun strong c member => strong_appended strong c (subset member), clear' (append_sizes.needsRehash.trans clear),
      fun strong stale sized₀ => ?_⟩
    · rw [returns]
      exact grown
    · refine perm'.trans ((perm.filter _).trans ?_)
      refine .cons _ (.trans (.of_eq ?_) others_kept)
      exact (others_of_absent absent).symm
    · obtain ⟨rfl, rfl⟩ := fresh stale
      have width : ((table₁.consPair key datum).setNext (type.keyHash key cells₁.length)
          (lastOf (cells₁.getD (type.keyHash key cells₁.length) []) none)
          (some table₁.pairs.length)).incrementTableCount.vector.length = table₁.vector.length := by
        rw [← appended.linked.width, length_set]
        exact valid.linked.width
      have count' : (table₁.count : ℤ) + 1 = ((table₁.count + 1 : ℕ) : ℤ) := by rfl
      by_cases fits : (table₁.count + 1 : ℤ) ≤ table₁.growSize
      · have roomy := fits
        rw [count', ← append_count] at roomy
        have same := stays (roomy.trans append_sizes.growSize.ge)
        subst same
        refine ⟨⟨sized₀.toResizable.same append_sizes width roomy, ?_⟩, fun initial _ =>
          ⟨append_sizes.growSize, append_sizes.initialSizeInEffect.trans initial⟩⟩
        rw [append_sizes.initialSizeInEffect, append_sizes.growSize, append_sizes.shrinkSize, append_count]
        refine sized₀.settled.imp_right (.imp_right fun enough => ?_)
        omega
      · have full : ¬_ ≤ table₁.growSize := fits
        rw [count', ← append_count] at full
        obtain ⟨sized', same⟩ := sized (strong_appended strong) (sized₀.least.trans append_sizes.growSize.ge)
          (append_sizes.growSize.trans_lt (not_le.mp full))
        exact ⟨sized', fun _ small => absurd small (same ▸ full)⟩

end MitScheme.Runtime.HashTables
