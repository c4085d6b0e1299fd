import Mathlib.Data.List.Sort

/-!
Association lists whose keys strictly increase, as the values of ordered maps.
-/

namespace MitScheme.Library

open List

variable {K V : Type*} [LinearOrder K]

def Sorted (es : List (K × V)) : Prop := es.Pairwise (·.1 < ·.1)

instance (es : List (K × V)) : Decidable (Sorted es) := inferInstanceAs (Decidable (es.Pairwise _))

def lookup (k : K) (es : List (K × V)) : Option V := (es.find? (·.1 = k)).map Prod.snd

def below (k : K) (es : List (K × V)) : List (K × V) := es.filter (·.1 < k)

def above (k : K) (es : List (K × V)) : List (K × V) := es.filter (k < ·.1)

def insertEntry (k : K) (v : V) (es : List (K × V)) : List (K × V) := below k es ++ (k, v) :: above k es

def deleteEntry (k : K) (es : List (K × V)) : List (K × V) := below k es ++ above k es

section
variable {k b : K} {v : V} {es xs ys : List (K × V)}

theorem sorted_append : Sorted (xs ++ ys) ↔ Sorted xs ∧ Sorted ys ∧ ∀ p ∈ xs, ∀ q ∈ ys, p.1 < q.1 :=
  pairwise_append

variable {p : K × V} {w : V}

theorem sorted_cons : Sorted (p :: es) ↔ (∀ q ∈ es, p.1 < q.1) ∧ Sorted es := pairwise_cons

theorem sorted_node : Sorted (xs ++ (k, v) :: ys) ↔
    Sorted xs ∧ Sorted ys ∧ (∀ p ∈ xs, p.1 < k) ∧ ∀ q ∈ ys, k < q.1 := by
  rw [sorted_append, sorted_cons]
  constructor
  · rintro ⟨sorted_x, ⟨above, sorted_y⟩, between⟩
    exact ⟨sorted_x, sorted_y, fun p member => between p member _ mem_cons_self, above⟩
  · rintro ⟨sorted_x, sorted_y, below, above⟩
    refine ⟨sorted_x, ⟨above, sorted_y⟩, fun p member_p q member_q => ?_⟩
    rcases mem_cons.mp member_q with rfl | member_q
    · exact below p member_p
    · exact (below p member_p).trans (above q member_q)

theorem Sorted.ext (sorted_x : Sorted xs) (sorted_y : Sorted ys) (same : ∀ p, p ∈ xs ↔ p ∈ ys) : xs = ys := by
  have nodup : ∀ {zs : List (K × V)}, Sorted zs → zs.Nodup := by
    intro zs sorted
    refine .imp ?_ sorted
    rintro p q less rfl
    exact lt_irrefl _ less
  have perm : xs.Perm ys := (perm_ext_iff_of_nodup (nodup sorted_x) (nodup sorted_y)).mpr same
  refine Perm.eq_of_pairwise ?_ sorted_x sorted_y perm
  intro p q _ _ less more
  exact absurd more (lt_asymm less)

theorem Sorted.unique (sorted : Sorted es) {p q : K × V} (left : p ∈ es) (right : q ∈ es) (same : p.1 = q.1) :
    p = q := by
  by_contra different
  rcases pairwise_iff_getElem.mp sorted with pairs
  obtain ⟨i, inside_i, rfl⟩ := getElem_of_mem left
  obtain ⟨j, inside_j, rfl⟩ := getElem_of_mem right
  rcases lt_trichotomy i j with less | rfl | more
  · exact (pairs i j inside_i inside_j less).ne same
  · exact different rfl
  · exact (pairs j i inside_j inside_i more).ne same.symm

theorem lookup_eq_none : lookup k es = none ↔ ∀ p ∈ es, p.1 ≠ k := by
  simp [lookup]

theorem Sorted.lookup_eq_some (sorted : Sorted es) : lookup k es = some v ↔ (k, v) ∈ es := by
  rw [lookup, Option.map_eq_some_iff]
  constructor
  · rintro ⟨⟨k', v'⟩, found, rfl⟩
    have member := mem_of_find?_eq_some found
    have same := find?_some found
    rw [← of_decide_eq_true same]
    exact member
  · intro member
    cases found : es.find? (·.1 = k) with
    | none =>
      have absent := find?_eq_none.mp found _ member
      simp at absent
    | some p =>
      have same : p.1 = k := of_decide_eq_true (find?_some (p := fun q : K × V => decide (q.1 = k)) found)
      exact ⟨p, rfl, congrArg Prod.snd (sorted.unique (mem_of_find?_eq_some found) member same)⟩

theorem Sorted.lookup_congr {zs : List (K × V)} (sorted : Sorted es) (sorted_z : Sorted zs)
    (same : ∀ v, (k, v) ∈ es ↔ (k, v) ∈ zs) : lookup k es = lookup k zs := by
  refine Option.ext fun v => ?_
  rw [sorted.lookup_eq_some, sorted_z.lookup_eq_some, same]

theorem lookup_append : lookup k (xs ++ ys) = (lookup k xs).or (lookup k ys) := by
  rw [lookup, lookup, find?_append]
  cases xs.find? (·.1 = k) <;> rfl

theorem lookup_cons (p : K × V) : lookup k (p :: es) = if p.1 = k then some p.2 else lookup k es := by
  rw [lookup]
  by_cases same : p.1 = k
  · simp [same]
  · simp [same, lookup]

theorem mem_below : p ∈ below b es ↔ p ∈ es ∧ p.1 < b := by simp [below]

theorem mem_above : p ∈ above b es ↔ p ∈ es ∧ b < p.1 := by simp [above]

theorem Sorted.below (sorted : Sorted es) (b : K) : Sorted (below b es) := .filter _ sorted

theorem Sorted.above (sorted : Sorted es) (b : K) : Sorted (above b es) := .filter _ sorted

theorem below_append : below b (xs ++ ys) = below b xs ++ below b ys := filter_append ..

theorem above_append : above b (xs ++ ys) = above b xs ++ above b ys := filter_append ..

theorem below_cons : below b (p :: es) = if p.1 < b then p :: below b es else below b es := by
  simp [below, filter_cons]

theorem above_cons : above b (p :: es) = if b < p.1 then p :: above b es else above b es := by
  simp [above, filter_cons]

theorem below_eq_self (small : ∀ p ∈ es, p.1 < b) : below b es = es :=
  filter_eq_self.mpr fun p member => decide_eq_true (small p member)

theorem above_eq_self (large : ∀ p ∈ es, b < p.1) : above b es = es :=
  filter_eq_self.mpr fun p member => decide_eq_true (large p member)

theorem below_eq_nil (large : ∀ p ∈ es, b ≤ p.1) : below b es = [] :=
  filter_eq_nil_iff.mpr fun p member less => absurd (of_decide_eq_true less) ((large p member).not_gt)

theorem above_eq_nil (small : ∀ p ∈ es, p.1 ≤ b) : above b es = [] :=
  filter_eq_nil_iff.mpr fun p member less => absurd (of_decide_eq_true less) ((small p member).not_gt)

section
variable (small : ∀ p ∈ xs, p.1 < k)
include small

section
variable (large : ∀ q ∈ ys, k < q.1)
include large

theorem below_node (b : K) : below b (xs ++ (k, w) :: ys) =
    if b < k then below b xs else if k < b then xs ++ (k, w) :: below b ys else xs := by
  rw [below_append, below_cons]
  rcases lt_trichotomy b k with less | rfl | more
  · rw [if_neg less.asymm, if_pos less, below_eq_nil fun q member => (less.trans (large q member)).le, append_nil]
  · simp only [lt_irrefl, if_false]
    rw [below_eq_self small, below_eq_nil fun q member => (large q member).le, append_nil]
  · rw [if_pos more, if_neg more.asymm, if_pos more, below_eq_self fun p member => (small p member).trans more]

theorem above_node (b : K) : above b (xs ++ (k, w) :: ys) =
    if b < k then above b xs ++ (k, w) :: ys else if k < b then above b ys else ys := by
  rw [above_append, above_cons]
  rcases lt_trichotomy b k with less | rfl | more
  · rw [if_pos less, if_pos less, above_eq_self fun q member => less.trans (large q member)]
  · simp only [lt_irrefl, if_false]
    rw [above_eq_self large, above_eq_nil fun p member => (small p member).le, nil_append]
  · rw [if_neg more.asymm, if_neg more.asymm, if_pos more, above_eq_nil fun p member => ((small p member).trans more).le,
      nil_append]

theorem insertEntry_node (b : K) : insertEntry b v (xs ++ (k, w) :: ys) = if b < k then insertEntry b v xs ++ (k, w) :: ys
    else if k < b then xs ++ (k, w) :: insertEntry b v ys else xs ++ (b, v) :: ys := by
  rw [insertEntry, below_node small large, above_node small large]
  split_ifs <;> simp [insertEntry]

theorem deleteEntry_node (b : K) : deleteEntry b (xs ++ (k, w) :: ys) = if b < k then deleteEntry b xs ++ (k, w) :: ys
    else if k < b then xs ++ (k, w) :: deleteEntry b ys else xs ++ ys := by
  rw [deleteEntry, below_node small large, above_node small large]
  split_ifs <;> simp [deleteEntry]

theorem insertEntry_append : insertEntry k v (xs ++ ys) = xs ++ (k, v) :: ys := by
  rw [insertEntry, below_append, above_append, below_eq_self small, below_eq_nil fun q member => (large q member).le,
    above_eq_nil fun p member => (small p member).le, above_eq_self large, append_nil, nil_append]

theorem insertEntry_present : insertEntry k v (xs ++ (k, w) :: ys) = xs ++ (k, v) :: ys := by
  simp [insertEntry_node small large]

theorem deleteEntry_append : deleteEntry k (xs ++ ys) = xs ++ ys := by
  rw [deleteEntry, below_append, above_append, below_eq_self small, below_eq_nil fun q member => (large q member).le,
    above_eq_nil fun p member => (small p member).le, above_eq_self large, append_nil, nil_append]

theorem deleteEntry_present : deleteEntry k (xs ++ (k, w) :: ys) = xs ++ ys := by
  simp [deleteEntry_node small large]

end

theorem lookup_present : lookup k (xs ++ (k, w) :: ys) = some w := by
  rw [lookup_append, lookup_eq_none.mpr fun p member => (small p member).ne, lookup_cons, if_pos rfl]
  rfl

theorem lookup_absent (large : ∀ q ∈ ys, k < q.1) : lookup k (xs ++ ys) = none := by
  rw [lookup_append, lookup_eq_none.mpr fun p member => (small p member).ne,
    lookup_eq_none.mpr fun q member => (large q member).ne']
  rfl

end

theorem Sorted.insertEntry (sorted : Sorted es) (k : K) (v : V) : Sorted (insertEntry k v es) :=
  sorted_node.mpr ⟨sorted.below k, sorted.above k, fun _ member => (mem_below.mp member).2,
    fun _ member => (mem_above.mp member).2⟩

theorem Sorted.deleteEntry (sorted : Sorted es) (k : K) : Sorted (deleteEntry k es) :=
  sorted_append.mpr ⟨sorted.below k, sorted.above k, fun _ member_p _ member_q =>
    (mem_below.mp member_p).2.trans (mem_above.mp member_q).2⟩

theorem mem_deleteEntry : p ∈ deleteEntry k es ↔ p ∈ es ∧ p.1 ≠ k := by
  rw [deleteEntry, mem_append, mem_below, mem_above, ← and_or_left, lt_or_lt_iff_ne]

theorem mem_insertEntry : p ∈ insertEntry k v es ↔ p = (k, v) ∨ p ∈ es ∧ p.1 ≠ k := by
  rw [← mem_deleteEntry, insertEntry, deleteEntry, mem_append, mem_cons, mem_append]
  tauto

theorem lookup_insertEntry (sorted : Sorted es) (k' : K) :
    lookup k' (insertEntry k v es) = if k' = k then some v else lookup k' es := by
  by_cases same : k' = k
  · subst same
    rw [if_pos rfl, (sorted.insertEntry _ v).lookup_eq_some]
    exact mem_insertEntry.mpr (.inl rfl)
  · rw [if_neg same]
    refine (sorted.insertEntry k v).lookup_congr sorted fun v' => ?_
    rw [mem_insertEntry]
    simp [same]

theorem lookup_deleteEntry (sorted : Sorted es) (k' : K) :
    lookup k' (deleteEntry k es) = if k' = k then none else lookup k' es := by
  by_cases same : k' = k
  · subst same
    rw [if_pos rfl, lookup_eq_none]
    exact fun p member => (mem_deleteEntry.mp member).2
  · rw [if_neg same]
    refine (sorted.deleteEntry k).lookup_congr sorted fun v' => ?_
    rw [mem_deleteEntry]
    simp [same]

theorem lookup_below (sorted : Sorted es) (k' : K) :
    lookup k' (below b es) = if k' < b then lookup k' es else none := by
  by_cases less : k' < b
  · rw [if_pos less]
    refine (sorted.below b).lookup_congr sorted fun v' => ?_
    rw [mem_below]
    simp [less]
  · rw [if_neg less, lookup_eq_none]
    rintro p member rfl
    exact less (mem_below.mp member).2

theorem lookup_above (sorted : Sorted es) (k' : K) :
    lookup k' (above b es) = if b < k' then lookup k' es else none := by
  by_cases less : b < k'
  · rw [if_pos less]
    refine (sorted.above b).lookup_congr sorted fun v' => ?_
    rw [mem_above]
    simp [less]
  · rw [if_neg less, lookup_eq_none]
    rintro p member rfl
    exact less (mem_above.mp member).2

/-! ### Combination

A combination of two maps that is decided key by key, computed from its parts below and above a key
of the second map. -/

section
variable {f : K → Option V → Option V → Option V} {es left right ls rs : List (K × V)} {a : K} {av : V}

theorem lookup_eq_none_of_lt (large : ∀ p ∈ es, a < p.1) {k : K} (le : k ≤ a) : lookup k es = none := by
  rw [lookup_eq_none]
  rintro p member rfl
  exact lt_irrefl _ (le.trans_lt (large p member))

theorem lookup_eq_none_of_gt (small : ∀ p ∈ es, p.1 < a) {k : K} (le : a ≤ k) : lookup k es = none := by
  rw [lookup_eq_none]
  rintro p member rfl
  exact lt_irrefl _ ((small p member).trans_le le)

theorem lookup_isSome (sorted : Sorted es) {p : K × V} (member : p ∈ es) : lookup p.1 es = some p.2 :=
  sorted.lookup_eq_some.mpr member

theorem combined_below (nothing : ∀ k, f k none none = none) (sorted : Sorted left) (small : ∀ p ∈ ls, p.1 < a)
    (sorted_e : Sorted es) (combined : ∀ k, lookup k left = f k (lookup k (below a es)) (lookup k ls)) {p : K × V}
    (member : p ∈ left) : p.1 < a := by
  by_contra above
  have found := lookup_isSome sorted member
  rw [combined, lookup_below sorted_e, if_neg above, lookup_eq_none_of_gt small (not_lt.mp above), nothing] at found
  cases found

theorem combined_above (nothing : ∀ k, f k none none = none) (sorted : Sorted right) (large : ∀ p ∈ rs, a < p.1)
    (sorted_e : Sorted es) (combined : ∀ k, lookup k right = f k (lookup k (above a es)) (lookup k rs)) {p : K × V}
    (member : p ∈ right) : a < p.1 := by
  by_contra below
  have found := lookup_isSome sorted member
  rw [combined, lookup_above sorted_e, if_neg below, lookup_eq_none_of_lt large (not_lt.mp below), nothing] at found
  cases found

theorem lookup_combined {mid : List (K × V)} (sorted_e : Sorted es) (sorted : Sorted (ls ++ (a, av) :: rs))
    (small : ∀ p ∈ left, p.1 < a) (large : ∀ p ∈ right, a < p.1) (middle : ∀ p ∈ mid, p.1 = a)
    (combined_l : ∀ k, lookup k left = f k (lookup k (below a es)) (lookup k ls))
    (combined_r : ∀ k, lookup k right = f k (lookup k (above a es)) (lookup k rs))
    (here : lookup a mid = f a (lookup a es) (some av)) (k : K) :
    lookup k (left ++ (mid ++ right)) = f k (lookup k es) (lookup k (ls ++ (a, av) :: rs)) := by
  obtain ⟨sorted_l, sorted_r, small', large'⟩ := sorted_node.mp sorted
  have outside : k ≠ a → lookup k mid = none := by
    intro different
    rw [lookup_eq_none]
    rintro p member rfl
    exact different (middle p member)
  rw [lookup_append, lookup_append, lookup_append, lookup_cons]
  rcases lt_trichotomy k a with less | rfl | more
  · rw [outside less.ne, lookup_eq_none_of_lt large less.le, lookup_eq_none_of_lt large' less.le,
      if_neg less.ne', combined_l, lookup_below sorted_e, if_pos less]
    simp
  · rw [lookup_eq_none_of_gt small (le_refl k), lookup_eq_none_of_lt large (le_refl k),
      lookup_eq_none_of_gt small' (le_refl k), here]
    simp
  · rw [outside more.ne', lookup_eq_none_of_gt small more.le, lookup_eq_none_of_gt small' more.le,
      if_neg more.ne, combined_r, lookup_above sorted_e, if_pos more]
    simp

end

section
variable {es : List (K × V)}

open Classical in
noncomputable def eraseLeast (m : K → Option V) (k : K) : Option V :=
  if ∀ k', (m k').isSome → k ≤ k' then none else m k

open Classical in
noncomputable def eraseGreatest (m : K → Option V) (k : K) : Option V :=
  if ∀ k', (m k').isSome → k' ≤ k then none else m k

theorem lookup_tail (sorted : Sorted es) (k : K) : lookup k es.tail = eraseLeast (fun k => lookup k es) k := by
  unfold eraseLeast
  cases es with
  | nil => exact (ite_self none).symm
  | cons p es =>
    have large := (sorted_cons.mp sorted).1
    rw [tail_cons]
    dsimp only
    split_ifs with least
    · have le : k ≤ p.1 := least p.1 (by rw [lookup_cons, if_pos rfl]; rfl)
      exact lookup_eq_none_of_lt large le
    · rw [lookup_cons, if_neg]
      rintro rfl
      refine least fun k' present => ?_
      obtain ⟨v, found⟩ := Option.isSome_iff_exists.mp present
      rcases mem_cons.mp (sorted.lookup_eq_some.mp found) with same | member
      · exact (congrArg Prod.fst same).ge
      · exact (large _ member).le

theorem lookup_dropLast (sorted : Sorted es) (k : K) :
    lookup k es.dropLast = eraseGreatest (fun k => lookup k es) k := by
  unfold eraseGreatest
  rcases es.eq_nil_or_concat with rfl | ⟨es, p, rfl⟩
  · exact (ite_self none).symm
  · rw [concat_eq_append] at *
    obtain ⟨-, -, between⟩ := sorted_append.mp sorted
    have small : ∀ q ∈ es, q.1 < p.1 := fun q member => between q member p (mem_singleton_self p)
    have last : lookup p.1 (es ++ [p]) = some p.2 :=
      lookup_isSome sorted (mem_append_right _ (mem_singleton_self p))
    rw [dropLast_concat]
    dsimp only
    split_ifs with greatest
    · have ge : p.1 ≤ k := greatest p.1 (by rw [last]; rfl)
      exact lookup_eq_none_of_gt small ge
    · rw [lookup_append]
      have other : p.1 ≠ k := by
        rintro rfl
        refine greatest fun k' present => ?_
        obtain ⟨v, found⟩ := Option.isSome_iff_exists.mp present
        rcases mem_append.mp (sorted.lookup_eq_some.mp found) with member | member
        · exact (small _ member).le
        · exact (congrArg Prod.fst (mem_singleton.mp member)).le
      rw [lookup_cons, if_neg other]
      exact (Option.or_none).symm

end

end

end MitScheme.Library
