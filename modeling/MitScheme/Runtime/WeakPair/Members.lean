import MitScheme.Library.Unlinking
import Mathlib.Data.Multiset.Filter

/-!
The sets of `weak-pair.scm`, whose items are in a list of weak pairs. A set that was made without items
answers as the set of the items that were not reclaimed.
-/

namespace MitScheme.Runtime.WeakPairs

section
open Library.Unlinking List

variable {κ β σ : Type}

/-- A weak list, where reclaimed items are nothing, or a list of ordinary pairs, which no procedure on weak lists takes.
-/
inductive Items (κ : Type) where
  | weak (cells : List (Option κ))
  | ordinary (first : κ) (rest : List κ)
deriving DecidableEq, Repr

structure WeakListSet (κ : Type) where
  predicate : κ → κ → Bool
  items : Items κ

def deleteDuplicatesLoop (eq : κ → κ → Bool) : (lis res : List κ) → List κ
  | [], res => res.reverse
  | x :: tail, res => deleteDuplicatesLoop eq tail (if res.any (eq x) then res else x :: res)

def deleteDuplicates (items : List κ) (eq : κ → κ → Bool) : List κ := deleteDuplicatesLoop eq items []

def weakListSet (eq : κ → κ → Bool) (items : List κ) : WeakListSet κ :=
  ⟨eq, match deleteDuplicates items eq with | [] => .weak [] | first :: rest => .ordinary first rest⟩

inductive SetAnswer (κ β : Type) where
  | boolean (value : Bool)
  | number (value : ℕ)
  | list (value : List κ)
  | folded (value : β)
  | unspecific
  | notWeakList

def atItem (visit : κ → σ → Visit (Option κ) σ) (cell : Option κ) (acc : σ) : Visit (Option κ) σ :=
  match cell with
  | some item => visit item acc
  | none => .go none acc

def listLoop (set : WeakListSet κ) (visit : κ → σ → Visit (Option κ) σ) (acc : σ) (answer : σ → SetAnswer κ β) :
    WeakListSet κ × SetAnswer κ β :=
  match set.items with
  | .weak cells =>
    let swept := sweep Option.isNone (atItem visit) [] cells acc []
    ({ set with items := .weak swept.cells }, answer swept.acc)
  | .ordinary _ _ => (set, .notWeakList)

variable [DecidableEq κ]

def sameItem (set : WeakListSet κ) (item item' : κ) : Bool := decide (item = item') || set.predicate item item'

/-- `%member`, which halts at the first item that meets the predicate. -/
def member (set : WeakListSet κ) (predicate : κ → Bool) (answer : Bool → SetAnswer κ β) : WeakListSet κ × SetAnswer κ β :=
  listLoop set (fun item found => if predicate item then .halt (some item) true else .go (some item) found) false answer

def weakListSetSize (set : WeakListSet κ) : WeakListSet κ × SetAnswer κ β :=
  listLoop set (fun item length => .go (some item) (length + 1)) 0 .number

def weakListSetFold (kons : κ → β → β) (knil : β) (set : WeakListSet κ) : WeakListSet κ × SetAnswer κ β :=
  listLoop set (fun item acc => .go (some item) (kons item acc)) knil .folded

def weakListSetAny (predicate : κ → Bool) (set : WeakListSet κ) : WeakListSet κ × SetAnswer κ β :=
  member set predicate .boolean

def weakListSetToList (set : WeakListSet κ) : WeakListSet κ × SetAnswer κ β :=
  listLoop set (fun item acc => .go (some item) (acc ++ [item])) [] .list

def weakListSetContains (item : κ) (set : WeakListSet κ) : WeakListSet κ × SetAnswer κ β :=
  member set (sameItem set item) .boolean

def Items.cons (item : κ) : Items κ → Items κ
  | .weak cells => .weak (some item :: cells)
  | items => items

def weakListSetAdd (item : κ) (set : WeakListSet κ) : WeakListSet κ × SetAnswer κ β :=
  match (member set (sameItem set item) .boolean : WeakListSet κ × SetAnswer κ β) with
  | (set, .boolean false) => ({ set with items := set.items.cons item }, .boolean true)
  | (set, .boolean true) => (set, .boolean false)
  | r => r

/-- `weak-list-set-delete!` ends at the first object that is no weak pair. -/
def weakListSetDelete (item : κ) (set : WeakListSet κ) : WeakListSet κ × SetAnswer κ β :=
  match set.items with
  | .weak _ => listLoop set (fun item' found =>
      if sameItem set item item' then .unlinkHalt true else .go (some item') found) false .boolean
  | .ordinary _ _ => (set, .boolean false)

def scan (predicate : κ → Bool) : List (Option κ) → List (Option κ)
  | [] => []
  | some item :: next => if predicate item then scan predicate next else some item :: scan predicate next
  | none :: next => scan predicate next

def skip (predicate : κ → Bool) : List (Option κ) → List (Option κ)
  | [] => []
  | some item :: next => if predicate item then skip predicate next else some item :: scan predicate next
  | none :: next => skip predicate next

/-- `weak-list-set-delete-matching!`, by `%delete!`. -/
def weakListSetDeleteMatching (set : WeakListSet κ) (predicate : κ → Bool) : WeakListSet κ × SetAnswer κ β :=
  match set.items with
  | .weak cells => ({ set with items := .weak (skip predicate cells) }, .unspecific)
  | .ordinary _ _ => (set, .notWeakList)

inductive SetOperation (κ β : Type) where
  | add (item : κ)
  | delete (item : κ)
  | deleteMatching (predicate : κ → Bool)
  | contains (item : κ)
  | size
  | fold (kons : κ → β → β) (knil : β)
  | any (predicate : κ → Bool)
  | toList

def performOnSet (set : WeakListSet κ) : SetOperation κ β → WeakListSet κ × SetAnswer κ β
  | .add item => weakListSetAdd item set
  | .delete item => weakListSetDelete item set
  | .deleteMatching predicate => weakListSetDeleteMatching set predicate
  | .contains item => weakListSetContains item set
  | .size => weakListSetSize set
  | .fold kons knil => weakListSetFold kons knil set
  | .any predicate => weakListSetAny predicate set
  | .toList => weakListSetToList set

/-- A collection takes the dead items; an ordinary pair keeps its item alive. -/
def collectItems (dead : κ → Bool) (set : WeakListSet κ) : WeakListSet κ :=
  match set.items with
  | .weak cells => { set with items := .weak (cells.map fun cell => if cell.any dead then none else cell) }
  | .ordinary _ _ => set

end

open Library.Unlinking

variable {κ β σ : Type}

/-- What an operation does to a finite set and answers. -/
inductive SetPerforms (eq : κ → κ → Bool) (m : Multiset κ) : SetOperation κ β → SetAnswer κ β → Multiset κ → Prop where
  | addNew {item} (lacks : ∀ x ∈ m, eq item x = false) : SetPerforms eq m (.add item) (.boolean true) (item ::ₘ m)
  | addOld {item x} (member : x ∈ m) (same : eq item x = true) : SetPerforms eq m (.add item) (.boolean false) m
  | deleteOld {item x rest} (found : m = x ::ₘ rest) (same : eq item x = true) :
      SetPerforms eq m (.delete item) (.boolean true) rest
  | deleteNew {item} (lacks : ∀ x ∈ m, eq item x = false) : SetPerforms eq m (.delete item) (.boolean false) m
  | deleteMatching {predicate} :
      SetPerforms eq m (.deleteMatching predicate) .unspecific (m.filter fun x => predicate x = false)
  | contains {item found} (right : found = true ↔ ∃ x ∈ m, eq item x = true) :
      SetPerforms eq m (.contains item) (.boolean found) m
  | size : SetPerforms eq m .size (.number m.card) m
  | fold {kons knil} (order : List κ) (all : m = order) :
      SetPerforms eq m (.fold kons knil) (.folded (order.foldl (fun acc x => kons x acc) knil)) m
  | any {predicate found} (right : found = true ↔ ∃ x ∈ m, predicate x = true) :
      SetPerforms eq m (.any predicate) (.boolean found) m
  | toList (order : List κ) (all : m = order) : SetPerforms eq m .toList (.list order) m

variable {set set' : WeakListSet κ} {xs xs' front back : List κ} {item x : κ} {visit : κ → σ → Visit (Option κ) σ}
  {acc acc' : σ} {halted : Bool}

def Lists (set : WeakListSet κ) (xs : List κ) : Prop := ∃ cells, set.items = .weak cells ∧ cells.filterMap id = xs

theorem live_cells {cells : List (Option κ)} : live Option.isNone cells = (cells.filterMap id).map some := by
  induction cells with
  | nil => rfl
  | cons cell cells ih =>
    cases cell with
    | none => rw [live_cons_dead rfl, ih]; rfl
    | some item => rw [live_cons rfl, ih]; rfl

theorem filterMap_some : (xs.map some).filterMap id = xs := by
  rw [List.filterMap_map]
  exact List.filterMap_some

theorem listLoop_spec {answer : σ → SetAnswer κ β} (lists : Lists set xs)
    (alive : ∀ item acc, (visit item acc).Live Option.isNone)
    (walked : walk (atItem visit) (xs.map some) acc = (xs'.map some, acc', halted)) :
    ∃ set', listLoop set visit acc answer = (set', answer acc') ∧ Lists set' xs' ∧ set'.predicate = set.predicate := by
  obtain ⟨cells, weak, rfl⟩ := lists
  have alive' : ∀ (cell : Option κ) (acc : σ), cell.isNone = false → (atItem visit cell acc).Live Option.isNone := by
    intro cell acc isLive
    cases cell with
    | none => cases isLive
    | some item => exact alive item acc
  obtain ⟨kept, ended⟩ := @sweep_live _ _ Option.isNone (atItem visit) [] cells [] acc alive'
  rw [@live_cells κ cells, walked] at kept ended
  refine ⟨{ set with items := .weak (sweep Option.isNone (atItem visit) [] cells acc []).cells }, ?_, ⟨_, rfl, ?_⟩, rfl⟩
  · unfold listLoop
    rw [weak]
    have finished := congrArg Prod.fst ended
    dsimp only at finished ⊢
    rw [finished]
  · have left := congrArg (List.filterMap id) (live_cells.symm.trans kept)
    rw [filterMap_some] at left
    exact left.trans filterMap_some

theorem atItem_some : atItem visit (some item) acc = visit item acc := rfl

theorem walk_items {kons : κ → σ → σ} : walk (atItem fun item acc => .go (some item) (kons item acc)) (xs.map some) acc =
    (xs.map some, xs.foldl (fun acc x => kons x acc) acc, false) := by
  induction xs generalizing acc with
  | nil => rfl
  | cons x xs ih =>
    rw [List.map_cons, walk_go atItem_some, ih]
    rfl

theorem listLoop_all {answer : σ → SetAnswer κ β} (lists : Lists set xs) (kons : κ → σ → σ) (acc : σ) :
    ∃ set', listLoop set (fun item acc => .go (some item) (kons item acc)) acc answer =
      (set', answer (xs.foldl (fun acc x => kons x acc) acc)) ∧ Lists set' xs ∧ set'.predicate = set.predicate := by
  apply listLoop_spec lists
  · intro item acc
    rfl
  · exact walk_items

theorem foldl_snoc (acc : List κ) : xs.foldl (fun acc x => acc ++ [x]) acc = acc ++ xs := by
  induction xs generalizing acc with
  | nil => exact (List.append_nil _).symm
  | cons x xs ih => rw [List.foldl_cons, ih, List.append_assoc]; rfl

theorem walk_items_past {predicate : κ → Bool} {decided : κ → Visit (Option κ) σ} (none : ∀ x ∈ front, predicate x = false)
    (rest : List (Option κ)) :
    walk (atItem fun item acc => if predicate item then decided item else .go (some item) acc) (front.map some ++ rest) acc =
      (front.map some ++ (walk (atItem fun item acc => if predicate item then decided item else .go (some item) acc) rest acc).1,
        (walk (atItem fun item acc => if predicate item then decided item else .go (some item) acc) rest acc).2) := by
  induction front with
  | nil => rfl
  | cons x front ih =>
    have here : ¬predicate x = true := by simp [none x (List.mem_cons_self ..)]
    rw [List.map_cons, List.cons_append, walk_go (atItem_some.trans (if_neg here)),
      ih fun x member => none x (List.mem_cons_of_mem _ member)]
    rfl

theorem none_or_first (predicate : κ → Bool) (xs : List κ) : (∀ x ∈ xs, predicate x = false) ∨
    ∃ front x back, xs = front ++ x :: back ∧ (∀ x ∈ front, predicate x = false) ∧ predicate x = true := by
  cases search : xs.find? predicate with
  | none =>
    left
    intro x member
    simpa using List.find?_eq_none.mp search x member
  | some x =>
    right
    obtain ⟨met, front, back, split, past⟩ := List.find?_eq_some_iff_append.mp search
    exact ⟨front, x, back, split, fun x member => by simpa using past x member, met⟩

theorem member_spec (lists : Lists set xs) (predicate : κ → Bool) (answer : Bool → SetAnswer κ β) :
    ∃ set' found, member set predicate answer = (set', answer found) ∧ Lists set' xs ∧ set'.predicate = set.predicate ∧
      (found = true ↔ ∃ x ∈ xs, predicate x = true) := by
  have alive : ∀ (item : κ) (acc : Bool),
      (if predicate item then Visit.halt (some item) true else .go (some item) acc).Live Option.isNone := by
    intro item acc
    split <;> rfl
  rcases none_or_first predicate xs with none | ⟨front, x, back, rfl, past, met⟩
  · have walked := @walk_items_past κ Bool xs false predicate (fun item => .halt (some item) true) none []
    rw [walk, List.append_nil] at walked
    obtain ⟨set', looped, lists', same⟩ := @listLoop_spec κ β Bool set _ _ _ _ _ _ answer lists alive walked
    refine ⟨set', false, looped, lists', same, by simp, ?_⟩
    rintro ⟨x, present, met⟩
    exact absurd met (by simp [none x present])
  · have walked := @walk_items_past κ Bool front false predicate (fun item => .halt (some item) true) past ((x :: back).map some)
    rw [List.map_cons, walk_halt (atItem_some.trans (if_pos met)), ← List.map_cons, ← List.map_append] at walked
    obtain ⟨set', looped, lists', same⟩ := @listLoop_spec κ β Bool set _ _ _ _ _ _ answer lists alive walked
    exact ⟨set', true, looped, lists', same, fun _ => ⟨x, by simp, met⟩, fun _ => rfl⟩

theorem scan_spec (predicate : κ → Bool) (cells : List (Option κ)) :
    (scan predicate cells).filterMap id = (cells.filterMap id).filter fun x => predicate x = false := by
  induction cells with
  | nil => rfl
  | cons cell cells ih =>
    cases cell with
    | none => exact ih
    | some item =>
      cases met : predicate item with
      | true =>
        rw [scan, if_pos met, ih]
        exact (List.filter_cons_of_neg (by simp [met])).symm
      | false =>
        rw [scan, if_neg (by simp [met])]
        exact (congrArg (item :: ·) ih).trans (List.filter_cons_of_pos (by simp [met])).symm

theorem skip_eq (predicate : κ → Bool) (cells : List (Option κ)) : skip predicate cells = scan predicate cells := by
  induction cells with
  | nil => rfl
  | cons cell cells ih =>
    cases cell with
    | none => exact ih
    | some item => rw [skip, scan, ih]

def UniqueItems (eq : κ → κ → Bool) (xs : List κ) : Prop := xs.Pairwise fun a b => eq a b = false

theorem UniqueItems.cons {eq : κ → κ → Bool} (unique : UniqueItems eq xs) (lacks : ∀ x ∈ xs, eq item x = false) :
    UniqueItems eq (item :: xs) :=
  List.pairwise_cons.mpr ⟨lacks, unique⟩

variable [DecidableEq κ]

theorem sameItem_eq (refl : ∀ x, set.predicate x x = true) : sameItem set item x = set.predicate item x := by
  unfold sameItem
  by_cases same : item = x
  · subst same
    simp [refl]
  · simp [same]

/-- What an operation does to a set with a weak list that keeps the items unique. -/
def RefinesSet (set : WeakListSet κ) (xs : List κ) (operation : SetOperation κ β) : Prop :=
  ∃ set' xs' answer, performOnSet set operation = (set', answer) ∧ Lists set' xs' ∧ set'.predicate = set.predicate ∧
    SetPerforms set.predicate xs operation answer xs' ∧
    (UniqueItems set.predicate xs → UniqueItems set.predicate xs')

section
variable (refl : ∀ x, set.predicate x x = true)
include refl

theorem weakListSetAdd_spec (lists : Lists set xs) (item : κ) : RefinesSet set xs (.add item : SetOperation κ β) := by
  obtain ⟨set', found, searched, lists', same, right⟩ := @member_spec κ β set xs lists (sameItem set item) .boolean
  simp only [sameItem_eq refl] at right
  cases found with
  | true =>
    obtain ⟨x, present, equal⟩ := right.mp rfl
    refine ⟨set', xs, .boolean false, ?_, lists', same, .addOld (Multiset.mem_coe.mpr present) equal, fun unique => unique⟩
    rw [performOnSet, weakListSetAdd, searched]
  | false =>
    obtain ⟨cells, weak, rfl⟩ := lists'
    have lacks : ∀ x ∈ cells.filterMap id, set.predicate item x = false := by
      intro x present
      cases equal : set.predicate item x with
      | false => rfl
      | true => exact absurd (right.mpr ⟨x, present, equal⟩) Bool.false_ne_true
    refine ⟨{ set' with items := set'.items.cons item }, item :: cells.filterMap id, .boolean true, ?_, ⟨some item :: cells, ?_, rfl⟩,
      same, .addNew lacks, fun unique => unique.cons lacks⟩
    · rw [performOnSet, weakListSetAdd, searched]
    · rw [weak]
      rfl

theorem weakListSetDelete_spec (lists : Lists set xs) (item : κ) :
    RefinesSet set xs (.delete item : SetOperation κ β) := by
  have weak : performOnSet set (.delete item : SetOperation κ β) = listLoop set (fun item' found =>
      if sameItem set item item' then .unlinkHalt true else .go (some item') found) false .boolean := by
    obtain ⟨cells, weak, -⟩ := lists
    rw [performOnSet, weakListSetDelete, weak]
  have alive : ∀ (item' : κ) (acc : Bool),
      (if sameItem set item item' then Visit.unlinkHalt true else .go (some item') acc).Live Option.isNone := by
    intro item' acc
    split <;> trivial
  rcases none_or_first (sameItem set item) xs with none | ⟨front, x, back, rfl, past, met⟩
  · have walked := @walk_items_past κ Bool xs false (sameItem set item) (fun _ => .unlinkHalt true) none []
    rw [walk, List.append_nil] at walked
    obtain ⟨set', looped, lists', same⟩ := @listLoop_spec κ β Bool set _ _ _ _ _ _ .boolean lists alive walked
    simp only [sameItem_eq refl] at none
    exact ⟨set', xs, _, weak.trans looped, lists', same, .deleteNew none, fun unique => unique⟩
  · have walked := @walk_items_past κ Bool front false (sameItem set item) (fun _ => .unlinkHalt true) past ((x :: back).map some)
    rw [List.map_cons, walk_unlinkHalt (atItem_some.trans (if_pos met)), ← List.map_cons, ← List.map_append,
      ← List.map_append] at walked
    obtain ⟨set', looped, lists', same⟩ := @listLoop_spec κ β Bool set _ _ _ _ _ _ .boolean lists alive walked
    rw [sameItem_eq refl] at met
    refine ⟨set', front ++ back, _, weak.trans looped, lists', same, ?_, ?_⟩
    · exact .deleteOld (Multiset.coe_eq_coe.mpr List.perm_middle) met
    · intro unique
      exact List.Pairwise.sublist ((List.sublist_cons_self _ _).append_left front) unique

theorem performOnSet_refines (lists : Lists set xs) (operation : SetOperation κ β) : RefinesSet set xs operation := by
  cases operation with
  | add item => exact weakListSetAdd_spec refl lists item
  | delete item => exact weakListSetDelete_spec refl lists item
  | deleteMatching predicate =>
    obtain ⟨cells, weak, rfl⟩ := lists
    refine ⟨{ set with items := .weak (skip predicate cells) }, _, .unspecific, ?_,
      ⟨_, rfl, (congrArg _ (skip_eq predicate cells)).trans (scan_spec predicate cells)⟩, rfl, ?_,
      List.Pairwise.filter _⟩
    · rw [performOnSet, weakListSetDeleteMatching, weak]
    · exact .deleteMatching
  | contains item =>
    obtain ⟨set', found, searched, lists', same, right⟩ := @member_spec κ β set xs lists (sameItem set item) .boolean
    simp only [sameItem_eq refl] at right
    exact ⟨set', xs, _, searched, lists', same, .contains right, fun unique => unique⟩
  | size =>
    obtain ⟨set', looped, lists', same⟩ := @listLoop_all κ β ℕ set xs .number lists (fun _ length => length + 1) 0
    refine ⟨set', xs, .number (Multiset.card (xs : Multiset κ)), looped.trans ?_, lists', same, .size, fun unique => unique⟩
    simp
  | fold kons knil =>
    obtain ⟨set', looped, lists', same⟩ := @listLoop_all κ β β set xs .folded lists kons knil
    exact ⟨set', xs, _, looped, lists', same, .fold xs rfl, fun unique => unique⟩
  | any predicate =>
    obtain ⟨set', found, searched, lists', same, right⟩ := @member_spec κ β set xs lists predicate .boolean
    exact ⟨set', xs, _, searched, lists', same, .any right, fun unique => unique⟩
  | toList =>
    obtain ⟨set', looped, lists', same⟩ := @listLoop_all κ β (List κ) set xs .list lists (fun item acc => acc ++ [item]) []
    refine ⟨set', xs, .list xs, looped.trans ?_, lists', same, .toList xs rfl, fun unique => unique⟩
    rw [foldl_snoc, List.nil_append]

end

end MitScheme.Runtime.WeakPairs
