import Mathlib.Data.List.Basic

/-!
Tries, whose edges are in association lists. A subtrie is in one list only, so that setting it is replacing it there.
-/

namespace MitScheme.Runtime.Tries

mutual

/-- A trie whose value is `none` has the-unset-value. -/
inductive Trie (α β : Type) where
  | make (value : Option β) (edges : Edges α β)

inductive Edges (α β : Type) where
  | nil
  | cons (key : α) (trie : Trie α β) (edges : Edges α β)

end

variable {α β σ : Type}

def emptyTrie : Trie α β := .make none .nil

section
variable (same : α → α → Bool)

/-- The subtrie that `%get-child` finds. -/
def Edges.assoc (key : α) : Edges α β → Option (Trie α β)
  | .nil => none
  | .cons key' trie edges => if same key key' then some trie else edges.assoc key

/-- What `assoc` finds is replaced. -/
def Edges.set (key : α) (new : Trie α β) : Edges α β → Edges α β
  | .nil => .nil
  | .cons key' trie edges => if same key key' then .cons key' new edges else .cons key' trie (edges.set key new)

def findSubtrie : (path : List α) → Trie α β → Option (Trie α β)
  | [], trie => some trie
  | key :: path, .make _ edges => (edges.assoc same key).bind (findSubtrie path)

/-- The value of the subtrie that `find-subtrie` finds, or that `intern-subtrie!` makes, becomes another one. -/
def setValue (interns : Bool) (value : Option β) : (path : List α) → Trie α β → Trie α β
  | [], .make _ edges => .make value edges
  | key :: path, .make value' edges =>
    match edges.assoc same key with
    | some trie => .make value' (edges.set same key (setValue interns value path trie))
    | none => .make value' (if interns then .cons key (setValue interns value path emptyTrie) edges else edges)

def trieSet (path : List α) (value : β) : Trie α β → Trie α β := setValue same true (some value) path

/-- `delete-trie-value!` of what `find-subtrie` finds. -/
def deleteValue (path : List α) : Trie α β → Trie α β := setValue same false none path

/-- Without a value, `trie-ref` calls `fail`. -/
def trieRef (path : List α) (trie : Trie α β) : Option β := (findSubtrie same path trie).bind fun | .make value _ => value

end

mutual

def trieFold (kons : List α → β → σ → σ) (path : List α) : Trie α β → σ → σ
  | .make value edges, acc =>
    edges.fold kons path (match value with | some value => kons path.reverse value acc | none => acc)

def Edges.fold (kons : List α → β → σ → σ) (path : List α) : Edges α β → σ → σ
  | .nil, acc => acc
  | .cons key trie edges, acc => edges.fold kons path (trieFold kons (key :: path) trie acc)

end

mutual

/-- The state is what the calls of the procedure change. -/
def trieForEach (procedure : List α → β → σ → σ) (path : List α) : Trie α β → σ → σ
  | .make value edges, state =>
    let state := match value with
      | some value => procedure path.reverse value state
      | none => state
    edges.forEach procedure path state

def Edges.forEach (procedure : List α → β → σ → σ) (path : List α) : Edges α β → σ → σ
  | .nil, state => state
  | .cons key trie edges, state => edges.forEach procedure path (trieForEach procedure (key :: path) trie state)

end

def trieToAlist (trie : Trie α β) : List (List α × β) := trieFold (fun path value alist => (path, value) :: alist) [] trie []

mutual

def trieClean : Trie α β → Trie α β
  | .make value edges => .make value edges.clean

/-- `trie-edge-prune!`, in `trie-clean!`. -/
def Edges.clean : Edges α β → Edges α β
  | .nil => .nil
  | .cons key trie edges =>
    match trieClean trie with
    | .make none .nil => edges.clean
    | trie => .cons key trie edges.clean

end

def trieClear (_ : Trie α β) : Trie α β := .make none .nil

/-- Paths are lists up to the equality of edges. -/
def samePath (same : α → α → Bool) : List α → List α → Bool
  | [], [] => true
  | key :: path, key' :: path' => same key key' && samePath same path path'
  | _, _ => false

mutual

def entries : Trie α β → List (List α × β)
  | .make value edges => value.toList.map ([], ·) ++ edges.entries

def Edges.entries : Edges α β → List (List α × β)
  | .nil => []
  | .cons key trie edges => (MitScheme.Runtime.Tries.entries trie).map (fun p => (key :: p.1, p.2)) ++ edges.entries

end

mutual

/-- No key has two edges. -/
def Distinct (same : α → α → Bool) : Trie α β → Prop
  | .make _ edges => edges.Distinct same

def Edges.Distinct (same : α → α → Bool) : Edges α β → Prop
  | .nil => True
  | .cons key trie edges => edges.assoc same key = none ∧ MitScheme.Runtime.Tries.Distinct same trie ∧ edges.Distinct same

end

section
variable {same : α → α → Bool} {key key' : α} {trie new : Trie α β} {path q : List α} {value : β}

theorem trieRef_cons {given : Option β} {edges : Edges α β} : trieRef same (key :: path) (.make given edges) =
    (edges.assoc same key).bind (trieRef same path) := by
  rw [trieRef, findSubtrie, Option.bind_assoc]
  rfl

theorem trieRef_empty : trieRef same path (emptyTrie : Trie α β) = none := by cases path <;> rfl

variable (equality : Equivalence fun a b => same a b = true)
include equality

theorem same_congr (equal : same key key' = true) (a : α) : same key a = same key' a :=
  Bool.eq_iff_iff.mpr ⟨equality.trans (equality.symm equal), equality.trans equal⟩

theorem assoc_congr (equal : same key key' = true) : (edges : Edges α β) → edges.assoc same key = edges.assoc same key'
  | .nil => rfl
  | .cons k trie edges => by rw [Edges.assoc, Edges.assoc, same_congr equality equal, assoc_congr equal edges]

theorem assoc_set : (edges : Edges α β) → (edges.set same key new).assoc same key' =
    (edges.assoc same key').map fun trie => if same key' key then new else trie
  | .nil => rfl
  | .cons k trie edges => by
    rw [Edges.set]
    by_cases found : same key k = true
    · rw [if_pos found, Edges.assoc, Edges.assoc]
      by_cases equal : same key' k = true
      · have both : same key' key = true := equality.trans equal (equality.symm found)
        rw [if_pos equal, if_pos equal, Option.map_some, if_pos both]
      · have apart : ¬same key' key = true := fun both => equal (equality.trans both found)
        simp [if_neg equal, if_neg apart]
    · rw [if_neg found, Edges.assoc, Edges.assoc, assoc_set edges]
      by_cases equal : same key' k = true
      · have apart : ¬same key' key = true := fun both => found (equality.trans (equality.symm both) equal)
        rw [if_pos equal, if_pos equal, Option.map_some, if_neg apart]
      · rw [if_neg equal, if_neg equal]

/-- A subtrie is replaced by one that differs in what it has on some of the paths. -/
theorem trieRef_set {given : Option β} {edges : Edges α β} {test : Bool} {answer : Option β} (found : edges.assoc same key = some trie)
    (replaced : trieRef same q new = if test then answer else trieRef same q trie) :
    trieRef same (key' :: q) (.make given (edges.set same key new)) =
      if same key' key && test then answer else trieRef same (key' :: q) (.make given edges) := by
  rw [trieRef_cons, trieRef_cons, assoc_set equality]
  by_cases equal : same key' key = true
  · rw [assoc_congr equality equal, found]
    simp [equal, replaced]
  · simp [equal]

theorem trieRef_setValue {interns : Bool} {value : Option β} (deletes : interns = false → value = none) :
    (path q : List α) → (trie : Trie α β) → trieRef same q (setValue same interns value path trie) =
      if samePath same q path then value else trieRef same q trie
  | [], [], .make _ edges => rfl
  | [], key' :: q, .make _ edges => rfl
  | key :: path, [], .make given edges => by
    rw [setValue]
    cases edges.assoc same key <;> rfl
  | key :: path, key' :: q, .make given edges => by
    rw [setValue, samePath]
    cases found : edges.assoc same key with
    | some trie => exact trieRef_set equality found (trieRef_setValue deletes path q trie)
    | none =>
      by_cases equal : same key' key = true
      · have missing : trieRef same (key' :: q) (.make given edges) = none := by
          rw [trieRef_cons, assoc_congr equality equal, found]
          rfl
        cases interns with
        | true =>
          rw [missing, if_pos rfl, trieRef_cons, Edges.assoc, if_pos equal, Option.bind_some,
            trieRef_setValue deletes path q, trieRef_empty]
          simp [equal]
        | false => simp [missing, deletes]
      · cases interns with
        | true => simp [equal, trieRef_cons, Edges.assoc]
        | false => simp [equal]

end

section
variable {same : α → α → Bool} {key : α} {trie : Trie α β} {edges : Edges α β} {path q : List α} {value : β}

theorem mem_make {given : Option β} : (path, value) ∈ entries (.make given edges) ↔
    given = some value ∧ path = [] ∨ (path, value) ∈ edges.entries := by
  simp [entries]

theorem mem_cons : (path, value) ∈ (Edges.cons key trie edges).entries ↔
    (∃ q, path = key :: q ∧ (q, value) ∈ entries trie) ∨ (path, value) ∈ edges.entries := by
  simp [Edges.entries, eq_comm, and_comm]

theorem head_of_mem : (edges : Edges α β) → (path, value) ∈ edges.entries → ∃ key q, path = key :: q
  | .cons key trie edges, member => by
    rcases mem_cons.mp member with ⟨q, rfl, -⟩ | member
    · exact ⟨key, q, rfl⟩
    · exact head_of_mem edges member

theorem distinct_assoc : (edges : Edges α β) → edges.Distinct same → edges.assoc same key = some trie → Distinct same trie
  | .cons key' trie' edges, ⟨_, distinct, distinct'⟩, found => by
    rw [Edges.assoc] at found
    split at found
    · exact Option.some.inj found ▸ distinct
    · exact distinct_assoc edges distinct' found

theorem clean_assoc_none : (edges : Edges α β) → edges.assoc same key = none → edges.clean.assoc same key = none
  | .nil, _ => rfl
  | .cons key' trie edges, missing => by
    rw [Edges.assoc] at missing
    split at missing
    · exact nomatch missing
    · have rest := clean_assoc_none edges missing
      rw [Edges.clean]
      split
      · exact rest
      · rw [Edges.assoc, if_neg ‹_›, rest]

mutual

theorem distinct_clean : (trie : Trie α β) → Distinct same trie → Distinct same (trieClean trie)
  | .make _ edges, distinct => by
    rw [trieClean]
    exact distinct_edges_clean edges distinct

theorem distinct_edges_clean : (edges : Edges α β) → edges.Distinct same → edges.clean.Distinct same
  | .nil, _ => trivial
  | .cons key trie edges, ⟨apart, distinct, distinct'⟩ => by
    have rest := distinct_edges_clean edges distinct'
    have cleaned := distinct_clean trie distinct
    rw [Edges.clean]
    split
    · exact rest
    · exact ⟨clean_assoc_none edges apart, cleaned, rest⟩

end

theorem assoc_clean : (edges : Edges α β) → edges.clean.assoc same key = some trie →
    ∃ trie', trieClean trie' = trie ∧ trie ≠ emptyTrie
  | .cons key' trie' edges, found => by
    rw [Edges.clean] at found
    split at found
    case h_1 => exact assoc_clean edges found
    case h_2 kept =>
      rw [Edges.assoc] at found
      split at found
      · exact ⟨trie', Option.some.inj found, fun empty => kept ((Option.some.inj found).trans empty)⟩
      · exact assoc_clean edges found

mutual

theorem trieRef_iff (equality : Equivalence fun a b => same a b = true) :
    (trie : Trie α β) → Distinct same trie → (q : List α) →
    (trieRef same q trie = some value ↔ ∃ path, (path, value) ∈ entries trie ∧ samePath same q path = true)
  | .make given edges, distinct, [] => by
    constructor
    · exact fun found => ⟨[], mem_make.mpr (.inl ⟨found, rfl⟩), rfl⟩
    · rintro ⟨path, member, equal⟩
      rcases mem_make.mp member with ⟨found, -⟩ | member
      · exact found
      · obtain ⟨key, q, rfl⟩ := head_of_mem edges member
        exact nomatch equal
  | .make given edges, distinct, key :: q => by
    rw [trieRef_cons, edges_iff equality edges distinct key q]
    refine exists_congr fun path => and_congr_left fun equal => ?_
    rw [mem_make, or_iff_right]
    rintro ⟨-, rfl⟩
    exact nomatch equal

theorem edges_iff (equality : Equivalence fun a b => same a b = true) :
    (edges : Edges α β) → edges.Distinct same → (key : α) → (q : List α) →
    ((edges.assoc same key).bind (trieRef same q) = some value ↔
      ∃ path, (path, value) ∈ edges.entries ∧ samePath same (key :: q) path = true)
  | .nil, _, _, _ => by simp [Edges.assoc, Edges.entries]
  | .cons key' trie edges, ⟨apart, distinct, distinct'⟩, key, q => by
    have rest := edges_iff equality edges distinct' key q
    simp only [Edges.assoc, mem_cons, or_and_right, exists_or, ← rest]
    by_cases equal : same key key' = true
    · rw [if_pos equal, Option.bind_some, trieRef_iff equality trie distinct q, assoc_congr equality equal, apart]
      constructor
      · rintro ⟨path, member, same⟩
        exact .inl ⟨key' :: path, ⟨path, rfl, member⟩, by simp [samePath, equal, same]⟩
      · rintro (⟨_, ⟨path, rfl, member⟩, same⟩ | none)
        · exact ⟨path, member, (Bool.and_eq_true_iff.mp same).2⟩
        · exact nomatch none
    · rw [if_neg equal, or_iff_right]
      rintro ⟨_, ⟨path, rfl, member⟩, same⟩
      exact equal (Bool.and_eq_true_iff.mp same).1

end

/-- The pairs present a map of paths, each path once. -/
structure Presents (same : α → α → Bool) (pairs : List (List α × β)) (map : List α → Option β) : Prop where
  once : pairs.Pairwise fun p q => samePath same p.1 q.1 = false
  mem_iff : ∀ path value, map path = some value ↔ ∃ p ∈ pairs, p.2 = value ∧ samePath same path p.1 = true

mutual

theorem entries_once (equality : Equivalence fun a b => same a b = true) :
    (trie : Trie α β) → Distinct same trie → (entries trie).Pairwise fun p q => samePath same p.1 q.1 = false
  | .make given edges, distinct => by
    rw [entries, List.pairwise_append]
    refine ⟨by cases given <;> simp, edges_once equality edges distinct, ?_⟩
    intro p first q member
    obtain ⟨key, path, later⟩ := head_of_mem edges member
    obtain ⟨value, -, rfl⟩ := List.mem_map.mp first
    rw [later]
    rfl

theorem edges_once (equality : Equivalence fun a b => same a b = true) :
    (edges : Edges α β) → edges.Distinct same → edges.entries.Pairwise fun p q => samePath same p.1 q.1 = false
  | .nil, _ => .nil
  | .cons key trie edges, ⟨apart, distinct, distinct'⟩ => by
    rw [Edges.entries, List.pairwise_append, List.pairwise_map]
    refine ⟨(entries_once equality trie distinct).imp fun once => by simp [samePath, once], edges_once equality edges distinct', ?_⟩
    intro p first q member
    obtain ⟨⟨path, value⟩, -, rfl⟩ := List.mem_map.mp first
    refine Bool.eq_false_iff.mpr fun equal => ?_
    have found : (edges.assoc same key).bind (trieRef same path) = some q.2 :=
      (edges_iff equality edges distinct' key path).mpr ⟨q.1, member, equal⟩
    rw [apart] at found
    exact nomatch found

end

mutual

theorem trieRef_clean (equality : Equivalence fun a b => same a b = true) :
    (trie : Trie α β) → Distinct same trie → (q : List α) → trieRef same q (trieClean trie) = trieRef same q trie
  | .make _ edges, _, [] => by
    rw [trieClean]
    rfl
  | .make _ edges, distinct, key :: q => by
    rw [trieClean, trieRef_cons, trieRef_cons, edges_clean equality edges distinct]

theorem edges_clean (equality : Equivalence fun a b => same a b = true) :
    (edges : Edges α β) → edges.Distinct same → (key : α) → (q : List α) →
    (edges.clean.assoc same key).bind (trieRef same q) = (edges.assoc same key).bind (trieRef same q)
  | .nil, _, _, _ => rfl
  | .cons key' trie edges, ⟨apart, distinct, distinct'⟩, key, q => by
    have rest := edges_clean equality edges distinct' key q
    have inner := trieRef_clean equality trie distinct q
    rw [Edges.clean]
    split
    case h_1 empty =>
      rw [rest, Edges.assoc]
      split
      case isTrue equal =>
        rw [assoc_congr equality equal, apart, Option.bind_some, ← inner, empty]
        exact trieRef_empty.symm
      case isFalse => rfl
    case h_2 =>
      rw [Edges.assoc, Edges.assoc]
      split
      · exact inner
      · exact rest

end

/-- The trie has a value or a descendant with one. -/
def Live (same : α → α → Bool) (trie : Trie α β) : Prop := ∃ path, (trieRef same path trie).isSome = true

mutual

theorem clean_live (equality : Equivalence fun a b => same a b = true) :
    (trie : Trie α β) → trieClean trie ≠ emptyTrie → Live same (trieClean trie)
  | .make (some value) edges, _ => ⟨[], rfl⟩
  | .make none edges, filled => by
    rw [trieClean] at filled ⊢
    obtain ⟨key, path, found⟩ := edges_live equality edges fun none => filled (congrArg _ none)
    exact ⟨key :: path, trieRef_cons ▸ found⟩

theorem edges_live (equality : Equivalence fun a b => same a b = true) : (edges : Edges α β) → edges.clean ≠ .nil →
    ∃ key path, ((edges.clean.assoc same key).bind (trieRef same path)).isSome = true
  | .nil, filled => absurd rfl filled
  | .cons key trie edges, filled => by
    rw [Edges.clean] at filled ⊢
    split at filled
    case h_1 => exact edges_live equality edges filled
    case h_2 kept =>
      obtain ⟨path, found⟩ := clean_live equality trie kept
      exact ⟨key, path, by rw [Edges.assoc, if_pos (equality.refl key)]; exact found⟩

end

variable (equality : Equivalence fun a b => same a b = true)
include equality

theorem presents_entries (distinct : Distinct same trie) : Presents same (entries trie) fun path => trieRef same path trie where
  once := entries_once equality trie distinct
  mem_iff path value := by
    rw [trieRef_iff equality trie distinct path]
    constructor
    · rintro ⟨q, member, equal⟩
      exact ⟨(q, value), member, rfl, equal⟩
    · rintro ⟨p, member, rfl, equal⟩
      exact ⟨p.1, member, equal⟩

theorem distinct_set {new : Trie α β} (distinct_new : Distinct same new) : (edges : Edges α β) → edges.Distinct same →
    (edges.set same key new).Distinct same
  | .nil, _ => trivial
  | .cons key' trie edges, ⟨apart, distinct, distinct'⟩ => by
    rw [Edges.set]
    split
    · exact ⟨apart, distinct_new, distinct'⟩
    · exact ⟨by rw [assoc_set equality, apart]; rfl, distinct, distinct_set distinct_new edges distinct'⟩

theorem distinct_setValue {interns : Bool} {value : Option β} : (path : List α) → (trie : Trie α β) → Distinct same trie →
    Distinct same (setValue same interns value path trie)
  | [], .make _ _, distinct => distinct
  | key :: path, .make given edges, distinct => by
    rw [setValue]
    cases found : edges.assoc same key with
    | some trie => exact distinct_set equality (distinct_setValue path trie (distinct_assoc edges distinct found)) edges distinct
    | none =>
      cases interns with
      | true => exact ⟨found, distinct_setValue path emptyTrie trivial, distinct⟩
      | false => exact distinct

theorem clean_lives : (path : List α) → path ≠ [] → (trie trie' : Trie α β) → findSubtrie same path (trieClean trie) = some trie' →
    Live same trie'
  | key :: path, _, .make given edges, trie', found => by
    obtain ⟨child, assoc, found⟩ := Option.bind_eq_some_iff.mp found
    obtain ⟨trie, rfl, kept⟩ := assoc_clean edges assoc
    cases path with
    | nil => exact Option.some.inj found ▸ clean_live equality trie kept
    | cons key' path => exact clean_lives (key' :: path) nofun trie trie' found

end

section
variable (kons : List α → β → σ → σ)

mutual

theorem trieFold_eq : (trie : Trie α β) → (path : List α) → (acc : σ) → trieFold kons path trie acc =
    (entries trie).foldl (fun acc p => kons (path.reverse ++ p.1) p.2 acc) acc
  | .make given edges, path, acc => by
    simp only [trieFold, fold_eq edges, entries, List.foldl_append]
    cases given <;> simp

theorem fold_eq : (edges : Edges α β) → (path : List α) → (acc : σ) → edges.fold kons path acc =
    edges.entries.foldl (fun acc p => kons (path.reverse ++ p.1) p.2 acc) acc
  | .nil, _, _ => rfl
  | .cons key trie edges, path, acc => by
    rw [Edges.fold, trieFold_eq trie, fold_eq edges, Edges.entries, List.foldl_append, List.foldl_map]
    simp

end

mutual

theorem trieForEach_eq : (trie : Trie α β) → (path : List α) → (state : σ) →
    trieForEach kons path trie state = trieFold kons path trie state
  | .make given edges, path, state => by
    simp only [trieForEach, trieFold, forEach_eq edges]

theorem forEach_eq : (edges : Edges α β) → (path : List α) → (state : σ) → edges.forEach kons path state = edges.fold kons path state
  | .nil, _, _ => rfl
  | .cons key trie edges, path, state => by rw [Edges.forEach, Edges.fold, trieForEach_eq trie, forEach_eq edges]

end

end

inductive Operation (α β : Type) where
  | trieSet (path : List α) (value : β)
  | deleteValue (path : List α)
  | trieClean
  | trieClear

def perform (same : α → α → Bool) (trie : Trie α β) : Operation α β → Trie α β
  | .trieSet path value => trieSet same path value trie
  | .deleteValue path => deleteValue same path trie
  | .trieClean => trieClean trie
  | .trieClear => trieClear trie

/-- What an operation does to a map of paths. -/
def mapPerform (same : α → α → Bool) (map : List α → Option β) : Operation α β → List α → Option β
  | .trieSet path value => fun q => if samePath same q path then some value else map q
  | .deleteValue path => fun q => if samePath same q path then none else map q
  | .trieClean => map
  | .trieClear => fun _ => none

section
variable {same : α → α → Bool} (equality : Equivalence fun a b => same a b = true)
include equality

theorem perform_spec (trie : Trie α β) (distinct : Distinct same trie) (operation : Operation α β) :
    Distinct same (perform same trie operation) ∧ (fun path => trieRef same path (perform same trie operation)) =
      mapPerform same (fun path => trieRef same path trie) operation := by
  cases operation with
  | trieSet path value =>
    exact ⟨distinct_setValue equality path trie distinct, funext (trieRef_setValue equality Bool.noConfusion path · trie)⟩
  | deleteValue path =>
    exact ⟨distinct_setValue equality path trie distinct, funext (trieRef_setValue equality (fun _ => rfl) path · trie)⟩
  | trieClean => exact ⟨distinct_clean trie distinct, funext (trieRef_clean equality trie distinct)⟩
  | trieClear => exact ⟨trivial, funext fun _ => trieRef_empty⟩

theorem run_spec (operations : List (Operation α β)) (trie : Trie α β) (distinct : Distinct same trie) :
    Distinct same (operations.foldl (perform same) trie) ∧ (fun path => trieRef same path (operations.foldl (perform same) trie)) =
      operations.foldl (mapPerform same) fun path => trieRef same path trie := by
  induction operations generalizing trie with
  | nil => exact ⟨distinct, rfl⟩
  | cons operation operations ih =>
    obtain ⟨distinct', once⟩ := perform_spec equality trie distinct operation
    obtain ⟨last, all⟩ := ih _ distinct'
    exact ⟨last, all.trans (by rw [once]; rfl)⟩

/-- Tries refine finite maps of paths, and cleaning one leaves no subtrie without a value in it. -/
theorem tries_are_maps (operations : List (Operation α β)) {trie : Trie α β} {map : List α → Option β}
    (ran : operations.foldl (perform same) emptyTrie = trie) (mapped : operations.foldl (mapPerform same) (fun _ => none) = map) :
    (∀ path, trieRef same path trie = map path) ∧
    (∃ pairs, Presents same pairs map ∧ trieToAlist trie = pairs.reverse ∧
      ∀ (σ : Type) (procedure : List α → β → σ → σ) state,
        trieForEach procedure [] trie state = pairs.foldl (fun state p => procedure p.1 p.2 state) state) ∧
    (∀ path, trieRef same path (trieClean trie) = map path) ∧
    ∀ path trie', path ≠ [] → findSubtrie same path (trieClean trie) = some trie' → Live same trie' := by
  obtain ⟨distinct, refers⟩ := run_spec equality operations emptyTrie trivial
  rw [show (fun path => trieRef same path emptyTrie) = fun _ => none from funext fun _ => trieRef_empty, ran, mapped] at refers
  rw [ran] at distinct
  have at_path := congrFun refers
  refine ⟨at_path, ⟨entries trie, refers ▸ presents_entries equality distinct, ?_, ?_⟩, ?_, ?_⟩
  · rw [trieToAlist, trieFold_eq]
    simp
  · intro σ procedure state
    rw [trieForEach_eq, trieFold_eq]
    rfl
  · exact fun path => (trieRef_clean equality trie distinct path).trans (at_path path)
  · exact fun path trie' inner => clean_lives equality path inner trie trie'

end

theorem tries_are_maps_small : trieRef (fun a b : ℕ => a == b) [1, 2] (([.trieSet [1] 10, .trieSet [1, 2] 20, .deleteValue [1],
    .trieClean] : List (Operation ℕ ℕ)).foldl (perform fun a b => a == b) emptyTrie) = some 20 := by
  have equality : Equivalence fun a b : ℕ => (a == b) = true := by simpa [beq_iff_eq] using eq_equivalence
  exact (tries_are_maps equality _ rfl rfl).1 [1, 2]

end MitScheme.Runtime.Tries
