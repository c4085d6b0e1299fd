import MitScheme.Library.Unlinking
import Mathlib.Data.Multiset.Filter
import MitScheme.Library.Run

/-!
The tables of `weak-pair.scm`. Every loop over an alist unlinks the pairs whose keys were reclaimed as it comes to them.
A table answers as the map from the other keys, and its finalizer is applied to what the loops unlink.
-/

namespace MitScheme.Runtime.WeakPairs

section
open Library.Unlinking List

variable {κ δ β σ γ : Type}

/-- A weak pair, whose car is nothing once its key was reclaimed. -/
structure WeakPair (κ δ : Type) where
  car : Option κ
  cdr : δ
deriving DecidableEq, Repr

def gcReclaimed (p : WeakPair κ δ) : Bool := p.car.isNone

structure WeakAlistTable (κ δ : Type) where
  keyEq : κ → κ → Bool
  finalizer : Bool
  alist : List (WeakPair κ δ)
  finalized : List δ

def weakAlistTable (keyEq : κ → κ → Bool) (finalizer : Bool) : WeakAlistTable κ δ := ⟨keyEq, finalizer, [], []⟩

def atKey (visit : κ → WeakPair κ δ → σ → Visit (WeakPair κ δ) σ) (p : WeakPair κ δ) (acc : σ) :
    Visit (WeakPair κ δ) σ :=
  match p.car with
  | some key => visit key p acc
  | none => .go p acc

def tableLoop (table : WeakAlistTable κ δ) (visit : κ → WeakPair κ δ → σ → Visit (WeakPair κ δ) σ) (acc : σ) :
    WeakAlistTable κ δ × σ :=
  let swept := sweep gcReclaimed (atKey visit) [] table.alist acc []
  ({ table with
      alist := swept.cells,
      finalized := table.finalized ++ if table.finalizer then swept.dropped.map WeakPair.cdr else [] }, swept.acc)

def weakAlistTableFold (kons : κ → δ → β → β) (knil : β) (table : WeakAlistTable κ δ) : WeakAlistTable κ δ × β :=
  tableLoop table (fun key p acc => .go p (kons key p.cdr acc)) knil

def weakAlistTableSize (table : WeakAlistTable κ δ) : WeakAlistTable κ δ × ℕ :=
  weakAlistTableFold (fun _ _ acc => acc + 1) 0 table

def weakAlistTableToAlist (table : WeakAlistTable κ δ) : WeakAlistTable κ δ × List (κ × δ) :=
  weakAlistTableFold (fun key value acc => (key, value) :: acc) [] table

/-- `%weak-alist-table-search`. What is done with the pair that is found sets its datum and answers. -/
def weakAlistTableSearch (table : WeakAlistTable κ δ) (predicate : κ → δ → Bool) (ifFound : δ → δ × γ)
    (ifNotFound : WeakAlistTable κ δ → WeakAlistTable κ δ × γ) : WeakAlistTable κ δ × γ :=
  let searched := tableLoop table (fun key p found =>
    if predicate key p.cdr then .halt { p with cdr := (ifFound p.cdr).1 } (some (ifFound p.cdr).2) else .go p found) none
  match searched.2 with
  | some answer => (searched.1, answer)
  | none => ifNotFound searched.1

def operateOnTable (table : WeakAlistTable κ δ) (key : κ) (ifFound : δ → δ × γ)
    (ifNotFound : WeakAlistTable κ δ → WeakAlistTable κ δ × γ) : WeakAlistTable κ δ × γ :=
  weakAlistTableSearch table (fun key' _ => table.keyEq key key') ifFound ifNotFound

def adjoin (table : WeakAlistTable κ δ) (key : κ) (value : δ) : WeakAlistTable κ δ :=
  { table with alist := ⟨some key, value⟩ :: table.alist }

/-- What an operation on a table answers: a value of Scheme, or the error of a bad range. -/
inductive Answer (κ δ β : Type) where
  | datum (value : δ)
  | boolean (value : Bool)
  | number (value : ℕ)
  | alist (value : List (κ × δ))
  | folded (value : β)
  | unspecific
  | badRange

def weakAlistTableContains (table : WeakAlistTable κ δ) (key : κ) : WeakAlistTable κ δ × Answer κ δ β :=
  operateOnTable table key (fun datum => (datum, .boolean true)) fun table => (table, .boolean false)

def weakAlistTableRef (table : WeakAlistTable κ δ) (key : κ) (fail : Option δ) (succeed : Option (δ → δ)) :
    WeakAlistTable κ δ × Answer κ δ β :=
  operateOnTable table key (fun datum => (datum, .datum (succeed.elim datum fun succeed => succeed datum)))
    fun table => (table, fail.elim .badRange .datum)

def weakAlistTableSet (table : WeakAlistTable κ δ) (key : κ) (value : δ) : WeakAlistTable κ δ × Answer κ δ β :=
  operateOnTable table key (fun _ => (value, .unspecific)) fun table => (adjoin table key value, .unspecific)

def weakAlistTableUpdate (table : WeakAlistTable κ δ) (key : κ) (updater : δ → δ) (fail : Option δ)
    (succeed : Option (δ → δ)) : WeakAlistTable κ δ × Answer κ δ β :=
  operateOnTable table key
    (fun datum => (updater (succeed.elim datum fun succeed => succeed datum), .unspecific))
    fun table => fail.elim (table, .badRange) fun datum => (adjoin table key (updater datum), .unspecific)

/-- The answer for a key that is not there is the one of the setter of the alist. -/
def weakAlistTableIntern (table : WeakAlistTable κ δ) (key : κ) (value : δ) : WeakAlistTable κ δ × Answer κ δ β :=
  operateOnTable table key (fun datum => (datum, .datum datum)) fun table => (adjoin table key value, .unspecific)

def weakAlistTableDelete (table : WeakAlistTable κ δ) (key : κ) (default : Option δ) :
    WeakAlistTable κ δ × Answer κ δ β :=
  let deleted := tableLoop table (fun key' p found =>
    if table.keyEq key key' then .unlinkHalt (some p.cdr) else .go p found) none
  (deleted.1, match deleted.2 with | some datum => .datum datum | none => default.elim .unspecific .datum)

def weakAlistTablePrune (predicate : κ → δ → Bool) (table : WeakAlistTable κ δ) : WeakAlistTable κ δ :=
  (tableLoop table (fun key p acc => if predicate key p.cdr then .unlink acc else .go p acc) ()).1

def weakAlistTableMap (procedure : κ → δ → δ) (table : WeakAlistTable κ δ) : WeakAlistTable κ δ :=
  (tableLoop table (fun key p acc => .go { p with cdr := procedure key p.cdr } acc) ()).1

def weakAlistTableClean (table : WeakAlistTable κ δ) : WeakAlistTable κ δ :=
  (tableLoop table (fun _ p acc => .go p acc) ()).1

def weakAlistTableClear (table : WeakAlistTable κ δ) : WeakAlistTable κ δ := { table with alist := [] }

inductive Operation (κ δ β : Type) where
  | set (key : κ) (value : δ)
  | update (key : κ) (updater : δ → δ) (fail : Option δ) (succeed : Option (δ → δ))
  | intern (key : κ) (value : δ)
  | delete (key : κ) (default : Option δ)
  | prune (predicate : κ → δ → Bool)
  | map (procedure : κ → δ → δ)
  | clean
  | clear
  | ref (key : κ) (fail : Option δ) (succeed : Option (δ → δ))
  | contains (key : κ)
  | size
  | fold (kons : κ → δ → β → β) (knil : β)
  | toAlist

def perform (table : WeakAlistTable κ δ) : Operation κ δ β → WeakAlistTable κ δ × Answer κ δ β
  | .set key value => weakAlistTableSet table key value
  | .update key updater fail succeed => weakAlistTableUpdate table key updater fail succeed
  | .intern key value => weakAlistTableIntern table key value
  | .delete key default => weakAlistTableDelete table key default
  | .prune predicate => (weakAlistTablePrune predicate table, .unspecific)
  | .map procedure => (weakAlistTableMap procedure table, .unspecific)
  | .clean => (weakAlistTableClean table, .unspecific)
  | .clear => (weakAlistTableClear table, .unspecific)
  | .ref key fail succeed => weakAlistTableRef table key fail succeed
  | .contains key => weakAlistTableContains table key
  | .size => ((weakAlistTableSize table).1, .number (weakAlistTableSize table).2)
  | .fold kons knil => ((weakAlistTableFold kons knil table).1, .folded (weakAlistTableFold kons knil table).2)
  | .toAlist => ((weakAlistTableToAlist table).1, .alist (weakAlistTableToAlist table).2)

def collect (dead : κ → Bool) (table : WeakAlistTable κ δ) : WeakAlistTable κ δ :=
  { table with alist := table.alist.map fun p => if p.car.any dead then { p with car := none } else p }

end

open Library Library.Unlinking

variable {κ δ β σ γ : Type}

def entries (alist : List (WeakPair κ δ)) : List (κ × δ) := alist.filterMap fun p => p.car.map fun key => (key, p.cdr)

def lost (alist : List (WeakPair κ δ)) : List δ := (alist.filter gcReclaimed).map WeakPair.cdr

def Lacks (keyEq : κ → κ → Bool) (m : Multiset (κ × δ)) (key : κ) : Prop := ∀ e ∈ m, keyEq key e.1 = false

/-- What an operation does to a finite map and answers. -/
inductive Performs (keyEq : κ → κ → Bool) (m : Multiset (κ × δ)) :
    Operation κ δ β → Answer κ δ β → Multiset (κ × δ) → Prop where
  | setOld {key k value d rest} (found : m = (k, d) ::ₘ rest) (same : keyEq key k = true) :
      Performs keyEq m (.set key value) .unspecific ((k, value) ::ₘ rest)
  | setNew {key value} (lacks : Lacks keyEq m key) : Performs keyEq m (.set key value) .unspecific ((key, value) ::ₘ m)
  | updateOld {key k updater fail succeed d rest} (found : m = (k, d) ::ₘ rest) (same : keyEq key k = true) :
      Performs keyEq m (.update key updater fail succeed) .unspecific ((k, updater (succeed.elim d fun f => f d)) ::ₘ rest)
  | updateNew {key updater d succeed} (lacks : Lacks keyEq m key) :
      Performs keyEq m (.update key updater (some d) succeed) .unspecific ((key, updater d) ::ₘ m)
  | updateFails {key updater succeed} (lacks : Lacks keyEq m key) :
      Performs keyEq m (.update key updater none succeed) .badRange m
  | internOld {key k value d rest} (found : m = (k, d) ::ₘ rest) (same : keyEq key k = true) :
      Performs keyEq m (.intern key value) (.datum d) m
  | internNew {key value} (lacks : Lacks keyEq m key) :
      Performs keyEq m (.intern key value) (.datum value) ((key, value) ::ₘ m)
  | deleteOld {key k default d rest} (found : m = (k, d) ::ₘ rest) (same : keyEq key k = true) :
      Performs keyEq m (.delete key default) (.datum d) rest
  | deleteNew {key default} (lacks : Lacks keyEq m key) :
      Performs keyEq m (.delete key default) (default.elim .unspecific .datum) m
  | prune {predicate} : Performs keyEq m (.prune predicate) .unspecific (m.filter fun e => predicate e.1 e.2 = false)
  | map {procedure} : Performs keyEq m (.map procedure) .unspecific (m.map fun e => (e.1, procedure e.1 e.2))
  | clean : Performs keyEq m .clean .unspecific m
  | clear : Performs keyEq m .clear .unspecific 0
  | refOld {key k fail succeed d rest} (found : m = (k, d) ::ₘ rest) (same : keyEq key k = true) :
      Performs keyEq m (.ref key fail succeed) (.datum (succeed.elim d fun f => f d)) m
  | refNew {key fail succeed} (lacks : Lacks keyEq m key) :
      Performs keyEq m (.ref key fail succeed) (fail.elim .badRange .datum) m
  | containsOld {key k d rest} (found : m = (k, d) ::ₘ rest) (same : keyEq key k = true) :
      Performs keyEq m (.contains key) (.boolean true) m
  | containsNew {key} (lacks : Lacks keyEq m key) : Performs keyEq m (.contains key) (.boolean false) m
  | size : Performs keyEq m .size (.number m.card) m
  | fold {kons knil} (order : List (κ × δ)) (all : m = order) :
      Performs keyEq m (.fold kons knil) (.folded (order.foldl (fun acc e => kons e.1 e.2 acc) knil)) m
  | toAlist (order : List (κ × δ)) (all : m = order) : Performs keyEq m .toAlist (.alist order) m

variable {table table' : WeakAlistTable κ δ} {alist : List (WeakPair κ δ)} {es es' front back : List (κ × δ)} {key k : κ}
  {d : δ} {visit : κ → WeakPair κ δ → σ → Visit (WeakPair κ δ) σ} {acc acc' : σ} {halted : Bool}

def paired (e : κ × δ) : WeakPair κ δ := ⟨some e.1, e.2⟩

theorem atKey_paired {e : κ × δ} : atKey visit (paired e) acc = visit e.1 (paired e) acc := rfl

theorem live_alist : live gcReclaimed alist = (entries alist).map paired := by
  induction alist with
  | nil => rfl
  | cons p alist ih =>
    obtain ⟨car, cdr⟩ := p
    cases car with
    | none => rw [live_cons_dead rfl, ih]; rfl
    | some key => rw [live_cons rfl, ih]; rfl

theorem entries_paired : entries (es.map paired) = es := by
  induction es with
  | nil => rfl
  | cons e es ih => exact congrArg (e :: ·) ih

structure Loops (table table' : WeakAlistTable κ δ) (es : List (κ × δ)) : Prop where
  kept : entries table'.alist = es
  keyEq : table'.keyEq = table.keyEq
  finalizer : table'.finalizer = table.finalizer
  dropped : ∃ dropped, table'.finalized = table.finalized ++ (if table.finalizer then dropped else []) ∧
    dropped ++ lost table'.alist = lost table.alist

theorem tableLoop_spec (alive : ∀ key p acc, p.car = some key → (visit key p acc).Live gcReclaimed)
    (walked : walk (atKey visit) ((entries table.alist).map paired) acc = (es.map paired, acc', halted)) :
    Loops table (tableLoop table visit acc).1 es ∧ (tableLoop table visit acc).2 = acc' := by
  have alive' : ∀ p acc, gcReclaimed p = false → (atKey visit p acc).Live gcReclaimed := by
    intro p acc isLive
    unfold atKey
    split
    · rename_i key held
      exact alive key p acc held
    · exact isLive
  obtain ⟨cells, ended⟩ := @sweep_live _ _ gcReclaimed (atKey visit) [] table.alist [] acc alive'
  obtain ⟨unlinked, dropped, left, kept, all⟩ := @sweep_dead _ _ gcReclaimed (atKey visit) [] table.alist [] acc alive'
  rw [@live_alist κ δ table.alist, walked] at cells ended
  refine ⟨⟨?_, rfl, rfl, unlinked.map WeakPair.cdr, ?_, ?_⟩, congrArg Prod.fst ended⟩
  · have left' := congrArg entries (live_alist.symm.trans cells)
    rw [entries_paired] at left'
    exact left'.trans entries_paired
  · simp [tableLoop, dropped]
  · rw [tableLoop, lost, lost, kept, ← all]
    simp

theorem walk_all {procedure : κ → δ → δ} {kons : κ → δ → σ → σ} :
    walk (atKey fun key p acc => .go { p with cdr := procedure key p.cdr } (kons key p.cdr acc)) (es.map paired) acc =
      ((es.map fun e => (e.1, procedure e.1 e.2)).map paired, es.foldl (fun acc e => kons e.1 e.2 acc) acc, false) := by
  induction es generalizing acc with
  | nil => rfl
  | cons e es ih =>
    rw [List.map_cons, walk_go atKey_paired, ih]
    rfl

theorem tableLoop_all (procedure : κ → δ → δ) (kons : κ → δ → σ → σ) (acc : σ) :
    Loops table (tableLoop table (fun key p acc => .go { p with cdr := procedure key p.cdr } (kons key p.cdr acc)) acc).1
        ((entries table.alist).map fun e => (e.1, procedure e.1 e.2)) ∧
      (tableLoop table (fun key p acc => .go { p with cdr := procedure key p.cdr } (kons key p.cdr acc)) acc).2 =
        (entries table.alist).foldl (fun acc e => kons e.1 e.2 acc) acc := by
  apply tableLoop_spec
  · intro key p acc held
    simp [Visit.Live, gcReclaimed, held]
  · exact walk_all

theorem weakAlistTableFold_spec (kons : κ → δ → β → β) (knil : β) :
    Loops table (weakAlistTableFold kons knil table).1 (entries table.alist) ∧
      (weakAlistTableFold kons knil table).2 = (entries table.alist).foldl (fun acc e => kons e.1 e.2 acc) knil := by
  have looped := @tableLoop_all κ δ β table (fun _ d => d) kons knil
  rwa [List.map_id'] at looped

theorem weakAlistTableMap_spec (procedure : κ → δ → δ) :
    Loops table (weakAlistTableMap procedure table) ((entries table.alist).map fun e => (e.1, procedure e.1 e.2)) :=
  (tableLoop_all procedure (fun _ _ acc => acc) ()).1

theorem weakAlistTableClean_spec : Loops table (weakAlistTableClean table) (entries table.alist) := by
  have looped := (@tableLoop_all κ δ Unit table (fun _ d => d) (fun _ _ acc => acc) ()).1
  rwa [List.map_id'] at looped

theorem weakAlistTablePrune_spec (predicate : κ → δ → Bool) :
    Loops table (weakAlistTablePrune predicate table) ((entries table.alist).filter fun e => predicate e.1 e.2 = false) := by
  refine (@tableLoop_spec κ δ Unit table _ _ () () false ?_ ?_).1
  · intro key p acc held
    split <;> simp [Visit.Live, gcReclaimed, held]
  · induction entries table.alist with
    | nil => rfl
    | cons e es ih =>
      rw [List.map_cons]
      by_cases chosen : predicate e.1 e.2 = true
      · rw [walk_unlink (atKey_paired.trans (if_pos chosen)), List.filter_cons_of_neg (by simp [chosen])]
        exact ih
      · rw [walk_go (atKey_paired.trans (if_neg chosen)), List.filter_cons_of_pos (by simp [chosen]), ih]
        rfl

theorem walk_past {predicate : κ → δ → Bool} {decided : κ → WeakPair κ δ → Visit (WeakPair κ δ) σ}
    (none : ∀ e ∈ front, predicate e.1 e.2 = false) (rest : List (WeakPair κ δ)) :
    walk (atKey fun key p acc => if predicate key p.cdr then decided key p else .go p acc) (front.map paired ++ rest) acc =
      (front.map paired ++ (walk (atKey fun key p acc => if predicate key p.cdr then decided key p else .go p acc) rest acc).1,
        (walk (atKey fun key p acc => if predicate key p.cdr then decided key p else .go p acc) rest acc).2) := by
  induction front with
  | nil => rfl
  | cons e front ih =>
    have here : ¬predicate e.1 e.2 = true := by simp [none e (List.mem_cons_self ..)]
    rw [List.map_cons, List.cons_append, walk_go (atKey_paired.trans (if_neg here)),
      ih fun e member => none e (List.mem_cons_of_mem _ member)]
    rfl

theorem lacks_or_found (keyEq : κ → κ → Bool) (es : List (κ × δ)) (key : κ) : (∀ e ∈ es, keyEq key e.1 = false) ∨
    ∃ front k d back, es = front ++ (k, d) :: back ∧ (∀ e ∈ front, keyEq key e.1 = false) ∧ keyEq key k = true := by
  cases search : es.find? fun e => keyEq key e.1 with
  | none =>
    left
    intro e member
    simpa using List.find?_eq_none.mp search e member
  | some e =>
    right
    obtain ⟨same, front, back, split, past⟩ := List.find?_eq_some_iff_append.mp search
    exact ⟨front, e.1, e.2, back, split, fun e member => by simpa using past e member, same⟩

section
variable {predicate : κ → δ → Bool} {decided : WeakPair κ δ → Visit (WeakPair κ δ) σ}
  (alive : ∀ p, gcReclaimed p = false → (decided p).Live gcReclaimed)
include alive

theorem seek_alive (key : κ) (p : WeakPair κ δ) (acc : σ) (held : p.car = some key) :
    (if predicate key p.cdr then decided p else .go p acc).Live gcReclaimed := by
  have isLive : gcReclaimed p = false := by simp [gcReclaimed, held]
  split
  · exact alive p isLive
  · exact isLive

theorem seek_lacks (lacks : ∀ e ∈ entries table.alist, predicate e.1 e.2 = false) (acc : σ) :
    Loops table (tableLoop table (fun key p acc => if predicate key p.cdr then decided p else .go p acc) acc).1
        (entries table.alist) ∧
      (tableLoop table (fun key p acc => if predicate key p.cdr then decided p else .go p acc) acc).2 = acc := by
  apply tableLoop_spec (seek_alive alive)
  have walked := @walk_past κ δ σ (entries table.alist) acc predicate (fun _ p => decided p) lacks []
  rwa [walk, List.append_nil] at walked

theorem seek_found (split : entries table.alist = front ++ (k, d) :: back)
    (past : ∀ e ∈ front, predicate e.1 e.2 = false) (hit : predicate k d = true) (acc : σ)
    (stops : decided (paired (k, d)) = .unlinkHalt acc' ∧ es = back ∨
      ∃ e, decided (paired (k, d)) = .halt (paired e) acc' ∧ es = e :: back) :
    Loops table (tableLoop table (fun key p acc => if predicate key p.cdr then decided p else .go p acc) acc).1 (front ++ es) ∧
      (tableLoop table (fun key p acc => if predicate key p.cdr then decided p else .go p acc) acc).2 = acc' := by
  apply @tableLoop_spec _ _ _ _ _ _ _ _ true (seek_alive alive)
  have walked := @walk_past κ δ σ front acc predicate (fun _ p => decided p) past (((k, d) :: back).map paired)
  rw [split, List.map_append, walked, List.map_cons, List.map_append]
  rcases stops with ⟨stops, rfl⟩ | ⟨e, stops, rfl⟩
  · rw [walk_unlinkHalt (atKey_paired.trans ((if_pos hit).trans stops))]
  · rw [walk_halt (atKey_paired.trans ((if_pos hit).trans stops))]
    rfl

end

section
variable {ifFound : δ → δ × γ} {ifNotFound : WeakAlistTable κ δ → WeakAlistTable κ δ × γ}

theorem operateOnTable_lacks (lacks : ∀ e ∈ entries table.alist, table.keyEq key e.1 = false) :
    ∃ table', Loops table table' (entries table.alist) ∧ operateOnTable table key ifFound ifNotFound = ifNotFound table' := by
  obtain ⟨looped, nothing⟩ := @seek_lacks κ δ (Option γ) table (fun key' _ => table.keyEq key key')
    (fun p => .halt { p with cdr := (ifFound p.cdr).1 } (some (ifFound p.cdr).2)) (fun p isLive => isLive) lacks none
  refine ⟨_, looped, ?_⟩
  unfold operateOnTable weakAlistTableSearch
  dsimp only
  rw [nothing]

theorem operateOnTable_found (split : entries table.alist = front ++ (k, d) :: back)
    (past : ∀ e ∈ front, table.keyEq key e.1 = false) (same : table.keyEq key k = true) :
    ∃ table', Loops table table' (front ++ (k, (ifFound d).1) :: back) ∧
      operateOnTable table key ifFound ifNotFound = (table', (ifFound d).2) := by
  obtain ⟨looped, found⟩ := @seek_found κ δ (Option γ) table _ front back k d (some (ifFound d).2)
    (fun key' _ => table.keyEq key key')
    (fun p => .halt { p with cdr := (ifFound p.cdr).1 } (some (ifFound p.cdr).2)) (fun p isLive => isLive) split past same
    none (.inr ⟨(k, (ifFound d).1), rfl, rfl⟩)
  refine ⟨_, looped, ?_⟩
  unfold operateOnTable weakAlistTableSearch
  dsimp only
  rw [found]

end

theorem weakAlistTableDelete_lacks (lacks : ∀ e ∈ entries table.alist, table.keyEq key e.1 = false) (default : Option δ) :
    ∃ table', Loops table table' (entries table.alist) ∧
      weakAlistTableDelete table key default = (table', (default.elim .unspecific .datum : Answer κ δ β)) := by
  obtain ⟨looped, nothing⟩ := @seek_lacks κ δ (Option δ) table (fun key' _ => table.keyEq key key')
    (fun p => .unlinkHalt (some p.cdr)) (fun _ _ => trivial) lacks none
  refine ⟨_, looped, ?_⟩
  unfold weakAlistTableDelete
  dsimp only
  rw [nothing]

theorem weakAlistTableDelete_found (split : entries table.alist = front ++ (k, d) :: back)
    (past : ∀ e ∈ front, table.keyEq key e.1 = false) (same : table.keyEq key k = true) (default : Option δ) :
    ∃ table', Loops table table' (front ++ back) ∧
      weakAlistTableDelete table key default = (table', (.datum d : Answer κ δ β)) := by
  obtain ⟨looped, found⟩ := @seek_found κ δ (Option δ) table _ front back k d (some d) (fun key' _ => table.keyEq key key')
    (fun p => .unlinkHalt (some p.cdr)) (fun _ _ => trivial) split past same none (.inl ⟨rfl, rfl⟩)
  refine ⟨_, looped, ?_⟩
  unfold weakAlistTableDelete
  dsimp only
  rw [found]

theorem Loops.adjoin (loops : Loops table table' es) (key : κ) (value : δ) :
    Loops table (adjoin table' key value) ((key, value) :: es) where
  kept := congrArg ((key, value) :: ·) loops.kept
  keyEq := loops.keyEq
  finalizer := loops.finalizer
  dropped := loops.dropped

def Unique (keyEq : κ → κ → Bool) (es : List (κ × δ)) : Prop :=
  (es.map Prod.fst).Pairwise fun a b => keyEq a b = false

theorem Unique.cons {keyEq : κ → κ → Bool} (unique : Unique keyEq es) (lacks : ∀ e ∈ es, keyEq key e.1 = false) :
    Unique keyEq ((key, d) :: es) := by
  apply List.pairwise_cons.mpr
  refine ⟨?_, unique⟩
  intro k member
  obtain ⟨e, present, rfl⟩ := List.mem_map.mp member
  exact lacks e present

theorem Unique.replace {keyEq : κ → κ → Bool} (unique : Unique keyEq (front ++ (k, d) :: back)) (value : δ) :
    Unique keyEq (front ++ (k, value) :: back) := by
  simpa [Unique] using unique

theorem Unique.sublist {keyEq : κ → κ → Bool} (unique : Unique keyEq es) (sub : es'.Sublist es) : Unique keyEq es' :=
  List.Pairwise.sublist (sub.map _) unique

theorem coe_split : ((front ++ (k, d) :: back : List (κ × δ)) : Multiset (κ × δ)) = (k, d) ::ₘ ↑(front ++ back) :=
  Multiset.coe_eq_coe.mpr List.perm_middle

def Refines (table : WeakAlistTable κ δ) (operation : Operation κ δ β) : Prop :=
  ∃ table' es answer, perform table operation = (table', answer) ∧ Loops table table' es ∧
    Performs table.keyEq (entries table.alist) operation answer es ∧
    (Unique table.keyEq (entries table.alist) → Unique table.keyEq es)

variable {ifNotFound : WeakAlistTable κ δ → WeakAlistTable κ δ × Answer κ δ β}

theorem refines_found {operation : Operation κ δ β} {ifFound : δ → δ × Answer κ δ β}
    (operates : perform table operation = operateOnTable table key ifFound ifNotFound)
    (split : entries table.alist = front ++ (k, d) :: back) (past : ∀ e ∈ front, table.keyEq key e.1 = false)
    (same : table.keyEq key k = true)
    (performs : ∀ rest : Multiset (κ × δ), Performs table.keyEq ((k, d) ::ₘ rest) operation (ifFound d).2
      ((k, (ifFound d).1) ::ₘ rest)) : Refines table operation := by
  obtain ⟨table', loops, operated⟩ := operateOnTable_found split past same
  refine ⟨table', _, _, operates.trans operated, loops, ?_, ?_⟩
  · rw [split, coe_split, coe_split]
    exact performs _
  · rw [split]
    intro unique
    exact unique.replace _

theorem refines_lacks {operation : Operation κ δ β} {ifFound : δ → δ × Answer κ δ β} {answer : Answer κ δ β}
    (operates : perform table operation = operateOnTable table key ifFound ifNotFound)
    (lacks : ∀ e ∈ entries table.alist, table.keyEq key e.1 = false)
    (performs : (∀ table', ifNotFound table' = (table', answer)) ∧
        Performs table.keyEq (entries table.alist) operation answer (entries table.alist) ∨
      ∃ value, (∀ table', ifNotFound table' = (adjoin table' key value, answer)) ∧
        Performs table.keyEq (entries table.alist) operation answer ((key, value) ::ₘ entries table.alist)) :
    Refines table operation := by
  obtain ⟨table', loops, operated⟩ := @operateOnTable_lacks κ δ _ table key ifFound ifNotFound lacks
  rcases performs with ⟨reads, performs⟩ | ⟨value, adds, performs⟩
  · exact ⟨table', _, answer, by rw [operates, operated, reads], loops, performs, fun unique => unique⟩
  · exact ⟨adjoin table' key value, _, answer, by rw [operates, operated, adds], loops.adjoin key value, performs,
      fun unique => unique.cons lacks⟩

theorem perform_refines (operation : Operation κ δ β) (others : operation ≠ .clear)
    (interns : ∀ key value, operation = .intern key value → ∃ e ∈ entries table.alist, table.keyEq key e.1 = true) :
    Refines table operation := by
  cases operation with
  | set key value =>
    have operates : perform table (.set key value : Operation κ δ β) = operateOnTable table key
        (fun _ => (value, .unspecific))
        fun table => (adjoin table key value, .unspecific) := rfl
    rcases lacks_or_found table.keyEq (entries table.alist) key with lacks | ⟨front, k, d, back, split, past, same⟩
    · exact refines_lacks operates lacks (.inr ⟨value, fun _ => rfl, .setNew lacks⟩)
    · exact refines_found operates split past same fun _ => .setOld rfl same
  | update key updater fail succeed =>
    have operates : perform table (.update key updater fail succeed : Operation κ δ β) = operateOnTable table key
        (fun datum => (updater (succeed.elim datum fun succeed => succeed datum), .unspecific))
        fun table => fail.elim (table, .badRange) fun datum => (adjoin table key (updater datum), .unspecific) := rfl
    rcases lacks_or_found table.keyEq (entries table.alist) key with lacks | ⟨front, k, d, back, split, past, same⟩
    · cases fail with
      | none => exact refines_lacks operates lacks (.inl ⟨fun _ => rfl, .updateFails lacks⟩)
      | some datum => exact refines_lacks operates lacks (.inr ⟨updater datum, fun _ => rfl, .updateNew lacks⟩)
    · exact refines_found operates split past same fun _ => .updateOld rfl same
  | intern key value =>
    have operates : perform table (.intern key value : Operation κ δ β) = operateOnTable table key
        (fun datum => (datum, .datum datum))
        fun table => (adjoin table key value, .unspecific) := rfl
    rcases lacks_or_found table.keyEq (entries table.alist) key with lacks | ⟨front, k, d, back, split, past, same⟩
    · obtain ⟨e, member, same⟩ := interns key value rfl
      exact absurd (same.symm.trans (lacks e member)) (by simp)
    · exact refines_found operates split past same fun _ => .internOld rfl same
  | delete key default =>
    rcases lacks_or_found table.keyEq (entries table.alist) key with lacks | ⟨front, k, d, back, split, past, same⟩
    · obtain ⟨table', loops, deleted⟩ := weakAlistTableDelete_lacks lacks default
      exact ⟨table', _, _, deleted, loops, .deleteNew lacks, fun unique => unique⟩
    · obtain ⟨table', loops, deleted⟩ := weakAlistTableDelete_found split past same default
      refine ⟨table', _, _, deleted, loops, ?_, ?_⟩
      · rw [split, coe_split]
        exact .deleteOld rfl same
      · rw [split]
        intro unique
        exact unique.sublist ((List.sublist_cons_self _ _).append_left front)
  | prune predicate =>
    refine ⟨_, _, _, rfl, weakAlistTablePrune_spec predicate, ?_, fun unique => unique.sublist List.filter_sublist⟩
    exact .prune
  | map procedure =>
    refine ⟨_, _, _, rfl, weakAlistTableMap_spec procedure, ?_, ?_⟩
    · exact .map
    · simp [Unique, Function.comp_def]
  | clean => exact ⟨_, _, _, rfl, weakAlistTableClean_spec, .clean, fun unique => unique⟩
  | clear => exact absurd rfl others
  | ref key fail succeed =>
    have operates : perform table (.ref key fail succeed : Operation κ δ β) = operateOnTable table key
        (fun datum => (datum, .datum (succeed.elim datum fun succeed => succeed datum)))
        fun table => (table, fail.elim .badRange .datum) := rfl
    rcases lacks_or_found table.keyEq (entries table.alist) key with lacks | ⟨front, k, d, back, split, past, same⟩
    · exact refines_lacks operates lacks (.inl ⟨fun _ => rfl, .refNew lacks⟩)
    · exact refines_found operates split past same fun _ => .refOld rfl same
  | contains key =>
    have operates : perform table (.contains key : Operation κ δ β) = operateOnTable table key
        (fun datum => (datum, .boolean true))
        fun table => (table, .boolean false) := rfl
    rcases lacks_or_found table.keyEq (entries table.alist) key with lacks | ⟨front, k, d, back, split, past, same⟩
    · exact refines_lacks operates lacks (.inl ⟨fun _ => rfl, .containsNew lacks⟩)
    · exact refines_found operates split past same fun _ => .containsOld rfl same
  | size =>
    obtain ⟨loops, counted⟩ := @weakAlistTableFold_spec κ δ _ table (fun _ _ acc => acc + 1) 0
    refine ⟨_, _, .number (Multiset.card (entries table.alist : Multiset (κ × δ))), ?_, loops, .size, fun unique => unique⟩
    rw [perform, weakAlistTableSize, counted]
    simp
  | fold kons knil =>
    obtain ⟨loops, folded⟩ := @weakAlistTableFold_spec κ δ _ table kons knil
    exact ⟨_, _, _, by rw [perform, folded], loops, .fold _ rfl, fun unique => unique⟩
  | toAlist =>
    obtain ⟨loops, folded⟩ := @weakAlistTableFold_spec κ δ _ table (fun key value acc => (key, value) :: acc) []
    refine ⟨_, _, .alist (entries table.alist).reverse, ?_, loops, .toAlist _ ?_, fun unique => unique⟩
    · rw [perform, weakAlistTableToAlist, folded]
      simp
    · exact (Multiset.coe_eq_coe.mpr (List.reverse_perm _)).symm

end MitScheme.Runtime.WeakPairs
