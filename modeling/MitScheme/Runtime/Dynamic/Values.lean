import MitScheme.Library.Scope
import MitScheme.Runtime.Dynamic.Parameters
import Mathlib.Data.List.Find

/-!
What parameters are for: every `parameterize*` is a frame of values, a program is in a scope of frames, and a parameter
has the value in the innermost frame that binds it. The pairs that each `parameterize*` made hold the values of its frame.
-/

namespace MitScheme.Runtime.Dynamic

section
open Library List Option

variable {V : Type}

namespace Parameter

def base : Parameter V → ℕ
  | general metadata => metadata
  | forwarder parameter _ _ => parameter.base

/-- The composed conversions to the values of the parameter under the forwarders. -/
def convertsTo : Parameter V → V → V
  | general _, value => value
  | forwarder parameter convertTo _, value => parameter.convertsTo (convertTo value)

def convertsFrom : Parameter V → V → V
  | general _, value => value
  | forwarder parameter _ convertFrom, value => convertFrom (parameter.convertsFrom value)

end Parameter

/-- The frames are the global one, and one for every `parameterize*`. A scope has its frames innermost first. -/
structure Scopes (V : Type) where
  procedures : ℕ → Option (Procedures V)
  metadataCount : ℕ
  values : Scope.Maps (Option ℕ) ℕ V
  activations : ℕ
  scope : List ℕ
  scopes : ℕ → Option (List ℕ)
  entering : Option ℕ

namespace Scopes

def start : Scopes V := ⟨fun _ => none, 0, fun _ _ => none, 0, [], fun n => if n = 0 then some [] else none, none⟩

def seen (a : Scopes V) (metadata : ℕ) : Option V := Scope.lookup a.values (a.scope.map some ++ [none]) metadata

def read (a : Scopes V) (parameter : Parameter V) : Option V :=
  (a.procedures parameter.base).bind fun procedures =>
    (a.seen parameter.base).map fun value => parameter.convertsFrom (procedures.getter value)

/-- The conversion of a new value before it is merged with the old one. -/
def conversion (a : Scopes V) (parameter : Parameter V) (value : V) : Option V :=
  (a.procedures parameter.base).map fun procedures => procedures.converter (parameter.convertsTo value)

def converted (a : Scopes V) (parameter : Parameter V) (value : V) : Option V :=
  (a.procedures parameter.base).bind fun procedures => (a.seen parameter.base).bind fun old =>
    (a.conversion parameter value).map fun new => procedures.merger old new

/-- The frame of a `parameterize*`, whose first binding of a parameter counts. -/
def frame (a : Scopes V) (newBindings : List (Parameter V × V)) (metadata : ℕ) : Option V :=
  (newBindings.find? fun binding => binding.1.base = metadata).bind fun binding => a.converted binding.1 binding.2

def assign (a : Scopes V) (metadata : ℕ) (value : V) : Scopes V :=
  { a with values := Scope.assign a.values (a.scope.map some ++ [none]) metadata value }

/-- The program comes to a point: that of the `parameterize*` that it enters, one where it has been, or a new one. -/
def arrive (a : Scopes V) (point : ℕ) : Scopes V :=
  match a.entering, a.scopes point with
  | some activation, _ =>
    { a with scope := activation :: a.scope
             scopes := fun n => if n = point then some (activation :: a.scope) else a.scopes n
             entering := none }
  | none, some scope => { a with scope := scope }
  | none, none => { a with scopes := fun n => if n = point then some a.scope else a.scopes n }

def step (a : Scopes V) (event : Event V) (point : ℕ) : Scopes V :=
  match event with
  | .makeParameter metadata =>
    { a with procedures := fun m => if m = a.metadataCount then some metadata.toProcedures else a.procedures m
             metadataCount := a.metadataCount + 1
             values := Scope.define a.values none a.metadataCount metadata.value }
  | .parameterize newBindings =>
    { a with values := fun f => if f = some a.activations then a.frame newBindings else a.values f
             activations := a.activations + 1
             entering := some a.activations }
  | .write parameter newValue =>
    match (a.procedures parameter.base).bind fun procedures => procedures.setter, a.converted parameter newValue with
    | some setter, some value => (setter value).foldl (fun a value => a.assign parameter.base value) a
    | _, _ => a
  | .control _ | .swap => a.arrive point

end Scopes

end

open Library

variable {V : Type} {s s' : State V} {a : Scopes V} {fresh : ℕ → List ℕ} {metadata t : ℕ} {scope : List ℕ}

structure Agrees (s : State V) (a : Scopes V) (fresh : ℕ → List ℕ) : Prop where
  procedures : ∀ m, a.procedures m = (s.metadata m).map fun data => data.toProcedures
  metadataCount : a.metadataCount = s.metadataCount
  isMade : ∀ m < s.metadataCount, (s.metadata m).isSome
  outer : ∀ m, a.values none m = (s.metadata m).map fun data => data.value
  activations : a.activations = s.activations
  frames : ∀ t < s.activations, ∀ m,
    a.values (some t) m = ((fresh t).find? (s.isBinding m)).bind fun c => (s.cells c).map Prod.snd
  made : ∀ t < s.activations, ∀ c ∈ fresh t, c < s.cellCount
  apart : ∀ t < s.activations, ∀ t' < s.activations, ∀ c, c ∈ fresh t → c ∈ fresh t' → t = t'

/-- The bindings are the pairs of the frames of the scope. -/
structure Current (s : State V) (a : Scopes V) (fresh : ℕ → List ℕ) : Prop where
  bindings : s.bindings = a.scope.flatMap fresh
  active : ∀ t ∈ a.scope, t < s.activations

theorem isBinding_iff {cell : ℕ} : s.isBinding metadata cell = true ↔ ∃ value, s.cells cell = some (metadata, value) := by
  unfold State.isBinding
  cases s.cells cell with
  | none => simp
  | some pair => simp [Prod.ext_iff]

section
variable (agrees : Agrees s a fresh)
include agrees

theorem Agrees.finds (active : ∀ t ∈ scope, t < s.activations) (m : ℕ) :
    (∃ t ∈ scope, ∃ cell, (scope.flatMap fresh).find? (s.isBinding m) = some cell ∧
      (fresh t).find? (s.isBinding m) = some cell ∧
      Scope.nearest a.values (scope.map some ++ [none]) m = some (some t)) ∨
    (scope.flatMap fresh).find? (s.isBinding m) = none ∧
      Scope.nearest a.values (scope.map some ++ [none]) m = Scope.nearest a.values [none] m := by
  induction scope with
  | nil => exact .inr ⟨rfl, rfl⟩
  | cons t scope ih =>
    obtain ⟨inside, active⟩ := List.forall_mem_cons.mp active
    have frame := agrees.frames t inside m
    rw [List.flatMap_cons, List.find?_append, List.map_cons, List.cons_append]
    cases found : (fresh t).find? (s.isBinding m) with
    | some cell =>
      obtain ⟨value, pair⟩ := isBinding_iff.mp (List.find?_some found)
      rw [found] at frame
      refine .inl ⟨t, List.mem_cons_self, cell, rfl, found, Scope.nearest_cons_of_bound ?_⟩
      simp [frame, pair]
    | none =>
      rw [found] at frame
      rw [Scope.nearest_cons_of_unbound frame]
      rcases ih active with ⟨t', member, cell, found⟩ | nothing
      · exact .inl ⟨t', List.mem_cons_of_mem t member, cell, found⟩
      · exact .inr nothing

section
variable (current : Current s a fresh)
include current

theorem getValue_eq (m : ℕ) : s.getValue m = a.seen m := by
  unfold State.getValue State.binding Scopes.seen
  rw [current.bindings]
  rcases agrees.finds current.active m with ⟨t, member, cell, found, inFrame, near⟩ | ⟨nothing, near⟩
  · rw [found, Scope.lookup_eq near, agrees.frames t (current.active t member) m, inFrame]
    rfl
  · have outer := agrees.outer m
    rw [nothing, Scope.lookup, near, Scope.nearest_singleton]
    cases global : a.values none m with
    | none => rw [global] at outer; exact outer.symm
    | some value => rw [global] at outer; exact outer.symm.trans global.symm

theorem read_eq (parameter : Parameter V) : s.read parameter = a.read parameter := by
  induction parameter with
  | general m =>
    rw [State.read, Scopes.read, Parameter.base, agrees.procedures, getValue_eq agrees current]
    cases s.metadata m <;> rfl
  | forwarder parameter convertTo convertFrom ih =>
    rw [State.read, ih, Scopes.read, Scopes.read, Parameter.base]
    cases a.procedures parameter.base <;> cases a.seen parameter.base <;> rfl

theorem createBinding_eq (parameter : Parameter V) (value : V) :
    s.createBinding parameter value = (a.converted parameter value).map fun converted => (parameter.base, converted) := by
  induction parameter generalizing value with
  | general m =>
    rw [State.createBinding, State.convert, Scopes.converted, Scopes.conversion, Parameter.base, agrees.procedures,
      getValue_eq agrees current]
    cases s.metadata m <;> cases a.seen m <;> rfl
  | forwarder parameter convertTo convertFrom ih => exact ih (convertTo value)

theorem setValue_agrees (m : ℕ) (value : V) :
    Agrees (s.setValue m value) (a.assign m value) fresh ∧ Current (s.setValue m value) (a.assign m value) fresh := by
  have found := agrees.finds current.active m
  rw [← current.bindings] at found
  unfold State.setValue State.binding Scopes.assign Scope.assign
  rcases found with ⟨t, member, cell, found, inFrame, near⟩ | ⟨nothing, near⟩
  · rw [found, near]
    obtain ⟨old, pair⟩ := isBinding_iff.mp (List.find?_some inFrame)
    -- The pair keeps its metadata.
    have same : ∀ m', State.isBinding { s with cells := fun c => if c = cell then some (m, value) else s.cells c } m' =
        s.isBinding m' := by
      intro m'
      funext c
      unfold State.isBinding
      dsimp only
      by_cases here : c = cell
      · rw [if_pos here, here, pair]
        rfl
      · rw [if_neg here]
    refine ⟨⟨agrees.procedures, agrees.metadataCount, agrees.isMade, agrees.outer, agrees.activations, ?_, agrees.made, agrees.apart⟩,
      current.bindings, current.active⟩
    intro t' inside m'
    dsimp only
    rw [same]
    unfold Scope.set
    by_cases here : some t' = some t ∧ m' = m
    · obtain ⟨sameFrame, rfl⟩ := here
      obtain rfl := Option.some.inj sameFrame
      rw [inFrame]
      simp
    · rw [if_neg here, agrees.frames t' inside m']
      cases found' : (fresh t').find? (s.isBinding m') with
      | none => rfl
      | some c =>
        have other : c ≠ cell := by
          rintro rfl
          obtain ⟨_, pair'⟩ := isBinding_iff.mp (List.find?_some found')
          have sameFrame := agrees.apart t' inside t (current.active t member) c (List.mem_of_find?_eq_some found')
            (List.mem_of_find?_eq_some inFrame)
          have sameName := congrArg Prod.fst (Option.some.inj (pair'.symm.trans pair))
          exact here ⟨congrArg some sameFrame, sameName⟩
        simp [other]
  · rw [nothing, near, Scope.nearest_singleton, agrees.outer]
    refine ⟨⟨?_, agrees.metadataCount, ?_, ?_, agrees.activations, ?_, agrees.made, agrees.apart⟩, ?_, current.active⟩
    · intro m'
      dsimp only
      by_cases here : m' = m
      · rw [if_pos here, Option.map_map]
        exact agrees.procedures m'
      · rw [if_neg here]
        exact agrees.procedures m'
    · intro m' inside
      have made := agrees.isMade m' inside
      dsimp only
      split
      · rwa [Option.isSome_map]
      · exact made
    · intro m'
      have outer := agrees.outer m'
      cases made : s.metadata m <;> by_cases here : m' = m <;>
        simp only [Option.map_none, Option.isSome_none, Option.map_some, Option.isSome_some, Scope.set, here, made, true_and,
          if_true, if_false, Bool.false_eq_true] at outer ⊢ <;> exact outer
    · intro t inside m'
      cases s.metadata m <;> exact agrees.frames t inside m'
    · exact current.bindings

theorem foldl_setValue_agrees (m : ℕ) (values : List V) :
    Agrees (values.foldl (fun s value => s.setValue m value) s) (values.foldl (fun a value => a.assign m value) a) fresh ∧
      Current (values.foldl (fun s value => s.setValue m value) s) (values.foldl (fun a value => a.assign m value) a) fresh := by
  induction values generalizing s a with
  | nil => exact ⟨agrees, current⟩
  | cons value values ih =>
    obtain ⟨agrees', current'⟩ := setValue_agrees agrees current m value
    exact ih agrees' current'

end

end

variable {parameter : Parameter V} {newValue : V} {made : State V} {new : List ℕ}

theorem write_spec (agrees : Agrees s a fresh) (current : Current s a fresh)
    (written : s.write parameter newValue = some s') : ∃ setter value,
      ((a.procedures parameter.base).bind fun procedures => procedures.setter) = some setter ∧
      a.converted parameter newValue = some value ∧
      s' = (setter value).foldl (fun s value => s.setValue parameter.base value) s := by
  induction parameter generalizing newValue with
  | general m =>
    obtain ⟨data, found, written⟩ := Option.bind_eq_some_iff.mp written
    obtain ⟨setter, settable, written⟩ := Option.bind_eq_some_iff.mp written
    obtain ⟨value, converted, rfl⟩ := Option.map_eq_some_iff.mp written
    have procedures := agrees.procedures m
    rw [found] at procedures
    refine ⟨setter, value, ?_, ?_, rfl⟩
    · rw [Parameter.base, procedures]
      exact settable
    · have bound := createBinding_eq agrees current (.general m) newValue
      rw [State.createBinding, converted] at bound
      obtain ⟨value', converted', same⟩ := Option.map_eq_some_iff.mp bound.symm
      obtain ⟨-, rfl⟩ := Prod.mk.inj same
      exact converted'
  | forwarder parameter convertTo convertFrom ih =>
    rw [State.write] at written
    split at written
    · exact ih written
    · exact nomatch written

theorem write_agrees (agrees : Agrees s a fresh) (current : Current s a fresh)
    (written : s.write parameter newValue = some s') (point : ℕ) :
    Agrees s' (a.step (.write parameter newValue) point) fresh ∧ Current s' (a.step (.write parameter newValue) point) fresh := by
  obtain ⟨setter, value, settable, converted, rfl⟩ := write_spec agrees current written
  rw [Scopes.step, settable, converted]
  exact foldl_setValue_agrees agrees current parameter.base (setter value)

theorem setValue_kept (m : ℕ) (value : V) : (s.setValue m value).wind = s.wind ∧ (s.setValue m value).swapping = s.swapping ∧
    (s.setValue m value).bindings = s.bindings ∧ (s.setValue m value).temp = s.temp := by
  unfold State.setValue
  split <;> exact ⟨rfl, rfl, rfl, rfl⟩

theorem foldl_setValue_kept (m : ℕ) (values : List V) : (values.foldl (fun s value => s.setValue m value) s).wind = s.wind ∧
    (values.foldl (fun s value => s.setValue m value) s).swapping = s.swapping ∧
    (values.foldl (fun s value => s.setValue m value) s).bindings = s.bindings ∧
    (values.foldl (fun s value => s.setValue m value) s).temp = s.temp := by
  induction values generalizing s with
  | nil => exact ⟨rfl, rfl, rfl, rfl⟩
  | cons value values ih =>
    obtain ⟨wind, swapping, bindings, temp⟩ := @ih (s.setValue m value)
    obtain ⟨wind', swapping', bindings', temp'⟩ := @setValue_kept V s m value
    exact ⟨wind.trans wind', swapping.trans swapping', bindings.trans bindings', temp.trans temp'⟩

theorem write_kept (written : s.write parameter newValue = some s') :
    s'.wind = s.wind ∧ s'.swapping = s.swapping ∧ s'.bindings = s.bindings ∧ s'.temp = s.temp := by
  induction parameter generalizing newValue with
  | general m =>
    obtain ⟨data, -, written⟩ := Option.bind_eq_some_iff.mp written
    obtain ⟨setter, -, written⟩ := Option.bind_eq_some_iff.mp written
    obtain ⟨value, -, rfl⟩ := Option.map_eq_some_iff.mp written
    exact foldl_setValue_kept m (setter value)
  | forwarder parameter convertTo convertFrom ih =>
    rw [State.write] at written
    split at written
    · exact ih written
    · exact nomatch written

theorem foldl_assign_kept (m : ℕ) (values : List V) : (values.foldl (fun a value => a.assign m value) a).scope = a.scope ∧
    (values.foldl (fun a value => a.assign m value) a).scopes = a.scopes ∧
    (values.foldl (fun a value => a.assign m value) a).entering = a.entering ∧
    (values.foldl (fun a value => a.assign m value) a).activations = a.activations := by
  induction values generalizing a with
  | nil => exact ⟨rfl, rfl, rfl, rfl⟩
  | cons value values ih => exact @ih (a.assign m value)

theorem scopes_write (parameter : Parameter V) (newValue : V) (point : ℕ) :
    (a.step (.write parameter newValue) point).scope = a.scope ∧ (a.step (.write parameter newValue) point).scopes =
    a.scopes ∧ (a.step (.write parameter newValue) point).entering =
    a.entering ∧ (a.step (.write parameter newValue) point).activations = a.activations := by
  rw [Scopes.step]
  split
  · exact foldl_assign_kept parameter.base _
  · exact ⟨rfl, rfl, rfl, rfl⟩

theorem makeParameter_agrees (agrees : Agrees s a fresh) (data : Metadata V) (point : ℕ) :
    Agrees { s with metadata := fun m => if m = s.metadataCount then some data else s.metadata m
                    metadataCount := s.metadataCount + 1 } (a.step (.makeParameter data) point) fresh := by
  refine ⟨?_, congrArg (· + 1) agrees.metadataCount, ?_, ?_, agrees.activations, ?_, agrees.made, agrees.apart⟩
  · intro m
    rw [Scopes.step, agrees.metadataCount]
    dsimp only
    split
    · rfl
    · exact agrees.procedures m
  · intro m inside
    dsimp only at inside ⊢
    split
    · rfl
    · rename_i isOld
      exact agrees.isMade m (lt_of_le_of_ne (Nat.le_of_lt_succ inside) isOld)
  · intro m
    rw [Scopes.step, agrees.metadataCount]
    simp only [Scope.define, Scope.set, true_and]
    split
    · rfl
    · exact agrees.outer m
  · intro t inside m
    exact agrees.frames t inside m

structure Made (s made : State V) (new : List ℕ) : Prop where
  only : made = { s with cells := made.cells, cellCount := made.cellCount }
  cells : ∀ c < s.cellCount, made.cells c = s.cells c
  more : s.cellCount ≤ made.cellCount
  new : ∀ c ∈ new, s.cellCount ≤ c ∧ c < made.cellCount

theorem Made.agrees (made' : Made s made new) (agrees : Agrees s a fresh)
    (current : Current s a fresh) : Agrees made a fresh ∧ Current made a fresh := by
  obtain ⟨only, cells, more, -⟩ := made'
  have metadata := congrArg State.metadata only
  have counts := congrArg State.metadataCount only
  have activations := congrArg State.activations only
  have bindings := congrArg State.bindings only
  refine ⟨⟨metadata ▸ agrees.procedures, counts ▸ agrees.metadataCount, metadata ▸ counts ▸ agrees.isMade, metadata ▸ agrees.outer,
    activations ▸ agrees.activations, ?_, ?_, activations ▸ agrees.apart⟩, bindings ▸ current.bindings,
    activations ▸ current.active⟩
  · rw [activations]
    intro t inside m
    have same : ∀ c ∈ fresh t, made.cells c = s.cells c := fun c member => cells c (agrees.made t inside c member)
    have finds : (fresh t).find? (made.isBinding m) = (fresh t).find? (s.isBinding m) := by
      apply List.find?_congr
      intro c member
      rw [State.isBinding, State.isBinding, same c member]
    rw [finds, agrees.frames t inside m]
    cases found : (fresh t).find? (s.isBinding m) with
    | none => rfl
    | some c =>
      rw [Option.bind_some, Option.bind_some, same c (List.mem_of_find?_eq_some found)]
  · rw [activations]
    intro t inside c member
    exact (agrees.made t inside c member).trans_le more

theorem createBindings_spec (agrees : Agrees s a fresh) (current : Current s a fresh) {newBindings : List (Parameter V × V)}
    {bindings : List ℕ} (created : s.createBindings newBindings = some (made, bindings)) :
    ∃ new, bindings = new ++ s.bindings ∧ Made s made new ∧ ∀ m,
      a.frame newBindings m = (new.find? (made.isBinding m)).bind fun c => (made.cells c).map Prod.snd := by
  induction newBindings generalizing made bindings with
  | nil =>
    obtain ⟨rfl, rfl⟩ := Prod.mk.inj (Option.some.inj created)
    exact ⟨[], rfl, ⟨rfl, fun _ _ => rfl, le_refl _, nofun⟩, fun _ => rfl⟩
  | cons binding rest ih =>
    obtain ⟨parameter, value⟩ := binding
    obtain ⟨⟨earlier, bindings'⟩, created', created⟩ := Option.bind_eq_some_iff.mp created
    obtain ⟨pair, made', same⟩ := Option.map_eq_some_iff.mp created
    obtain ⟨rfl, rfl⟩ := Prod.mk.inj same
    obtain ⟨new, rfl, madeEarlier, frame⟩ := ih created'
    obtain ⟨agrees', current'⟩ := madeEarlier.agrees agrees current
    rw [createBinding_eq agrees' current'] at made'
    obtain ⟨converted, conversion, rfl⟩ := Option.map_eq_some_iff.mp made'
    refine ⟨earlier.cellCount :: new, rfl, ⟨?_, ?_, Nat.le_succ_of_le madeEarlier.more, ?_⟩, ?_⟩
    · rw [madeEarlier.only]
    · intro c inside
      have other : c ≠ earlier.cellCount := (inside.trans_le madeEarlier.more).ne
      exact (if_neg other).trans (madeEarlier.cells c inside)
    · refine List.forall_mem_cons.mpr ⟨⟨madeEarlier.more, Nat.lt_succ_self _⟩, ?_⟩
      intro c member
      exact ⟨(madeEarlier.new c member).1, Nat.lt_succ_of_lt (madeEarlier.new c member).2⟩
    · intro m
      have frame' := frame m
      have kept : ∀ c ∈ new, c ≠ earlier.cellCount := fun c member => ne_of_lt (madeEarlier.new c member).2
      unfold Scopes.frame at frame' ⊢
      rw [List.find?_cons, List.find?_cons]
      by_cases here : parameter.base = m
      · subst here
        simp [State.isBinding, conversion]
      · have finds : new.find? (State.isBinding { earlier with
            cells := fun c => if c = earlier.cellCount then some (parameter.base, converted) else earlier.cells c
            cellCount := earlier.cellCount + 1 } m) = new.find? (earlier.isBinding m) := by
          apply List.find?_congr
          intro c member
          simp [State.isBinding, if_neg (kept c member)]
        simp only [State.isBinding, here, if_true, Option.any_some, decide_false] at finds ⊢
        rw [frame', finds]
        cases found : new.find? (earlier.isBinding m) with
        | none => rfl
        | some c =>
          simp [kept c (List.mem_of_find?_eq_some found)]

/-- The pairs of the `parameterize*` that made the latest ones. -/
def extended (fresh : ℕ → List ℕ) (activation : ℕ) (new : List ℕ) (t : ℕ) : List ℕ := if t = activation then new else fresh t

theorem extended_new : extended fresh t new t = new := if_pos rfl

theorem extended_old {activation : ℕ} (isOld : t < activation) : extended fresh activation new t = fresh t :=
  if_neg (isOld.ne)

theorem flatMap_extended {activation : ℕ} (old : ∀ t ∈ scope, t < activation) :
    scope.flatMap (extended fresh activation new) = scope.flatMap fresh := by
  rw [List.flatMap_def, List.flatMap_def, List.map_congr_left fun t member => extended_old (old t member)]

theorem Made.parameterize {newBindings : List (Parameter V × V)} (isMade : Made s made new)
    (agrees : Agrees s a fresh) (current : Current s a fresh)
    (frame : ∀ m, a.frame newBindings m = (new.find? (made.isBinding m)).bind fun c => (made.cells c).map Prod.snd)
    (point : ℕ) : Agrees { made with activations := made.activations + 1 } (a.step (.parameterize newBindings) point)
      (extended fresh made.activations new) := by
  obtain ⟨agrees', -⟩ := isMade.agrees agrees current
  have activations := congrArg State.activations isMade.only
  have earlier : ∀ t < made.activations, ∀ c ∈ fresh t, c ∉ new := by
    intro t inside c member inNew
    exact lt_irrefl _ ((agrees.made t (activations ▸ inside) c member).trans_le (isMade.new c inNew).1)
  have cases : ∀ t < made.activations + 1, t = made.activations ∨ t < made.activations := fun t inside => by omega
  refine ⟨agrees'.procedures, agrees'.metadataCount, agrees'.isMade, agrees'.outer, congrArg (· + 1) agrees'.activations,
    ?_, ?_, ?_⟩
  · intro t inside m
    have values : (a.step (.parameterize newBindings) point).values (some t) =
        if t = made.activations then a.frame newBindings else a.values (some t) := by
      rw [Scopes.step, agrees'.activations]
      simp
    rw [values]
    rcases cases t inside with rfl | isOld
    · rw [if_pos rfl, extended_new]
      exact frame m
    · rw [if_neg (isOld.ne), extended_old isOld]
      exact agrees'.frames t isOld m
  · intro t inside c member
    rcases cases t inside with rfl | isOld
    · rw [extended_new] at member
      exact (isMade.new c member).2
    · rw [extended_old isOld] at member
      exact agrees'.made t isOld c member
  · intro t inside t' inside' c member member'
    rcases cases t inside with rfl | isOld
    · rcases cases t' inside' with rfl | isOld'
      · rfl
      · rw [extended_new] at member
        rw [extended_old isOld'] at member'
        exact absurd member (earlier t' isOld' c member')
    · rw [extended_old isOld] at member
      rcases cases t' inside' with rfl | isOld'
      · rw [extended_new] at member'
        exact absurd member' (earlier t isOld c member)
      · rw [extended_old isOld'] at member'
        exact agrees'.apart t isOld t' isOld' c member member'

end MitScheme.Runtime.Dynamic
