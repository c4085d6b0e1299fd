import MitScheme.Runtime.StateSpace.Points

/-!
The parameters of `dynamic.scm`: bindings that `parameterize*` swaps in and out through the global
state space, and forwarders. Conversions have no effects; a setter is the list of the values that it
gives to its first argument.
-/

namespace MitScheme.Runtime.Dynamic

open StateSpaces

variable {V : Type}

structure Procedures (V : Type) where
  converter : V → V
  merger : V → V → V
  getter : V → V
  setter : Option (V → List V)

structure Metadata (V : Type) extends Procedures V where
  value : V

def defaultParameterConverter (value : V) : V := value

def defaultParameterMerger (_oldValue newValue : V) : V := newValue

def defaultParameterGetter (value : V) : V := value

def defaultParameterSetter (value : V) : List V := [value]

/-- `make-general-parameter`. -/
def makeMetadata (initialValue : V) (converter : V → V) (merger : V → V → V) (getter : V → V)
    (setter : Option (V → List V)) : Metadata V :=
  ⟨⟨converter, merger, getter, setter⟩, converter initialValue⟩

def makeParameterInternal (initialValue : V) (converter : Option (V → V)) (settable : Bool) : Metadata V :=
  makeMetadata initialValue (converter.getD defaultParameterConverter) defaultParameterMerger defaultParameterGetter
    (if settable then some defaultParameterSetter else none)

def makeUnsettableParameter (initialValue : V) (converter : Option (V → V)) : Metadata V :=
  makeParameterInternal initialValue converter false

def makeSettableParameter (initialValue : V) (converter : Option (V → V)) : Metadata V :=
  makeParameterInternal initialValue converter true

/-- A parameter with the metadata at an address, or a forwarder. -/
inductive Parameter (V : Type) where
  | general (metadata : ℕ)
  | forwarder (parameter : Parameter V) (convertTo convertFrom : V → V)

/-- A thunk of a state point: the `swap!` of some `parameterize*`, or one that does anything else. -/
inductive Thunk where
  | swap (activation : ℕ)
  | program (thunk : ℕ)
deriving DecidableEq, Repr

/-- The bindings are addresses of pairs of a metadata address and a value. Every `parameterize*` has its own `temp`.
When a `swap!` is called, it runs and returns before anything else happens. -/
structure State (V : Type) where
  wind : System Thunk
  swapping : Option ℕ
  bindings : List ℕ
  temp : ℕ → List ℕ
  activations : ℕ
  cells : ℕ → Option (ℕ × V)
  cellCount : ℕ
  metadata : ℕ → Option (Metadata V)
  metadataCount : ℕ

/-- The state space that `swap!` is put in, `state-space:global`. -/
def globalSpace : ℕ := 0

def start : State V :=
  ⟨⟨emptyStore.makeStateSpace, [], [], []⟩, none, [], fun _ => [], 0, fun _ => none, 0, fun _ => none, 0⟩

namespace State

def isBinding (s : State V) (metadata : ℕ) (cell : ℕ) : Bool := (s.cells cell).any fun pair => pair.1 = metadata

/-- The pair that `assq` finds. -/
def binding (s : State V) (metadata : ℕ) : Option ℕ := s.bindings.find? (s.isBinding metadata)

def getValue (s : State V) (metadata : ℕ) : Option V :=
  match s.binding metadata with
  | some cell => (s.cells cell).map Prod.snd
  | none => (s.metadata metadata).map Metadata.value

def setValue (s : State V) (metadata : ℕ) (value : V) : State V :=
  match s.binding metadata with
  | some cell => { s with cells := fun c => if c = cell then some (metadata, value) else s.cells c }
  | none => { s with metadata := fun m =>
      if m = metadata then (s.metadata m).map fun data => { data with value := value } else s.metadata m }

def convert (s : State V) (metadata : ℕ) (value : V) : Option V :=
  (s.metadata metadata).bind fun data => (s.getValue metadata).map fun old => data.merger old (data.converter value)

def read (s : State V) : Parameter V → Option V
  | .general metadata => (s.metadata metadata).bind fun data => (s.getValue metadata).map data.getter
  | .forwarder parameter _ convertFrom => (s.read parameter).map convertFrom

def skipForwarders (s : State V) : Parameter V → Option (Metadata V)
  | .general metadata => s.metadata metadata
  | .forwarder parameter _ _ => s.skipForwarders parameter

/-- A parameter that is called with a new value; one without a setter takes none. -/
def write (s : State V) : Parameter V → V → Option (State V)
  | .general metadata, newValue => (s.metadata metadata).bind fun data => data.setter.bind fun setter =>
      (s.convert metadata newValue).map fun value => (setter value).foldl (fun s value => s.setValue metadata value) s
  | .forwarder parameter convertTo convertFrom, newValue =>
    match (s.skipForwarders (.forwarder parameter convertTo convertFrom)).bind fun data => data.setter with
    | some _ => s.write parameter (convertTo newValue)
    | none => none

def createBinding (s : State V) : Parameter V → V → Option (ℕ × V)
  | .general metadata, value => (s.convert metadata value).map fun converted => (metadata, converted)
  | .forwarder parameter convertTo _, value => s.createBinding parameter (convertTo value)

/-- The `fold-right` of `parameterize*`, which makes the last pair first. -/
def createBindings (s : State V) : (newBindings : List (Parameter V × V)) → Option (State V × List ℕ)
  | [] => some (s, s.bindings)
  | (parameter, value) :: rest => (s.createBindings rest).bind fun (made, bindings) =>
      (made.createBinding parameter value).map fun pair =>
        ({ made with cells := fun c => if c = made.cellCount then some pair else made.cells c
                     cellCount := made.cellCount + 1 }, made.cellCount :: bindings)

/-- `parameter-converter`, which asks for the converter of the same parameter again where it is a forwarder. -/
def parameterConverter (s : State V) : (fuel : ℕ) → Parameter V → Option (V → V)
  | 0, _ => none
  | _ + 1, .general metadata => (s.metadata metadata).map fun data => data.converter
  | fuel + 1, .forwarder parameter convertTo convertFrom =>
    (s.parameterConverter fuel (.forwarder parameter convertTo convertFrom)).map fun converter2 value =>
      converter2 (convertTo value)

/-- The variable and the `temp` of a `parameterize*` change places. -/
def swap (s : State V) (activation : ℕ) : State V :=
  { s with bindings := s.temp activation
           temp := fun t => if t = activation then s.bindings else s.temp t }

/-- The state spaces take a step, in which they may call a `swap!`. -/
def windStep (s : State V) (event : StateSpaces.Event Thunk) : Option (State V) :=
  (step s.wind event).map fun wind =>
    { s with wind := wind
             swapping := match wind.log.drop s.wind.log.length with
               | [.ran (.swap activation)] => some activation
               | _ => none }

/-- The `swap!` that a step has called. -/
def swapped (entries : List (Entry Thunk)) : Option ℕ :=
  match entries with
  | [.ran (.swap activation)] => some activation
  | _ => none

end State

/-- A program makes a parameter, enters a `parameterize*`, calls a parameter with a new value, or does something with the
state spaces; or the `swap!` that was called runs. -/
inductive Event (V : Type) where
  | makeParameter (metadata : Metadata V)
  | parameterize (newBindings : List (Parameter V × V))
  | write (parameter : Parameter V) (newValue : V)
  | control (event : StateSpaces.Event Thunk)
  | swap

/-- The `swap!` thunks are only in the hands of `parameterize*`. -/
def ofProgram : StateSpaces.Event Thunk → Bool
  | .execute _ (.program _) (.program _) => true
  | .execute _ _ _ => false
  | _ => true

def step (s : State V) (event : Event V) : Option (State V) :=
  match s.swapping, event with
  | some activation, .swap => (s.swap activation).windStep .returns
  | none, .makeParameter metadata =>
    some { s with metadata := fun m => if m = s.metadataCount then some metadata else s.metadata m
                  metadataCount := s.metadataCount + 1 }
  | none, .parameterize newBindings => (s.createBindings newBindings).bind fun (made, temp) =>
      { made with temp := fun t => if t = made.activations then temp else made.temp t
                  activations := made.activations + 1 }.windStep
        (.execute globalSpace (.swap made.activations) (.swap made.activations))
  | none, .write parameter newValue => s.write parameter newValue
  | none, .control event => if ofProgram event then s.windStep event else none
  | _, _ => none

end MitScheme.Runtime.Dynamic
