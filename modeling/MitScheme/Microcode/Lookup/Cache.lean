import MitScheme.Microcode.Lookup.Heap

/-!
Making caches and clones, moving references between them, and the entry points of `lookup.c`. Space is always
sufficient; `none` stands for a call that does not return.
-/

namespace MitScheme.Microcode.Lookup

def writeVariableCache (h : Heap) (cache : CacheId) (slot : SlotId) : Heap :=
  h.setSlot slot (.cache cache)

/-- `install_operator_cache`: the link is built from the current value of the cache. -/
def installOperatorCache (h : Heap) (cache : CacheId) (slot : SlotId) : Heap :=
  h.setSlot slot (.uuoLink (h.cache cache).value cache)

/-- The cache that assignment references hold: the clone when there is one. -/
def assignmentCache (h : Heap) (cache : CacheId) : CacheId :=
  (h.cache cache).clone.getD cache

def installCache (h : Heap) (cache : CacheId) (kind : ReferenceKind) (slot : SlotId) : Heap :=
  match kind with
  | .lookup => writeVariableCache h cache slot
  | .assignment => writeVariableCache h (assignmentCache h cache) slot
  | .operator => installOperatorCache h cache slot

/-- `install_cache` on each slot in turn. -/
def installAll (h : Heap) (cache : CacheId) (kind : ReferenceKind) (slots : List SlotId) : Heap :=
  slots.foldl (fun h slot => installCache h cache kind slot) h

def updateAssignmentReferences (h : Heap) (cache : CacheId) : Heap :=
  let palist := h.cacheReferences cache .assignment
  let h := installAll h cache .assignment ((entries palist).map Prod.snd)
  h.setCacheReferences cache .assignment (pruneReferences palist)

def makeCache (h : Heap) (value : Obj) (clone : Option CacheId) (references : ReferencesId) : CacheId × Heap :=
  (h.free, { h with free := h.free + 1 }.setCache h.free { value, clone, references })

def updateClone (h : Heap) (cache : CacheId) : Heap :=
  if h.cacheReferences cache .assignment ≠ [] ∧ h.cacheReferences cache .operator ≠ [] then
    match (h.cache cache).clone with
    | none =>
      let (clone, h) := makeCache h .expensive (some cache) (h.cache cache).references
      updateAssignmentReferences (h.setCacheClone cache (some clone)) cache
    | some _ => h
  else
    match (h.cache cache).clone with
    | none => h
    | some _ => updateAssignmentReferences (h.setCacheClone cache none) cache

def guaranteeCache (h : Heap) (cell : Cell) : Heap :=
  match getTrapKind (h.value cell) with
  | .compilerCached => h
  | _ =>
    let references := h.free
    let h := { h with free := h.free + 1, references := Function.update h.references references fun _ => [] }
    let (cache, h) := makeCache h (h.value cell) none references
    let trap := h.free
    let h := { h with free := h.free + 1 }.setTrapCache trap cache
    h.setValue cell (.compilerCached trap)

def cellCache (h : Heap) (cell : Cell) : Option CacheId :=
  match h.value cell with
  | .compilerCached trap => some (h.trapCache trap)
  | _ => none

/-- What `count_references` leaves behind; the number only serves the space check. -/
def countReferences (h : Heap) (cache : CacheId) : Heap :=
  h.setCacheReferences cache .operator (pruneReferences (h.cacheReferences cache .operator))

def updateUuoLinks (h : Heap) (cache : CacheId) (value : Obj) : Heap :=
  let h := countReferences h cache
  let h := updateClone (h.setCacheValue cache value) cache
  let palist := h.cacheReferences cache .operator
  let h := installAll h cache .operator ((entries palist).map Prod.snd)
  h.setCacheReferences cache .operator (pruneReferences palist)

/-- `move_all_references`: the whole list is appended to the destination's, names included. -/
def moveAllReferences (h : Heap) (source target : CacheId) (kind : ReferenceKind) : Heap :=
  let palist := h.cacheReferences source kind
  let h := installAll h target kind ((entries palist).map Prod.snd)
  let h := h.setCacheReferences target kind (h.cacheReferences target kind ++ pruneReferences palist)
  h.setCacheReferences source kind []

section
variable (P : Program)

/-- The blocks whose references move when `environment` gets or loses a binding. -/
def movable (environment : Env) (block : Block) : Bool :=
  moveRefPairP (P.blockEnvironment block) environment

/-- `move_ref_pairs`, which does not end when both caches are the same one and no reference that stays precedes one that
is pushed back. -/
def moveRefPairs (h : Heap) (source target : CacheId) (kind : ReferenceKind) (environment : Env)
    (symbol : Symbol) : Option Heap :=
  match findReferencesNamed (h.cacheReferences source kind) symbol with
  | none => some h
  | some prefs =>
    let (stay, moved) := splitPrefs (movable P environment) prefs
    if (h.cache source).references = (h.cache target).references then
      match liveSlots prefs with
      | first :: _ =>
        if movable P environment first.1 then none
        else
          some (installAll (h.setCacheReferences source kind
            (setReferencesNamed (h.cacheReferences source kind) symbol
              (moved.reverse.map referenceTo ++ stay))) target kind moved)
      | [] =>
        some (h.setCacheReferences source kind
          (setReferencesNamed (h.cacheReferences source kind) symbol stay))
    else
      let h := h.setCacheReferences source kind
        (setReferencesNamed (h.cacheReferences source kind) symbol stay)
      let h := h.setCacheReferences target kind
        (pushReferences (h.cacheReferences target kind) symbol moved)
      some (installAll h target kind moved)

def deleteRefPairs (h : Heap) (source : CacheId) (kind : ReferenceKind) (environment : Env) (symbol : Symbol) : Heap :=
  match findReferencesNamed (h.cacheReferences source kind) symbol with
  | none => h
  | some prefs =>
    h.setCacheReferences source kind (setReferencesNamed (h.cacheReferences source kind) symbol
      (splitPrefs (movable P environment) prefs).1)

/-- `update_cache_references`; `none` when a move does not end. -/
def updateCacheReferences (h : Heap) (source : CacheId) (target : Option Cell) (environment : Env)
    (symbol : Symbol) : Option Heap :=
  match target with
  | some cell =>
    let h := guaranteeCache h cell
    match cellCache h cell with
    | some target => do
      let h ← moveRefPairs P h source target .lookup environment symbol
      let h ← moveRefPairs P h source target .assignment environment symbol
      let h ← moveRefPairs P h source target .operator environment symbol
      some (updateClone (updateClone h target) source)
    | none => some h
  | none =>
    let h := deleteRefPairs P h source .lookup environment symbol
    let h := deleteRefPairs P h source .assignment environment symbol
    let h := deleteRefPairs P h source .operator environment symbol
    some (updateClone h source)

end

/-- What a reference of the given kind to `cache` should find in its slot. -/
def installed (h : Heap) (cache : CacheId) : ReferenceKind → Slot
  | .lookup => .cache cache
  | .assignment => .cache (assignmentCache h cache)
  | .operator => .uuoLink (h.cache cache).value cache

theorem installCache_eq (h : Heap) (cache : CacheId) (kind : ReferenceKind) (slot : SlotId) :
    installCache h cache kind slot = h.setSlot slot (installed h cache kind) := by
  cases kind <;> rfl

theorem installed_congr {h h' : Heap} {cache : CacheId} (same : h'.cache cache = h.cache cache)
    (kind : ReferenceKind) : installed h' cache kind = installed h cache kind := by
  simp [installed, assignmentCache, same]

theorem installAll_eq (h : Heap) (cache : CacheId) (kind : ReferenceKind) (slots : List SlotId) :
    installAll h cache kind slots =
      { h with slot := fun slot => if slot ∈ slots then installed h cache kind else h.slot slot } := by
  induction slots generalizing h with
  | nil => simp [installAll]
  | cons first rest ih =>
    change installAll (installCache h cache kind first) cache kind rest = _
    have same : installed (h.setSlot first (installed h cache kind)) cache kind = installed h cache kind :=
      installed_congr rfl kind
    rw [ih, installCache_eq, same]
    simp only [Heap.setSlot, List.mem_cons, Heap.mk.injEq, true_and, and_true]
    funext slot
    by_cases here : slot = first
    · simp [here]
    · simp [here]

theorem installAll_cacheReferences (h : Heap) (cache : CacheId) (kind : ReferenceKind)
    (slots : List SlotId) : (installAll h cache kind slots).cacheReferences = h.cacheReferences := by
  rw [installAll_eq]
  rfl

theorem updateAssignmentReferences_eq (h : Heap) (cache : CacheId) :
    updateAssignmentReferences h cache =
      { h with
        slot := fun slot =>
          if slot ∈ (entries (h.cacheReferences cache .assignment)).map Prod.snd then
            .cache (assignmentCache h cache)
          else h.slot slot
        references := (h.setCacheReferences cache .assignment
          (pruneReferences (h.cacheReferences cache .assignment))).references } := by
  simp only [updateAssignmentReferences, installAll_eq]
  rfl

def scanExtension : List (Symbol × Nat) → Symbol → Option Cell
  | [], _ => none
  | (name, pair) :: rest, symbol =>
    if name = symbol then some (.binding pair) else scanExtension rest symbol

/-- The search of the parameters from position `index` on. -/
def scanParameters (h : Heap) (frame : Env) (symbol : Symbol) (findUnbound : Bool) :
    Nat → List Symbol → Option Cell
  | _, [] => none
  | index, name :: rest =>
    if name = symbol ∧ (findUnbound = true ∨ h.value (.argument frame index) ≠ .unbound) then
      some (.argument frame index)
    else scanParameters h frame symbol findUnbound (index + 1) rest

def scanProcedureBindings (P : Program) (h : Heap) (frame : Env) (symbol : Symbol) (findUnbound : Bool) : Option Cell :=
  scanParameters h frame symbol findUnbound 0 (P.parameters frame)

/-- The cell of `symbol` in `frame` itself. The source asserts that `frame` is not null. -/
def scanFrame (P : Program) (h : Heap) (frame : Env) (symbol : Symbol) (findUnbound : Bool) : Option Cell :=
  match frame with
  | .null => none
  | .global => some (.global symbol)
  | .procedure _ _ =>
    match h.extension frame with
    | some extension =>
      match scanExtension extension.bindings symbol with
      | some cell => some cell
      | none => scanProcedureBindings P h frame symbol findUnbound
    | none => scanProcedureBindings P h frame symbol findUnbound

/-- The binding cell of `symbol` and the frame that holds it; when there is none, the
outermost frame of the chain. -/
def findBindingCell (P : Program) (h : Heap) (environment : Env) (symbol : Symbol) : Option Cell × Env :=
  match environment with
  | .null => (none, .null)
  | .global => (some (.global symbol), .global)
  | .procedure id parent =>
    match scanFrame P h (.procedure id parent) symbol false with
    | some cell => (some cell, .procedure id parent)
    | none =>
      if parent.environmentP then findBindingCell P h parent symbol
      else (none, .procedure id parent)

structure SpaciousExtension extends Extension where
  room : bindings.length < capacity

def initialCapacity : Nat := 16

/-- `guarantee_extension_space`: a full extension is copied into one of twice the length, a
frame without one gets a new one. -/
def guaranteeExtensionSpace : Option Extension → SpaciousExtension
  | some extension =>
    if full : extension.bindings.length = extension.capacity then
      { bindings := extension.bindings
        capacity := 2 * extension.bindings.length
        fits := by omega
        roomy := by have := extension.roomy; omega
        room := by have := extension.roomy; omega }
    else
      { extension with room := Nat.lt_of_le_of_ne extension.fits full }
  | none =>
    { bindings := []
      capacity := initialCapacity
      fits := Nat.zero_le _
      roomy := by decide
      room := by decide }

def SpaciousExtension.push (extension : SpaciousExtension) (symbol : Symbol) (pair : Nat) : Extension where
  bindings := extension.bindings ++ [(symbol, pair)]
  capacity := extension.capacity
  fits := by
    rw [List.length_append]
    exact extension.room
  roomy := extension.roomy

/-- A new pair for `symbol`, stored behind the bindings in use. -/
def extendEnvironment (h : Heap) (frame : Env) (extension : SpaciousExtension) (symbol : Symbol)
    (value : Obj) : Cell × Heap :=
  let pair := h.free
  let h := { h with free := h.free + 1 }
  let h := h.setValue (.binding pair) (mapToUnassigned value)
  (.binding pair, h.setExtension frame (extension.push symbol pair))

inductive Code where
  | primDone
  | unboundVariable
  | unassignedVariable
  | macroBinding
  | illegalReferenceTrap
  | badFrame
  deriving DecidableEq, Repr

structure Result where
  code : Code
  value : Option Obj
  heap : Heap

def succeed (heap : Heap) (value : Option Obj) : Result := { code := .primDone, value, heap }

def fail (heap : Heap) (code : Code) : Result := { code, value := none, heap }

/-- The values that `unbind_variable` stores through `value_ret`. -/
def sharpF : Option Obj := some (.datum 0)

def sharpT : Option Obj := some (.datum 1)

/-- The reply to a lookup that has reached a value; `cached` handles a compiler-cached trap. -/
def lookupValue (value : Obj) : Code × Option Obj :=
  match getTrapKind value with
  | .nonTrap => (.primDone, some value)
  | .unassigned => (.unassignedVariable, none)
  | .unbound => (.unboundVariable, none)
  | .macroTrap => (.macroBinding, some value)
  | _ => (.illegalReferenceTrap, none)

def lookupVariableCache (h : Heap) (cache : CacheId) : Code × Option Obj :=
  lookupValue (h.cache cache).value

def assignVariableCache (h : Heap) (cache : CacheId) (value : Obj) (force : Bool) : Result :=
  let oldValue := (h.cache cache).value
  let assign : Result :=
    if h.cacheReferences cache .operator ≠ [] then
      succeed (updateUuoLinks h cache (mapToUnassigned value)) (mapFromUnassigned oldValue)
    else succeed (h.setCacheValue cache (mapToUnassigned value)) (mapFromUnassigned oldValue)
  match getTrapKind oldValue with
  | .nonTrap => assign
  | .unassigned => assign
  | .unbound => if force then assign else fail h .unboundVariable
  | .macroTrap => if force then assign else fail h .macroBinding
  | _ => fail h .illegalReferenceTrap

def assignVariableEnd (h : Heap) (cell : Cell) (value : Obj) (force : Bool) : Result :=
  let oldValue := h.value cell
  let assign := succeed (h.setValue cell (mapToUnassigned value)) (mapFromUnassigned oldValue)
  match oldValue with
  | .compilerCached trap => assignVariableCache h (h.trapCache trap) value force
  | _ =>
    match getTrapKind oldValue with
    | .nonTrap => assign
    | .unassigned => assign
    | .unbound => if force then assign else fail h .unboundVariable
    | .macroTrap => if force then assign else fail h .macroBinding
    | _ => fail h .illegalReferenceTrap

/-- `unbind_variable_1`: an extension binding is replaced by the last one, any other cell is
marked unbound. -/
def Extension.remove (extension : Extension) (index : Nat) : Extension where
  bindings :=
    match extension.bindings.getLast? with
    | some last => (extension.bindings.set index last).dropLast
    | none => []
  capacity := extension.capacity
  fits := by have := extension.fits; split <;> simp; omega
  roomy := extension.roomy

def unbindVariable1 (h : Heap) (cell : Cell) (frame : Env) (symbol : Symbol) : Heap :=
  match frame, h.extension frame with
  | .procedure _ _, some extension =>
    match extension.bindings.findIdx? (fun binding => binding.1 = symbol) with
    | some index => h.setExtension frame (extension.remove index)
    | none => h.setValue cell .unbound
  | _, _ => h.setValue cell .unbound

section
variable (P : Program)

def lookupVariable (h : Heap) (environment : Env) (symbol : Symbol) : Code × Option Obj :=
  if environment.environmentP then
    match (findBindingCell P h environment symbol).1 with
    | none => (.unboundVariable, none)
    | some cell =>
      match h.value cell with
      | .compilerCached trap => lookupVariableCache h (h.trapCache trap)
      | value => lookupValue value
  else (.badFrame, none)

def assignVariable (h : Heap) (environment : Env) (symbol : Symbol) (value : Obj) : Result :=
  match (findBindingCell P h environment symbol).1 with
  | none => fail h .unboundVariable
  | some cell => assignVariableEnd h cell value false

/-- The cache of the binding that a new binding in a child of `parent` would shadow. -/
def bindingCache (h : Heap) (parent : Env) (symbol : Symbol) : Option CacheId :=
  match (findBindingCell P h parent symbol).1 with
  | some cell => cellCache h cell
  | none => none

/-- The binding is created and the references that now belong to it are moved. -/
def defineVariable (h : Heap) (environment : Env) (symbol : Symbol) (value : Obj) : Option Result :=
  match scanFrame P h environment symbol true, environment with
  | some cell, _ => some { assignVariableEnd h cell value true with value := none }
  | none, .procedure id parent => do
    let frame := Env.procedure id parent
    let extension := guaranteeExtensionSpace (h.extension frame)
    let h := h.setExtension frame extension.toExtension
    let oldCache := bindingCache P h parent symbol
    let (cell, h) := extendEnvironment h frame extension symbol value
    match oldCache with
    | none => some (succeed h none)
    | some cache => do
      let h ← updateCacheReferences P h cache (some cell) frame symbol
      some (succeed h none)
  | none, _ => some (fail h .badFrame)

/-- The branch of `link_variables` in which the target is cached. -/
def linkToCache (h : Heap) (target source : Cell) (targetCache : CacheId) : Heap :=
  match h.value source with
  | .compilerCached sourceTrap =>
    let sourceCache := h.trapCache sourceTrap
    if sourceCache = targetCache then h
    else
      let h := countReferences h targetCache
      let h := h.setCacheValue targetCache (h.cache sourceCache).value
      let h := moveAllReferences h sourceCache targetCache .lookup
      let h := moveAllReferences h sourceCache targetCache .assignment
      let h := moveAllReferences h sourceCache targetCache .operator
      let h := updateClone h sourceCache
      let h := updateClone h targetCache
      let h := h.setTrapCache sourceTrap targetCache
      h.setValue source (h.value target)
  | value => (h.setCacheValue targetCache value).setValue source (h.value target)

def linkVariables (h : Heap) (targetEnvironment : Env) (targetSymbol : Symbol)
    (sourceEnvironment : Env) (sourceSymbol : Symbol) : Option Result :=
  if targetEnvironment.environmentP ∧ sourceEnvironment.environmentP then
    match (findBindingCell P h sourceEnvironment sourceSymbol).1 with
    | none => some (fail h .unboundVariable)
    | some source =>
      if getTrapKind (h.value source) = .unbound then some (fail h .unboundVariable)
      else
        let target := scanFrame P h targetEnvironment targetSymbol true
        if target = some source then some (succeed h none)
        else
          match target, target.bind (cellCache h) with
          | some target, some targetCache => some (succeed (linkToCache h target source targetCache) none)
          | _, _ =>
            let h := guaranteeCache h source
            defineVariable P h targetEnvironment targetSymbol (h.value source)
  else some (fail h .badFrame)

def unbindCachedVariable (h : Heap) (cell : Cell) (cache : CacheId) (id : Nat) (parent : Env)
    (symbol : Symbol) : Option Heap :=
  let frame := Env.procedure id parent
  let shadowed := (findBindingCell P h parent symbol).1
  let h := unbindVariable1 h cell frame symbol
  updateCacheReferences P h cache shadowed frame symbol

def unbindVariable (h : Heap) (environment : Env) (symbol : Symbol) : Option Result :=
  match findBindingCell P h environment symbol with
  | (none, _) => some (succeed h sharpF)
  | (some cell, frame) =>
    match h.value cell with
    | .compilerCached trap =>
      let cache := h.trapCache trap
      match getTrapKind (h.cache cache).value with
      | .unbound => some (succeed h sharpF)
      | .nonTrap | .unassigned | .macroTrap =>
        match frame with
        | .procedure id parent => do
          let h ← unbindCachedVariable P h cell cache id parent symbol
          some (succeed h sharpT)
        | _ => some (succeed (h.setCacheValue cache .unbound) sharpT)
      | _ => some (fail h .illegalReferenceTrap)
    | value =>
      match getTrapKind value with
      | .unbound => some (succeed h sharpF)
      | .nonTrap | .unassigned | .macroTrap =>
        some (succeed (unbindVariable1 h cell frame symbol) sharpT)
      | _ => some (fail h .illegalReferenceTrap)

/-- A variable that is bound nowhere gets an unbound cell in the outermost frame. -/
def bindingCellOrNew (h : Heap) (environment : Env) (symbol : Symbol) : Cell × Heap :=
  match findBindingCell P h environment symbol with
  | (some cell, _) => (cell, h)
  | (none, frame) =>
    let extension := guaranteeExtensionSpace (h.extension frame)
    extendEnvironment (h.setExtension frame extension.toExtension) frame extension symbol .unbound

def addCacheReference (h : Heap) (environment : Env) (symbol : Symbol) (slot : SlotId)
    (kind : ReferenceKind) : Result :=
  let (cell, h) := bindingCellOrNew P h environment symbol
  let h := guaranteeCache h cell
  match cellCache h cell with
  | some cache =>
    let h := h.setCacheReferences cache kind (addReference (h.cacheReferences cache kind) symbol slot)
    let h := updateClone h cache
    succeed (installCache h cache kind slot) none
  | none => fail h .illegalReferenceTrap

def compilerCacheLookup (h : Heap) (name : Symbol) (slot : SlotId) : Result :=
  addCacheReference P h (P.blockEnvironment slot.1) name slot .lookup

def compilerCacheAssignment (h : Heap) (name : Symbol) (slot : SlotId) : Result :=
  addCacheReference P h (P.blockEnvironment slot.1) name slot .assignment

def compilerCacheOperator (h : Heap) (name : Symbol) (slot : SlotId) : Result :=
  addCacheReference P h (P.blockEnvironment slot.1) name slot .operator

def compilerCacheGlobalOperator (h : Heap) (name : Symbol) (slot : SlotId) : Result :=
  addCacheReference P h .global name slot .operator

end

def reclaimBlock (h : Heap) (block : Block) : Heap :=
  { h with references := fun id kind => reclaimReferences block (h.references id kind) }

end MitScheme.Microcode.Lookup
