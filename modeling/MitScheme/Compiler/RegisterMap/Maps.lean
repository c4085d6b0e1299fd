import Mathlib.Data.List.Perm.Basic

/-!
The maps of `regmap.scm` from pseudo registers to the machine registers that hold them, with the
constructors and the operations of the allocator.
-/

namespace MitScheme.Compiler.RegisterMaps

variable {τ lab γ : Type}

/-- What a back end says of its machine registers. -/
structure Target (τ : Type) where
  availableMachineRegisters : List ℕ
  distinct : availableMachineRegisters.Nodup
  sortMachineRegisters : List ℕ → List ℕ
  sort_perm : ∀ registers, (sortMachineRegisters registers).Perm registers
  registerType : ℕ → τ
  isWord : ℕ → Bool
  typesCompatible : Option τ → Option τ → Bool

/-- `register-type?`. -/
def Target.isType [DecidableEq τ] (target : Target τ) (register : ℕ) : Option τ → Bool
  | some type => decide (type = target.registerType register)
  | none => target.isWord register

structure MapEntry (lab : Type) where
  home : Option ℕ
  savedIntoHome : Bool
  aliases : List ℕ
  label : Option lab
deriving DecidableEq, Repr

namespace MapEntry

def anyAlias (entry : MapEntry lab) : ℕ := entry.aliases.headD 0

def findAlias [DecidableEq τ] (target : Target τ) (entry : MapEntry lab) (type : Option τ) (needed : List ℕ) : Option ℕ :=
  entry.aliases.find? fun register => target.isType register type && !needed.contains register

def addAlias (entry : MapEntry lab) (register : ℕ) : MapEntry lab := { entry with aliases := register :: entry.aliases }

def deleteAlias (entry : MapEntry lab) (register : ℕ) : MapEntry lab :=
  { entry with aliases := entry.aliases.erase register }

def replaceAlias (entry : MapEntry lab) (old new : ℕ) : MapEntry lab :=
  { entry with aliases := entry.aliases.replace old new }

/-- `pseudo-register-entry->temporary-entry`. -/
def toTemporary (entry : MapEntry lab) : MapEntry lab := { entry with home := none, savedIntoHome := true }

end MapEntry

structure RegisterMap (lab : Type) where
  entries : List (MapEntry lab)
  registers : List ℕ
deriving DecidableEq, Repr

inductive Instruction where
  | registerToRegister (source target : ℕ)
  | homeToRegister (home register : ℕ)
  | registerToHome (register home : ℕ)
deriving DecidableEq, Repr

/-- The instruction that saves an entry; only entries with homes are saved. -/
def saveIntoHomeInstruction (entry : MapEntry lab) : List Instruction :=
  match entry.home with
  | some home => [.registerToHome entry.anyAlias home]
  | none => []

def emptyRegisterMap (target : Target τ) : RegisterMap lab := ⟨[], target.availableMachineRegisters⟩

/-- `map-entries:search`, which starts from the end. -/
def search (entries : List (MapEntry lab)) (procedure : MapEntry lab → Option γ) : Option γ :=
  match entries with
  | [] => none
  | entry :: entries => (search entries procedure).or (procedure entry)

namespace RegisterMap

variable [DecidableEq lab] (target : Target τ) (map : RegisterMap lab)

def findHome (home : ℕ) : Option (MapEntry lab) := map.entries.find? fun entry => entry.home = some home

def findAlias (register : ℕ) : Option (MapEntry lab) := map.entries.find? fun entry => entry.aliases.contains register

/-- `map-entries:replace`. Entries are compared by `eq?`; the entries of a map have no aliases in common. -/
def replace (old new : MapEntry lab) : List (MapEntry lab) :=
  map.entries.map fun entry => if entry = old then new else entry

/-- `map-entries:replace&touch`. -/
def replaceTouch (old new : MapEntry lab) : List (MapEntry lab) := new :: map.entries.erase old

def addHome (home : Option ℕ) (register : ℕ) (savedIntoHome : Bool) : RegisterMap lab :=
  ⟨⟨home, savedIntoHome, [register], none⟩ :: map.entries, map.registers.erase register⟩

def addAlias (entry : MapEntry lab) (register : ℕ) : RegisterMap lab :=
  ⟨map.replaceTouch entry (entry.addAlias register), map.registers.erase register⟩

def replaceAlias (entry : MapEntry lab) (old new : ℕ) : RegisterMap lab :=
  ⟨map.replaceTouch entry (entry.replaceAlias old new), map.registers.erase new⟩

def saveEntry (entry : MapEntry lab) : RegisterMap lab :=
  ⟨map.replaceTouch entry { entry with savedIntoHome := true }, map.registers⟩

def entryToTemporary (entry : MapEntry lab) : RegisterMap lab :=
  ⟨map.replaceTouch entry entry.toTemporary, map.registers⟩

def deleteEntry (entry : MapEntry lab) : RegisterMap lab :=
  ⟨map.entries.erase entry, target.sortMachineRegisters (entry.aliases ++ map.registers)⟩

def deleteEntries (entries : List (MapEntry lab)) : RegisterMap lab :=
  if entries = [] then map
  else ⟨map.entries.filter fun entry => !entries.contains entry,
    target.sortMachineRegisters (entries.flatMap MapEntry.aliases ++ map.registers)⟩

def deleteAlias (entry : MapEntry lab) (register : ℕ) : RegisterMap lab :=
  ⟨if entry.aliases.tail = [] then map.entries.erase entry else map.replace entry (entry.deleteAlias register),
    target.sortMachineRegisters (register :: map.registers)⟩

def deleteOtherAliases (entry : MapEntry lab) (register : ℕ) : RegisterMap lab :=
  ⟨map.replace entry ⟨entry.home, entry.home.isNone, [register], entry.label⟩,
    target.sortMachineRegisters ((entry.aliases.filter fun other => other ≠ register) ++ map.registers)⟩

def entriesToTemporaries (entries : List (MapEntry lab)) : RegisterMap lab :=
  if entries = [] then map
  else ⟨entries.map MapEntry.toTemporary ++ map.entries.filter fun entry => !entries.contains entry, map.registers⟩

def keepLiveEntriesLoop (liveRegisters : ℕ → Bool) :
    (entries : List (MapEntry lab)) → (registers : List ℕ) → (kept : List (MapEntry lab)) → RegisterMap lab
  | [], registers, kept => ⟨kept.reverse, target.sortMachineRegisters registers⟩
  | entry :: entries, registers, kept =>
    if entry.home.any liveRegisters then keepLiveEntriesLoop liveRegisters entries registers (entry :: kept)
    else keepLiveEntriesLoop liveRegisters entries (entry.aliases ++ registers) kept

def keepLiveEntries (liveRegisters : ℕ → Bool) : RegisterMap lab :=
  keepLiveEntriesLoop target liveRegisters map.entries map.registers []

end RegisterMap

structure AllocatorValues (lab : Type) where
  register : ℕ
  map : RegisterMap lab
  instructions : List Instruction
deriving DecidableEq, Repr

section
variable [DecidableEq τ] [DecidableEq lab] (target : Target τ) (map : RegisterMap lab) (type : Option τ) (needed : List ℕ)

def reallocateAlias (entry : MapEntry lab) : Option (AllocatorValues lab) :=
  (entry.findAlias target type needed).map fun register => ⟨register, map.deleteAlias target entry register, []⟩

def findFreeRegister : Option (AllocatorValues lab) :=
  ((map.registers.find? fun register => target.isType register type && !needed.contains register).map
    fun register => ⟨register, map, []⟩).or
  ((search map.entries fun entry =>
    if entry.home.isNone && entry.label.isNone then reallocateAlias target map type needed entry else none).or
  ((search map.entries fun entry =>
    if entry.aliases.tail ≠ [] then reallocateAlias target map type needed entry else none).or
  (search map.entries fun entry =>
    if entry.home.isSome && entry.savedIntoHome then reallocateAlias target map type needed entry else none)))

def stash (entry : MapEntry lab) (register : ℕ) : Option (AllocatorValues lab) :=
  match type with
  | none => none
  | some type =>
    (findFreeRegister target map (if target.typesCompatible (some type) none then none else some type)
      (register :: needed)).map fun values =>
        ⟨register, values.map.replaceAlias entry register values.register,
          values.instructions ++ [.registerToRegister register values.register]⟩

/-- `make-free-register`; nothing is its error. -/
def makeFreeRegister : Option (AllocatorValues lab) :=
  (findFreeRegister target map type needed).or
  ((search map.entries fun entry =>
    if entry.home.isSome && !entry.savedIntoHome then
      (entry.findAlias target type needed).bind fun register =>
        (stash target map type needed entry register).or
          (some ⟨register, map.deleteAlias target entry register, saveIntoHomeInstruction entry⟩)
    else none).or
  (search map.entries fun entry =>
    if entry.label.isSome && entry.home.isNone then reallocateAlias target map type needed entry else none))

def allocateRegisterWithoutUnload : Bool :=
  (map.registers.find? fun register => target.isType register type && !needed.contains register).isSome ||
  (search map.entries fun entry =>
    if (entry.findAlias target type needed).isSome && (entry.home.isNone || entry.aliases.tail ≠ []) then some true
    else none).isSome

def freeRegisterExists : Bool :=
  allocateRegisterWithoutUnload target map type needed ||
  (search map.entries fun entry =>
    if entry.home.isSome && entry.savedIntoHome then entry.findAlias target type needed else none).isSome

def allocateRegisterWithoutSpill : Bool :=
  freeRegisterExists target map type needed ||
  (search map.entries fun entry =>
    (entry.findAlias target type needed).bind fun register =>
      if freeRegisterExists target map (if target.typesCompatible type none then none else type) (register :: needed)
      then some true else none).isSome

def loadAliasRegister (home : ℕ) : Option (AllocatorValues lab) :=
  (((map.findHome home).bind fun entry => entry.findAlias target type needed).map fun register => ⟨register, map, []⟩).or
  ((makeFreeRegister target map type needed).map fun values =>
    match values.map.findHome home with
    | some entry =>
      ⟨values.register, values.map.addAlias entry values.register,
        values.instructions ++ [.registerToRegister entry.anyAlias values.register]⟩
    | none =>
      ⟨values.register, values.map.addHome (some home) values.register true,
        values.instructions ++ [.homeToRegister home values.register]⟩)

def allocateAliasRegister (home : ℕ) : Option (AllocatorValues lab) :=
  (makeFreeRegister target map type needed).map fun values =>
    { values with map := values.map.addHome (some home) values.register false }

def allocateTemporaryRegister : Option (AllocatorValues lab) :=
  (makeFreeRegister target map type needed).map fun values =>
    { values with map := values.map.addHome none values.register true }

end

section
variable [DecidableEq τ] [DecidableEq lab] (target : Target τ) (map : RegisterMap lab)

def deleteMachineRegister (register : ℕ) : RegisterMap lab :=
  match map.findAlias register with
  | some entry => map.deleteAlias target entry register
  | none => map

def addPseudoRegisterAlias (home register : ℕ) (savedIntoHome : Bool) : RegisterMap lab :=
  match (deleteMachineRegister target map register).findHome home with
  | some entry => (deleteMachineRegister target map register).addAlias entry register
  | none => (deleteMachineRegister target map register).addHome (some home) register savedIntoHome

structure Saved (lab : Type) where
  map : RegisterMap lab
  needed : List ℕ
  instructions : List Instruction
deriving DecidableEq, Repr

def saveMachineRegister (needed : List ℕ) (register : ℕ) : Option (Saved lab) :=
  match map.findAlias register with
  | some entry =>
    if !entry.savedIntoHome && entry.aliases.tail = [] then
      if allocateRegisterWithoutSpill target map (some (target.registerType register)) needed then
        (makeFreeRegister target map (some (target.registerType register)) needed).map fun values =>
          ⟨values.map.addAlias entry values.register, values.register :: needed,
            values.instructions ++ [.registerToRegister register values.register]⟩
      else some ⟨map.saveEntry entry, needed, saveIntoHomeInstruction entry⟩
    else some ⟨map, needed, []⟩
  | none => some ⟨map, needed, []⟩

def savePseudoRegister (home : ℕ) : RegisterMap lab × List Instruction :=
  match map.findHome home with
  | some entry => if entry.savedIntoHome then (map, []) else (map.saveEntry entry, saveIntoHomeInstruction entry)
  | none => (map, [])

def setMachineRegisterLabel (register : ℕ) (label : Option lab) : RegisterMap lab :=
  match map.findAlias register with
  | some entry => ⟨map.replace entry { entry with label := label }, map.registers⟩
  | none => ⟨⟨none, true, [register], label⟩ :: map.entries, map.registers.erase register⟩

/-- `delete-pseudo-register`, with the aliases that are no longer needed. -/
def deletePseudoRegister (home : ℕ) : RegisterMap lab × List ℕ :=
  match map.findHome home with
  | none => (map, [])
  | some entry =>
    if entry.label = none then (map.deleteEntry target entry, entry.aliases)
    else (map.entryToTemporary entry, entry.aliases)

def deletePseudoRegistersLoop :
    (homes : List ℕ) → (toDelete toTransform : List (MapEntry lab)) → RegisterMap lab
  | [], toDelete, toTransform => (map.deleteEntries target toDelete).entriesToTemporaries toTransform
  | home :: homes, toDelete, toTransform =>
    match map.findHome home with
    | none => deletePseudoRegistersLoop homes toDelete toTransform
    | some entry =>
      if entry.label = none then deletePseudoRegistersLoop homes (entry :: toDelete) toTransform
      else deletePseudoRegistersLoop homes toDelete (entry :: toTransform)

def deletePseudoRegisters (homes : List ℕ) : RegisterMap lab := deletePseudoRegistersLoop target map homes [] []

/-- `delete-other-locations`; nothing is its error. -/
def deleteOtherLocations (register : ℕ) : Option (RegisterMap lab) :=
  (map.findAlias register).map fun entry => map.deleteOtherAliases target entry register

end

end MitScheme.Compiler.RegisterMaps
