import MitScheme.Compiler.RegisterMap.Allocation

/-!
The instructions of the allocator as moves of a machine, and what the maps say of its registers and
its memory.
-/

namespace MitScheme.Compiler.RegisterMaps

open List Option

variable {τ lab V : Type} {target : Target τ} {map : RegisterMap lab} {entry : MapEntry lab} {register home h : ℕ}

structure MachineState (V : Type) where
  registers : ℕ → V
  memory : ℕ → V

namespace MachineState

def setRegister (s : MachineState V) (register : ℕ) (value : V) : MachineState V :=
  { s with registers := fun r => if r = register then value else s.registers r }

def setMemory (s : MachineState V) (home : ℕ) (value : V) : MachineState V :=
  { s with memory := fun h => if h = home then value else s.memory h }

section
variable (s : MachineState V)
include s

@[simp] theorem setRegister_same (r : ℕ) (v : V) : (s.setRegister r v).registers r = v := if_pos rfl

theorem setRegister_other {r r' : ℕ} (v : V) (different : r' ≠ r) : (s.setRegister r v).registers r' = s.registers r' :=
  if_neg different

@[simp] theorem setMemory_same (h : ℕ) (v : V) : (s.setMemory h v).memory h = v := if_pos rfl

theorem setMemory_other {h h' : ℕ} (v : V) (different : h' ≠ h) : (s.setMemory h v).memory h' = s.memory h' :=
  if_neg different

end

end MachineState

def execute (s : MachineState V) : Instruction → MachineState V
  | .registerToRegister source target => s.setRegister target (s.registers source)
  | .homeToRegister home register => s.setRegister register (s.memory home)
  | .registerToHome register home => s.setMemory home (s.registers register)

def executeAll (instructions : List Instruction) (s : MachineState V) : MachineState V := instructions.foldl execute s

theorem executeAll_append (first last : List Instruction) (s : MachineState V) :
    executeAll (first ++ last) s = executeAll last (executeAll first s) :=
  foldl_append

/-- The aliases of a home have its contents, and so has memory, if the entry is marked saved or if there is none. -/
structure FaithfulAt (contents : ℕ → V) (map : RegisterMap lab) (s : MachineState V) (h : ℕ) : Prop where
  aliases : ∀ e ∈ map.entries, e.home = some h → ∀ r ∈ e.aliases, s.registers r = contents h
  saved : ∀ e ∈ map.entries, e.home = some h → e.savedIntoHome = true → s.memory h = contents h
  absent : (∀ e ∈ map.entries, e.home ≠ some h) → s.memory h = contents h

def Faithful (contents : ℕ → V) (map : RegisterMap lab) (s : MachineState V) : Prop := ∀ h, FaithfulAt contents map s h

variable {contents : ℕ → V} {s : MachineState V}

section
variable (faithful : FaithfulAt contents map s h)
include faithful

theorem FaithfulAt.setRegister (vacant : ∀ e ∈ map.entries, register ∉ e.aliases)
    (value : V) : FaithfulAt contents map (s.setRegister register value) h where
  aliases := by
    intro e member homed r holds
    rw [s.setRegister_other]
    · exact faithful.aliases e member homed r holds
    · rintro rfl
      exact vacant e member holds
  saved := faithful.saved
  absent := faithful.absent

theorem FaithfulAt.save (same : s.registers register = contents home) :
    FaithfulAt contents map (s.setMemory home (s.registers register)) h := by
  have memory : s.memory h = contents h → (s.setMemory home (s.registers register)).memory h = contents h := by
    intro held
    by_cases atHome : h = home
    · rw [atHome, s.setMemory_same, same]
    · rw [s.setMemory_other _ atHome, held]
  exact ⟨faithful.aliases, fun e member homed isSaved => memory (faithful.saved e member homed isSaved),
    fun none => memory (faithful.absent none)⟩

theorem FaithfulAt.addHome {homed : Option ℕ} {saved : Bool}
    (held : homed = some h → s.registers register = contents h ∧ s.memory h = contents h) :
    FaithfulAt contents (map.addHome homed register saved) s h where
  aliases := by
    intro e member same r holds
    rcases mem_cons.mp member with rfl | member
    · rw [mem_singleton.mp holds]
      exact (held same).1
    · exact faithful.aliases e member same r holds
  saved := by
    intro e member same isSaved
    rcases mem_cons.mp member with rfl | member
    · exact (held same).2
    · exact faithful.saved e member same isSaved
  absent := fun none => faithful.absent fun e member => none e (mem_cons_of_mem _ member)

end

theorem anyAlias_mem (occupied : entry.aliases ≠ []) : entry.anyAlias ∈ entry.aliases := by
  unfold MapEntry.anyAlias
  cases same : entry.aliases with
  | nil => exact absurd same occupied
  | cons first others => exact mem_cons_self

variable [DecidableEq lab]

theorem FaithfulAt.replaceTouch {new : MapEntry lab} {registers : List ℕ} (faithful : FaithfulAt contents map s h)
    (same : new.home = entry.home) (held : entry.home = some h → ∀ r ∈ new.aliases, s.registers r = contents h)
    (saved : entry.home = some h → new.savedIntoHome = true → s.memory h = contents h) :
    FaithfulAt contents ⟨map.replaceTouch entry new, registers⟩ s h where
  aliases := by
    intro e inEntries homed r holds
    rcases mem_cons.mp inEntries with rfl | inEntries
    · exact held (same.symm.trans homed) r holds
    · exact faithful.aliases e (mem_of_mem_erase inEntries) homed r holds
  saved := by
    intro e inEntries homed isSaved
    rcases mem_cons.mp inEntries with rfl | inEntries
    · exact saved (same.symm.trans homed) isSaved
    · exact faithful.saved e (mem_of_mem_erase inEntries) homed isSaved
  absent := by
    intro none
    apply faithful.absent
    intro e inEntries homed
    by_cases isEntry : e = entry
    · exact none new mem_cons_self (same.trans (isEntry ▸ homed))
    · exact none e (mem_cons_of_mem new ((mem_erase_of_ne isEntry).mpr inEntries)) homed

theorem FaithfulAt.deleteAlias (faithful : FaithfulAt contents map s h) (member : entry ∈ map.entries)
    (held : entry.home = some h → entry.aliases.tail = [] → s.memory h = contents h) :
    FaithfulAt contents (map.deleteAlias target entry register) s h := by
  by_cases last : entry.aliases.tail = []
  · have same : (map.deleteAlias target entry register).entries = map.entries.erase entry := if_pos last
    refine ⟨?_, ?_, ?_⟩
    · intro e inEntries
      rw [same] at inEntries
      exact faithful.aliases e (mem_of_mem_erase inEntries)
    · intro e inEntries
      rw [same] at inEntries
      exact faithful.saved e (mem_of_mem_erase inEntries)
    · intro none
      rw [same] at none
      by_cases homed : entry.home = some h
      · exact held homed last
      · apply faithful.absent
        intro e inEntries homed'
        refine none e ((mem_erase_of_ne ?_).mpr inEntries) homed'
        rintro rfl
        exact homed homed'
  · have same : (map.deleteAlias target entry register).entries = map.replace entry (entry.deleteAlias register) := if_neg last
    have origin : ∀ e ∈ (map.deleteAlias target entry register).entries, ∃ e' ∈ map.entries, e'.home = e.home ∧
        e'.savedIntoHome = e.savedIntoHome ∧ ∀ r ∈ e.aliases, r ∈ e'.aliases := by
      intro e inEntries
      rw [same] at inEntries
      obtain ⟨e', member', replaced⟩ := mem_map.mp inEntries
      split at replaced
      · rw [← replaced]
        exact ⟨entry, member, rfl, rfl, fun r => mem_of_mem_erase⟩
      · rw [← replaced]
        exact ⟨e', member', rfl, rfl, fun r holds => holds⟩
    refine ⟨?_, ?_, ?_⟩
    · intro e inEntries homed r holds
      obtain ⟨e', member', sameHome, -, within⟩ := origin e inEntries
      exact faithful.aliases e' member' (sameHome.trans homed) r (within r holds)
    · intro e inEntries homed isSaved
      obtain ⟨e', member', sameHome, sameSaved, -⟩ := origin e inEntries
      exact faithful.saved e' member' (sameHome.trans homed) (sameSaved.trans isSaved)
    · intro none
      rw [same] at none
      apply faithful.absent
      intro e inEntries homed
      by_cases isEntry : e = entry
      · exact none _ (mem_map.mpr ⟨e, inEntries, if_pos isEntry⟩) (isEntry ▸ homed)
      · exact none _ (mem_map.mpr ⟨e, inEntries, if_neg isEntry⟩) homed

/-- The new map is faithful, but for the home that is overwritten, and the needed registers are unchanged. -/
structure Keeps (contents : ℕ → V) (map' : RegisterMap lab) (needed : List ℕ) (instructions : List Instruction)
    (overwritten : Option ℕ) (s : MachineState V) : Prop where
  faithful : ∀ h, overwritten ≠ some h → FaithfulAt contents map' (executeAll instructions s) h
  unchanged : ∀ r ∈ needed, (executeAll instructions s).registers r = s.registers r

theorem saveEntry_keeps (p : Partition target map) (faithful : Faithful contents map s) (member : entry ∈ map.entries)
    (homed : entry.home = some home) (needed : List ℕ) :
    Keeps contents (map.saveEntry entry) needed (saveIntoHomeInstruction entry) none s := by
  have held := (faithful home).aliases entry member homed entry.anyAlias (anyAlias_mem (p.occupied entry member))
  rw [saveIntoHomeInstruction, homed]
  refine ⟨?_, fun _ _ => rfl⟩
  intro h _
  have saved := (faithful h).save held
  refine saved.replaceTouch rfl (saved.aliases entry member) ?_
  intro homed' _
  obtain rfl : home = h := some.inj (homed.symm.trans homed')
  exact (s.setMemory_same home _).trans held

theorem savePseudoRegister_keeps (p : Partition target map) (faithful : Faithful contents map s) (home : ℕ)
    (needed : List ℕ) :
    Keeps contents (savePseudoRegister map home).1 needed (savePseudoRegister map home).2 none s := by
  have nothing : Keeps contents map needed [] none s := ⟨fun h _ => faithful h, fun _ _ => rfl⟩
  unfold savePseudoRegister
  cases found : map.findHome home with
  | none => exact nothing
  | some entry =>
    obtain ⟨member, homed⟩ := findHome_some found
    dsimp only
    split
    · exact nothing
    · exact saveEntry_keeps p faithful member homed needed

variable [DecidableEq τ] {type : Option τ} {needed : List ℕ} {values : AllocatorValues lab}

theorem Frees.faithful (frees : Frees target map type needed values) (faithful : Faithful contents map s) :
    Faithful contents values.map s := by
  intro h
  cases frees with
  | free => exact faithful h
  | reuse member holds usable spare =>
    apply (faithful h).deleteAlias member
    intro homed last
    rcases spare with none | more | saved
    · rw [homed] at none
      exact nomatch none
    · exact absurd last more
    · exact (faithful h).saved _ member homed saved

theorem Makes.keeps (makes : Makes target map type needed values) (p : Partition target map)
    (faithful : Faithful contents map s) : Keeps contents values.map needed values.instructions none s := by
  cases makes with
  | frees frees =>
    rw [frees.instructions]
    exact ⟨fun h _ => frees.faithful faithful h, fun _ _ => rfl⟩
  | @stash entry register other map' type' member only usable frees stays =>
    obtain ⟨p', free⟩ := frees.vacant p
    have vacant := (p'.vacant_of_free free).absent
    have faithful' := frees.faithful faithful
    refine ⟨?_, ?_⟩
    · intro h _
      have written := (faithful' h).setRegister vacant (s.registers register)
      refine written.replaceTouch rfl ?_ fun homed saved => written.saved entry stays homed saved
      intro homed r holds
      have isOther : r = other := by
        simpa [MapEntry.replaceAlias, only, replace_cons] using holds
      rw [isOther]
      refine (s.setRegister_same other _).trans ?_
      exact (faithful' h).aliases entry stays homed register (only ▸ mem_cons_self)
    · intro r inNeeded
      apply s.setRegister_other
      rintro rfl
      cases frees with
      | free _ usable' => exact usable'.2 (mem_cons_of_mem _ inNeeded)
      | reuse _ _ usable' => exact usable'.2 (mem_cons_of_mem _ inNeeded)
  | @spill entry register home member holds usable homed =>
    have held := (faithful home).aliases entry member homed entry.anyAlias (anyAlias_mem (p.occupied entry member))
    refine ⟨?_, fun _ _ => rfl⟩
    intro h _
    apply ((faithful h).save held).deleteAlias member
    intro homed' _
    obtain rfl : home = h := some.inj (homed.symm.trans homed')
    exact (s.setMemory_same home _).trans held

section
variable (p : Partition target map)
include p

section
variable (faithful : Faithful contents map s)
include faithful

theorem loadAliasRegister_keeps (loaded : loadAliasRegister target map type needed home = some values) :
    Keeps contents values.map needed values.instructions none s ∧ Usable target type needed values.register := by
  rcases or_eq_some_iff.mp loaded with found | ⟨-, made⟩
  · obtain ⟨register, aliased, rfl⟩ := map_eq_some_iff.mp found
    obtain ⟨entry, -, aliased⟩ := bind_eq_some_iff.mp aliased
    exact ⟨⟨fun h _ => faithful h, fun _ _ => rfl⟩, (findAlias_usable aliased).2⟩
  · obtain ⟨freed, allocated, rfl⟩ := map_eq_some_iff.mp made
    have makes := makeFreeRegister_some allocated
    have vacant := makes.vacant p
    obtain ⟨faithful', unchanged⟩ := makes.keeps p faithful
    have written := fun h => (faithful' h fun same => by cases same).setRegister vacant.absent
    have others : ∀ value, ∀ r ∈ needed,
        ((executeAll freed.instructions s).setRegister freed.register value).registers r = s.registers r := by
      intro value r inNeeded
      rw [MachineState.setRegister_other]
      · exact unchanged r inNeeded
      · rintro rfl
        exact makes.usable.2 inNeeded
    cases found : freed.map.findHome home with
    | some entry =>
      obtain ⟨member, homed⟩ := findHome_some found
      have occupied := anyAlias_mem (Partition.occupied vacant entry member)
      have held := (faithful' home nofun).aliases entry member homed entry.anyAlias occupied
      refine ⟨⟨?_, ?_⟩, makes.usable⟩
      · intro h _
        rw [executeAll_append]
        refine (written h _).replaceTouch rfl ?_ fun homed' saved => (written h _).saved entry member homed' saved
        intro homed' r holds
        obtain rfl : home = h := some.inj (homed.symm.trans homed')
        rcases mem_cons.mp holds with rfl | holds
        · exact (MachineState.setRegister_same _ _ _).trans held
        · exact (written home _).aliases entry member homed r holds
      · rw [executeAll_append]
        exact others _
    | none =>
      have held := (faithful' home nofun).absent (findHome_none found)
      refine ⟨⟨?_, ?_⟩, makes.usable⟩
      · intro h _
        rw [executeAll_append]
        apply (written h _).addHome
        rintro same
        obtain rfl := some.inj same
        exact ⟨(MachineState.setRegister_same _ _ _).trans held, held⟩
      · rw [executeAll_append]
        exact others _

theorem allocateAliasRegister_keeps (allocated : allocateAliasRegister target map type needed home = some values) :
    Keeps contents values.map needed values.instructions (some home) s ∧ Usable target type needed values.register := by
  obtain ⟨freed, made, rfl⟩ := map_eq_some_iff.mp allocated
  have makes := makeFreeRegister_some made
  obtain ⟨faithful', unchanged⟩ := makes.keeps p faithful
  refine ⟨⟨?_, unchanged⟩, makes.usable⟩
  intro h other
  exact (faithful' h fun same => by cases same).addHome fun same => absurd same other

theorem allocateTemporaryRegister_keeps (allocated : allocateTemporaryRegister target map type needed = some values) :
    Keeps contents values.map needed values.instructions none s ∧ Usable target type needed values.register := by
  obtain ⟨freed, made, rfl⟩ := map_eq_some_iff.mp allocated
  have makes := makeFreeRegister_some made
  obtain ⟨faithful', unchanged⟩ := makes.keeps p faithful
  exact ⟨⟨fun h _ => (faithful' h fun same => by cases same).addHome nofun, unchanged⟩, makes.usable⟩

theorem saveMachineRegister_keeps
    (required : register ∈ needed) {saved : Saved lab} (done : saveMachineRegister target map needed register = some saved) :
    Keeps contents saved.map needed saved.instructions none s ∧
      (saved.needed = needed ∨
        ∃ r, saved.needed = r :: needed ∧ Usable target (some (target.registerType register)) needed r) := by
  have nothing : Keeps contents map needed [] none s := ⟨fun h _ => faithful h, fun _ _ => rfl⟩
  unfold saveMachineRegister at done
  cases found : map.findAlias register with
  | none =>
    rw [found] at done
    obtain rfl := some.inj done
    exact ⟨nothing, .inl rfl⟩
  | some entry =>
    obtain ⟨member, holds⟩ := findAlias_some found
    rw [found] at done
    dsimp only at done
    split at done
    · rename_i met
      rw [Bool.and_eq_true, decide_eq_true_eq] at met
      split at done
      · obtain ⟨freed, made, rfl⟩ := map_eq_some_iff.mp done
        have makes := makeFreeRegister_some made
        have vacant := makes.vacant p
        obtain ⟨faithful', unchanged⟩ := makes.keeps p faithful
        -- The entry stays, as its only alias is among the needed registers.
        have stays : entry ∈ freed.map.entries := by
          apply makes.stays member
          intro r inAliases
          rwa [only_of_tail met.2 holds r inAliases]
        refine ⟨⟨?_, ?_⟩, .inr ⟨freed.register, rfl, makes.usable⟩⟩
        · intro h _
          rw [executeAll_append]
          have written := (faithful' h fun same => by cases same).setRegister vacant.absent
            ((executeAll freed.instructions s).registers register)
          refine written.replaceTouch rfl ?_ fun homed isSaved => written.saved entry stays homed isSaved
          intro homed r inAliases
          rcases mem_cons.mp inAliases with rfl | inAliases
          · refine (MachineState.setRegister_same _ _ _).trans ?_
            exact (faithful' h fun same => by cases same).aliases entry stays homed register holds
          · exact written.aliases entry stays homed r inAliases
        · intro r inNeeded
          rw [executeAll_append]
          refine (MachineState.setRegister_other _ _ ?_).trans (unchanged r inNeeded)
          rintro rfl
          exact makes.usable.2 inNeeded
      · obtain rfl := some.inj done
        have homed : entry.home ≠ none := by
          intro none
          have marked := p.saved entry member none
          simp [marked] at met
        obtain ⟨home, homed⟩ := ne_none_iff_exists'.mp homed
        exact ⟨saveEntry_keeps p faithful member homed needed, .inl rfl⟩
    · obtain rfl := some.inj done
      exact ⟨nothing, .inl rfl⟩

end

end

/-- Register allocation loses no value: the instructions of an operation lead from a state for which the map is faithful
to one for which the new map is, but for the home about to be overwritten, and leave the needed registers alone. -/
theorem allocation_keeps_values (p : Partition target map) (faithful : Faithful contents map s) :
    (∀ type needed values, makeFreeRegister target map type needed = some values →
      Keeps contents values.map needed values.instructions none s ∧ Usable target type needed values.register) ∧
    (∀ type needed home values, loadAliasRegister target map type needed home = some values →
      Keeps contents values.map needed values.instructions none s ∧ Usable target type needed values.register) ∧
    (∀ type needed home values, allocateAliasRegister target map type needed home = some values →
      Keeps contents values.map needed values.instructions (some home) s ∧ Usable target type needed values.register) ∧
    (∀ type needed values, allocateTemporaryRegister target map type needed = some values →
      Keeps contents values.map needed values.instructions none s ∧ Usable target type needed values.register) ∧
    (∀ needed register saved, register ∈ needed → saveMachineRegister target map needed register = some saved →
      Keeps contents saved.map needed saved.instructions none s ∧
        (saved.needed = needed ∨
          ∃ r, saved.needed = r :: needed ∧ Usable target (some (target.registerType register)) needed r)) ∧
    ∀ home needed, Keeps contents (savePseudoRegister map home).1 needed (savePseudoRegister map home).2 none s := by
  refine ⟨?_, ?_, ?_, ?_, ?_, ?_⟩
  · intro type needed values made
    have makes := makeFreeRegister_some made
    exact ⟨makes.keeps p faithful, makes.usable⟩
  · intro type needed home values loaded
    exact loadAliasRegister_keeps p faithful loaded
  · intro type needed home values allocated
    exact allocateAliasRegister_keeps p faithful allocated
  · intro type needed values allocated
    exact allocateTemporaryRegister_keeps p faithful allocated
  · intro needed register saved required done
    exact saveMachineRegister_keeps p faithful required done
  · exact savePseudoRegister_keeps p faithful

def fullMap : RegisterMap ℕ := ⟨[⟨some 10, false, [0], none⟩, ⟨none, true, [1, 2], some 7⟩], []⟩

theorem fullMap_partition : Partition smallTarget fullMap where
  nodup := by decide
  covers := by decide
  occupied := by decide
  homes := by decide
  saved := by decide

theorem allocation_keeps_values_full : ∃ values, loadAliasRegister smallTarget fullMap none [1] 12 = some values ∧
    Keeps (fun h => h) values.map [1] values.instructions none ⟨fun _ => 10, fun h => if h = 10 then 0 else h⟩ := by
  have faithful : Faithful (fun h => h) fullMap ⟨fun _ => 10, fun h => if h = 10 then 0 else h⟩ := by
    intro h
    refine ⟨?_, ?_, ?_⟩
    · intro e member homed r holds
      simp only [fullMap, mem_cons, not_mem_nil, or_false] at member
      rcases member with rfl | rfl
      · exact some.inj homed
      · exact nomatch homed
    · intro e member homed saved
      simp only [fullMap, mem_cons, not_mem_nil, or_false] at member
      rcases member with rfl | rfl
      · exact nomatch saved
      · exact nomatch homed
    · intro none
      exact if_neg fun same => none _ mem_cons_self (congrArg some same.symm)
  obtain ⟨-, loads, -⟩ := allocation_keeps_values fullMap_partition faithful
  exact ⟨_, rfl, (loads none [1] 12 _ rfl).1⟩

end MitScheme.Compiler.RegisterMaps
