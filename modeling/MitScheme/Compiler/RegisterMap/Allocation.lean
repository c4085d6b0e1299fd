import MitScheme.Compiler.RegisterMap.Partition
import MitScheme.Library.Run

namespace MitScheme.Compiler.RegisterMaps

open Library List Option

variable {τ lab γ : Type} {target : Target τ} {map map' : RegisterMap lab}
  {entry : MapEntry lab} {type : Option τ} {needed : List ℕ} {register home : ℕ} {values : AllocatorValues lab}

theorem search_some {entries : List (MapEntry lab)} {procedure : MapEntry lab → Option γ} {result : γ}
    (found : search entries procedure = some result) : ∃ e ∈ entries, procedure e = some result := by
  induction entries with
  | nil => exact nomatch found
  | cons entry entries ih =>
    rcases or_eq_some_iff.mp found with found | ⟨-, found⟩
    · obtain ⟨e, member, found⟩ := ih found
      exact ⟨e, mem_cons_of_mem entry member, found⟩
    · exact ⟨entry, mem_cons_self, found⟩

theorem search_none {entries : List (MapEntry lab)} {procedure : MapEntry lab → Option γ}
    (missing : search entries procedure = none) : ∀ e ∈ entries, procedure e = none := by
  induction entries with
  | nil => exact nofun
  | cons entry entries ih =>
    obtain ⟨before, here⟩ := or_eq_none_iff.mp missing
    exact forall_mem_cons.mpr ⟨here, ih before⟩

section
variable [DecidableEq lab]

theorem mem_deleteAlias {e : MapEntry lab} (member : e ∈ map.entries) (different : e ≠ entry) :
    e ∈ (map.deleteAlias target entry register).entries := by
  unfold RegisterMap.deleteAlias
  split
  · exact (mem_erase_of_ne different).mpr member
  · exact mem_map.mpr ⟨e, member, if_neg different⟩

theorem free_deleteAlias : register ∈ (map.deleteAlias target entry register).registers :=
  (target.sort_perm _).mem_iff.mpr mem_cons_self

theorem homes_deleteAlias (member : entry ∈ map.entries) {e : MapEntry lab}
    (after : e ∈ (map.deleteAlias target entry register).entries) : ∃ e' ∈ map.entries, e'.home = e.home := by
  unfold RegisterMap.deleteAlias at after
  split at after
  · exact ⟨e, mem_of_mem_erase after, rfl⟩
  · obtain ⟨e', member', same⟩ := mem_map.mp after
    split at same
    · exact ⟨entry, member, by rw [← same]; rfl⟩
    · exact ⟨e', member', by rw [same]⟩

theorem deleteMachineRegister_partition (p : Partition target map) (register : ℕ) :
    Partition target (deleteMachineRegister target map register) := by
  unfold deleteMachineRegister
  cases found : map.findAlias register with
  | none => exact p
  | some entry =>
    obtain ⟨member, holds⟩ := findAlias_some found
    exact p.deleteAlias member holds

theorem deleteMachineRegister_vacant (p : Partition target map) (register : ℕ) :
    Vacant target (deleteMachineRegister target map register) register := by
  have p' := deleteMachineRegister_partition p register
  unfold deleteMachineRegister at p' ⊢
  cases found : map.findAlias register with
  | none => exact p.vacant (findAlias_none found)
  | some entry =>
    rw [found] at p'
    exact p'.vacant_of_free free_deleteAlias

theorem addPseudoRegisterAlias_partition (p : Partition target map) (home register : ℕ) (saved : Bool) :
    Partition target (addPseudoRegisterAlias target map home register saved) := by
  have vacant := deleteMachineRegister_vacant p register
  unfold addPseudoRegisterAlias
  cases found : (deleteMachineRegister target map register).findHome home with
  | some entry => exact vacant.addAlias (findHome_some found).1
  | none => exact vacant.addHome (fun h same => some.inj same ▸ findHome_none found) nofun

end

theorem only_of_tail (last : entry.aliases.tail = []) (holds : register ∈ entry.aliases) :
    ∀ r ∈ entry.aliases, r = register := by
  cases same : entry.aliases with
  | nil => exact nofun
  | cons first others =>
    rw [same] at last holds
    rw [show others = [] from last] at holds ⊢
    intro r member
    rw [mem_singleton.mp holds, mem_singleton.mp member]

/-- Every available register is free once, or an alias of one entry once; entries have aliases and no home in common; and
every entry without a home is marked saved. -/
def Partitions (target : Target τ) (map : RegisterMap lab) : Prop :=
  (∀ r ∈ target.availableMachineRegisters, (map.registers.count r = 1 ∧ ∀ e ∈ map.entries, r ∉ e.aliases) ∨
    (r ∉ map.registers ∧ ∃ front e back, map.entries = front ++ e :: back ∧ e.aliases.count r = 1 ∧
      ∀ e' ∈ front ++ back, r ∉ e'.aliases)) ∧
  (∀ e ∈ map.entries, e.aliases ≠ []) ∧
  (map.entries.Pairwise fun e e' => ∀ home, e.home = some home → e'.home ≠ some home) ∧
  ∀ e ∈ map.entries, e.home = none → e.savedIntoHome = true

theorem Partition.partitions (p : Partition target map) : Partitions target map := by
  refine ⟨?_, p.occupied, ?_, p.saved⟩
  · intro r available
    rcases mem_append.mp (p.covers r available) with holds | free
    · obtain ⟨e, member, holds⟩ := mem_flatMap.mp holds
      obtain ⟨front, back, split⟩ := append_of_mem member
      refine .inr ⟨p.not_free member holds, front, e, back, split,
        count_eq_one_of_mem (p.nodup_aliases member) holds, ?_⟩
      intro e' member' holds'
      have distinct := p.nodup_entries
      rw [split] at distinct
      have inEntries : e' ∈ map.entries := split ▸ (perm_middle.mem_iff.mpr (mem_cons_of_mem e member'))
      obtain rfl := p.unique member inEntries holds holds'
      exact (nodup_cons.mp (perm_middle.nodup_iff.mp distinct)).1 member'
    · refine .inl ⟨count_eq_one_of_mem (nodup_append.mp p.nodup).2.1 free, ?_⟩
      intro e member holds
      exact p.not_free member holds free
  · have distinct := pairwise_filterMap.mp p.homes
    refine distinct.imp ?_
    intro e e' apart home homed homed'
    exact apart home homed home homed' rfl

variable [DecidableEq τ]

def Usable (target : Target τ) (type : Option τ) (needed : List ℕ) (register : ℕ) : Prop :=
  target.isType register type = true ∧ register ∉ needed

theorem find_usable {registers : List ℕ}
    (found : registers.find? (fun register => target.isType register type && !needed.contains register) = some register) :
    register ∈ registers ∧ Usable target type needed register := by
  have met := find?_some found
  rw [Bool.and_eq_true, Bool.not_eq_true', contains_eq_mem, decide_eq_false_iff_not] at met
  exact ⟨mem_of_find?_eq_some found, met⟩

theorem findAlias_usable (found : entry.findAlias target type needed = some register) :
    register ∈ entry.aliases ∧ Usable target type needed register :=
  find_usable found

variable [DecidableEq lab]

/-- What `find-free-register` does: it takes a free register, or an alias of an entry that can spare it. -/
inductive Frees (target : Target τ) (map : RegisterMap lab) (type : Option τ) (needed : List ℕ) :
    AllocatorValues lab → Prop where
  | free {register : ℕ} (free : register ∈ map.registers) (usable : Usable target type needed register) :
      Frees target map type needed ⟨register, map, []⟩
  | reuse {entry : MapEntry lab} {register : ℕ} (member : entry ∈ map.entries) (holds : register ∈ entry.aliases)
      (usable : Usable target type needed register)
      (spare : entry.home = none ∨ entry.aliases.tail ≠ [] ∨ entry.savedIntoHome = true) :
      Frees target map type needed ⟨register, map.deleteAlias target entry register, []⟩

/-- What `make-free-register` does: as before, or it moves the only alias of an entry, or saves the entry. -/
inductive Makes (target : Target τ) (map : RegisterMap lab) (type : Option τ) (needed : List ℕ) :
    AllocatorValues lab → Prop where
  | frees {values : AllocatorValues lab} (frees : Frees target map type needed values) : Makes target map type needed values
  | stash {entry : MapEntry lab} {register other : ℕ} {map' : RegisterMap lab} {type' : Option τ}
      (member : entry ∈ map.entries) (only : entry.aliases = [register]) (usable : Usable target type needed register)
      (frees : Frees target map type' (register :: needed) ⟨other, map', []⟩) (stays : entry ∈ map'.entries) :
      Makes target map type needed
        ⟨register, map'.replaceAlias entry register other, [.registerToRegister register other]⟩
  | spill {entry : MapEntry lab} {register home : ℕ} (member : entry ∈ map.entries) (holds : register ∈ entry.aliases)
      (usable : Usable target type needed register) (homed : entry.home = some home) :
      Makes target map type needed
        ⟨register, map.deleteAlias target entry register, [.registerToHome entry.anyAlias home]⟩

theorem reallocateAlias_some (reallocated : reallocateAlias target map type needed entry = some values) :
    ∃ register ∈ entry.aliases, Usable target type needed register ∧
      values = ⟨register, map.deleteAlias target entry register, []⟩ := by
  obtain ⟨register, found, rfl⟩ := map_eq_some_iff.mp reallocated
  obtain ⟨holds, usable⟩ := findAlias_usable found
  exact ⟨register, holds, usable, rfl⟩

theorem frees_of_search {test : MapEntry lab → Bool}
    (spare : ∀ e, test e = true → e.home = none ∨ e.aliases.tail ≠ [] ∨ e.savedIntoHome = true)
    (found : search map.entries (fun e => if test e then reallocateAlias target map type needed e else none) = some values) :
    Frees target map type needed values := by
  obtain ⟨e, member, found⟩ := search_some found
  obtain ⟨met, found⟩ := ite_none_right_eq_some.mp found
  obtain ⟨register, holds, usable, rfl⟩ := reallocateAlias_some found
  exact .reuse member holds usable (spare e met)

theorem findFreeRegister_some (found : findFreeRegister target map type needed = some values) :
    Frees target map type needed values := by
  rcases or_eq_some_iff.mp found with found | ⟨-, found⟩
  · obtain ⟨register, first, rfl⟩ := map_eq_some_iff.mp found
    obtain ⟨free, usable⟩ := find_usable first
    exact .free free usable
  rcases or_eq_some_iff.mp found with found | ⟨-, found⟩
  · apply frees_of_search _ found
    intro e met
    simp only [Bool.and_eq_true, isNone_iff_eq_none] at met
    exact .inl met.1
  rcases or_eq_some_iff.mp found with found | ⟨-, found⟩
  · have tested : search map.entries (fun e =>
        if decide (e.aliases.tail ≠ []) then reallocateAlias target map type needed e else none) = some values := by
      simpa [decide_eq_true_eq] using found
    exact frees_of_search (fun e met => .inr (.inl (of_decide_eq_true met))) tested
  · apply frees_of_search _ found
    intro e met
    simp only [Bool.and_eq_true] at met
    exact .inr (.inr met.2)

theorem only_of_findFreeRegister_none (missing : findFreeRegister target map type needed = none) (member : entry ∈ map.entries)
    (found : entry.findAlias target type needed = some register) : entry.aliases = [register] := by
  have several := (or_eq_none_iff.mp (or_eq_none_iff.mp (or_eq_none_iff.mp missing).2).2).1
  have last : entry.aliases.tail = [] := by
    by_contra more
    have failed := search_none several entry member
    rw [if_pos more, reallocateAlias, found] at failed
    exact nomatch failed
  have holds := (findAlias_usable found).1
  cases same : entry.aliases with
  | nil => rw [same] at holds; exact nomatch holds
  | cons first others =>
    rw [same] at last holds
    rw [show others = [] from last] at holds ⊢
    rw [mem_singleton.mp holds]

theorem Frees.stays (frees : Frees target map type needed values) {e : MapEntry lab} (member : e ∈ map.entries)
    (all : ∀ r ∈ e.aliases, r ∈ needed) : e ∈ values.map.entries := by
  cases frees with
  | free => exact member
  | reuse _ holds usable =>
    apply mem_deleteAlias member
    rintro rfl
    exact usable.2 (all _ holds)

theorem Frees.instructions (frees : Frees target map type needed values) : values.instructions = [] := by
  cases frees with
  | free => rfl
  | reuse => rfl

theorem stash_makes (member : entry ∈ map.entries) (only : entry.aliases = [register])
    (usable : Usable target type needed register) (stashed : stash target map type needed entry register = some values) :
    Makes target map type needed values := by
  cases type with
  | none => exact nomatch stashed
  | some type =>
    obtain ⟨inner, found, rfl⟩ := map_eq_some_iff.mp stashed
    have frees := findFreeRegister_some found
    have none := frees.instructions
    obtain ⟨other, map', instructions⟩ := inner
    obtain rfl : instructions = [] := none
    refine .stash member only usable frees (frees.stays member ?_)
    rw [only]
    exact fun r inList => mem_singleton.mp inList ▸ mem_cons_self

theorem makeFreeRegister_some (made : makeFreeRegister target map type needed = some values) :
    Makes target map type needed values := by
  rcases or_eq_some_iff.mp made with found | ⟨missing, made⟩
  · exact .frees (findFreeRegister_some found)
  rcases or_eq_some_iff.mp made with made | ⟨-, made⟩
  · obtain ⟨e, member, made⟩ := search_some made
    obtain ⟨met, made⟩ := ite_none_right_eq_some.mp made
    obtain ⟨register, found, made⟩ := bind_eq_some_iff.mp made
    have only := only_of_findFreeRegister_none missing member found
    obtain ⟨holds, usable⟩ := findAlias_usable found
    rcases or_eq_some_iff.mp made with stashed | ⟨-, spilled⟩
    · exact stash_makes member only usable stashed
    · obtain rfl := some.inj spilled
      rw [Bool.and_eq_true] at met
      obtain ⟨home, homed⟩ := isSome_iff_exists.mp met.1
      rw [saveIntoHomeInstruction, homed]
      exact .spill member holds usable homed
  · refine .frees (frees_of_search ?_ made)
    intro e met
    simp only [Bool.and_eq_true, isNone_iff_eq_none] at met
    exact .inl met.2

theorem Makes.stays (makes : Makes target map type needed values) {e : MapEntry lab} (member : e ∈ map.entries)
    (all : ∀ r ∈ e.aliases, r ∈ needed) : e ∈ values.map.entries := by
  cases makes with
  | frees frees => exact frees.stays member all
  | @stash entry register other map' type' _ only usable frees =>
    have different : e ≠ entry := by
      rintro rfl
      exact usable.2 (all _ (only ▸ mem_cons_self))
    apply mem_cons_of_mem
    exact (mem_erase_of_ne different).mpr (frees.stays member fun r inList => mem_cons_of_mem _ (all r inList))
  | spill _ holds usable homed =>
    apply mem_deleteAlias member
    rintro rfl
    exact usable.2 (all _ holds)

theorem Makes.usable (makes : Makes target map type needed values) : Usable target type needed values.register := by
  cases makes with
  | frees frees =>
    cases frees with
    | free _ usable => exact usable
    | reuse _ _ usable => exact usable
  | stash _ _ usable => exact usable
  | spill _ _ usable => exact usable

theorem Frees.vacant (frees : Frees target map type needed values) (p : Partition target map) :
    Partition target values.map ∧ values.register ∈ values.map.registers := by
  cases frees with
  | free free => exact ⟨p, free⟩
  | reuse member holds => exact ⟨p.deleteAlias member holds, free_deleteAlias⟩

theorem Makes.vacant (makes : Makes target map type needed values) (p : Partition target map) :
    Vacant target values.map values.register := by
  cases makes with
  | frees frees =>
    obtain ⟨p', free⟩ := frees.vacant p
    exact p'.vacant_of_free free
  | stash member only usable frees stays =>
    obtain ⟨p', free⟩ := frees.vacant p
    exact (p'.vacant_of_free free).replaceAlias stays only
  | spill member holds => exact (p.deleteAlias member holds).vacant_of_free free_deleteAlias

theorem Frees.homes (frees : Frees target map type needed values) {e : MapEntry lab} (after : e ∈ values.map.entries) :
    ∃ e' ∈ map.entries, e'.home = e.home := by
  cases frees with
  | free => exact ⟨e, after, rfl⟩
  | reuse member => exact homes_deleteAlias member after

theorem Makes.homes (makes : Makes target map type needed values) {e : MapEntry lab} (after : e ∈ values.map.entries) :
    ∃ e' ∈ map.entries, e'.home = e.home := by
  cases makes with
  | frees frees => exact frees.homes after
  | stash member _ _ frees stays =>
    rcases mem_cons.mp after with rfl | after
    · exact ⟨_, member, rfl⟩
    · exact frees.homes (mem_of_mem_erase after)
  | spill member => exact homes_deleteAlias member after

theorem loadAliasRegister_partition (p : Partition target map)
    (loaded : loadAliasRegister target map type needed home = some values) : Partition target values.map := by
  rcases or_eq_some_iff.mp loaded with found | ⟨-, made⟩
  · obtain ⟨register, -, rfl⟩ := map_eq_some_iff.mp found
    exact p
  · obtain ⟨freed, allocated, rfl⟩ := map_eq_some_iff.mp made
    have vacant := (makeFreeRegister_some allocated).vacant p
    cases found : freed.map.findHome home with
    | some entry => exact vacant.addAlias (findHome_some found).1
    | none => exact vacant.addHome (fun h same => some.inj same ▸ findHome_none found) nofun

theorem saveMachineRegister_partition (p : Partition target map) (required : register ∈ needed) {saved : Saved lab}
    (done : saveMachineRegister target map needed register = some saved) : Partition target saved.map := by
  unfold saveMachineRegister at done
  cases found : map.findAlias register with
  | none => rw [found] at done; exact some.inj done ▸ p
  | some entry =>
    obtain ⟨member, holds⟩ := findAlias_some found
    rw [found] at done
    dsimp only at done
    split at done
    · rename_i met
      rw [Bool.and_eq_true, decide_eq_true_eq] at met
      split at done
      · obtain ⟨freed, made, rfl⟩ := map_eq_some_iff.mp done
        have makes := makeFreeRegister_some made
        refine (makes.vacant p).addAlias (makes.stays member ?_)
        intro r inAliases
        rwa [only_of_tail met.2 holds r inAliases]
      · exact some.inj done ▸ p.saveEntry member
    · exact some.inj done ▸ p

variable {τ lab : Type} [DecidableEq lab] {target : Target τ} {map map' : RegisterMap lab}

inductive Operation (τ lab : Type) where
  | loadAliasRegister (type : Option τ) (needed : List ℕ) (home : ℕ)
  | allocateAliasRegister (type : Option τ) (needed : List ℕ) (home : ℕ)
  | allocateTemporaryRegister (type : Option τ) (needed : List ℕ)
  | addPseudoRegisterAlias (home register : ℕ) (savedIntoHome : Bool)
  | saveMachineRegister (needed : List ℕ) (register : ℕ)
  | savePseudoRegister (home : ℕ)
  | setMachineRegisterLabel (register : ℕ) (label : Option lab)
  | deleteMachineRegister (register : ℕ)
  | deletePseudoRegister (home : ℕ)
  | deletePseudoRegisters (homes : List ℕ)
  | deleteOtherLocations (register : ℕ)
  | keepLiveEntries (liveRegisters : ℕ → Bool)

/-- No entry has the home that an alias is allocated for, a register that is saved is needed, and the pseudo registers to
delete are distinct. -/
def Allowed (map : RegisterMap lab) : Operation τ lab → Prop
  | .allocateAliasRegister _ _ home => ∀ e ∈ map.entries, e.home ≠ some home
  | .saveMachineRegister needed register => register ∈ needed
  | .deletePseudoRegisters homes => homes.Nodup
  | _ => True

instance (map : RegisterMap lab) (operation : Operation τ lab) : Decidable (Allowed map operation) := by
  cases operation <;> unfold Allowed <;> infer_instance

theorem savePseudoRegister_partition (p : Partition target map) (home : ℕ) :
    Partition target (savePseudoRegister map home).1 := by
  unfold savePseudoRegister
  cases found : map.findHome home with
  | none => exact p
  | some entry =>
    dsimp only
    split
    · exact p
    · exact p.saveEntry (findHome_some found).1

theorem setMachineRegisterLabel_partition (p : Partition target map) (register : ℕ) (label : Option lab) :
    Partition target (setMachineRegisterLabel map register label) := by
  unfold setMachineRegisterLabel
  cases found : map.findAlias register with
  | some entry => exact p.setLabel (findAlias_some found).1 label
  | none =>
    have vacant := p.vacant (findAlias_none found)
    exact .insert vacant (.refl _) (cons_ne_nil _ _) nofun fun _ => rfl

theorem deletePseudoRegister_partition (p : Partition target map) (home : ℕ) :
    Partition target (deletePseudoRegister target map home).1 := by
  unfold deletePseudoRegister
  cases found : map.findHome home with
  | none => exact p
  | some entry =>
    dsimp only
    split
    · exact p.deleteEntry (findHome_some found).1
    · exact p.entryToTemporary (findHome_some found).1

variable [DecidableEq τ]

def operate (target : Target τ) (map : RegisterMap lab) : Operation τ lab → Option (RegisterMap lab)
  | .loadAliasRegister type needed home => (loadAliasRegister target map type needed home).map AllocatorValues.map
  | .allocateAliasRegister type needed home => (allocateAliasRegister target map type needed home).map AllocatorValues.map
  | .allocateTemporaryRegister type needed => (allocateTemporaryRegister target map type needed).map AllocatorValues.map
  | .addPseudoRegisterAlias home register saved => some (addPseudoRegisterAlias target map home register saved)
  | .saveMachineRegister needed register => (saveMachineRegister target map needed register).map Saved.map
  | .savePseudoRegister home => some (savePseudoRegister map home).1
  | .setMachineRegisterLabel register label => some (setMachineRegisterLabel map register label)
  | .deleteMachineRegister register => some (deleteMachineRegister target map register)
  | .deletePseudoRegister home => some (deletePseudoRegister target map home).1
  | .deletePseudoRegisters homes => some (deletePseudoRegisters target map homes)
  | .deleteOtherLocations register => deleteOtherLocations target map register
  | .keepLiveEntries live => some (map.keepLiveEntries target live)

theorem operate_partition (p : Partition target map) {operation : Operation τ lab} (allowed : Allowed map operation)
    (operated : operate target map operation = some map') : Partition target map' := by
  cases operation with
  | loadAliasRegister type needed home =>
    obtain ⟨values, loaded, rfl⟩ := map_eq_some_iff.mp operated
    exact loadAliasRegister_partition p loaded
  | allocateAliasRegister type needed home =>
    obtain ⟨values, allocated, rfl⟩ := map_eq_some_iff.mp operated
    obtain ⟨freed, made, rfl⟩ := map_eq_some_iff.mp allocated
    have makes := makeFreeRegister_some made
    refine (makes.vacant p).addHome ?_ nofun
    rintro h same e member homed
    obtain ⟨e', member', sameHome⟩ := makes.homes member
    exact allowed e' member' (sameHome.trans (homed.trans same.symm))
  | allocateTemporaryRegister type needed =>
    obtain ⟨values, allocated, rfl⟩ := map_eq_some_iff.mp operated
    obtain ⟨freed, made, rfl⟩ := map_eq_some_iff.mp allocated
    exact ((makeFreeRegister_some made).vacant p).addHome nofun fun _ => rfl
  | addPseudoRegisterAlias home register saved =>
    exact some.inj operated ▸ addPseudoRegisterAlias_partition p home register saved
  | saveMachineRegister needed register =>
    obtain ⟨saved, done, rfl⟩ := map_eq_some_iff.mp operated
    exact saveMachineRegister_partition p allowed done
  | savePseudoRegister home => exact some.inj operated ▸ savePseudoRegister_partition p home
  | setMachineRegisterLabel register label =>
    exact some.inj operated ▸ setMachineRegisterLabel_partition p register label
  | deleteMachineRegister register => exact some.inj operated ▸ deleteMachineRegister_partition p register
  | deletePseudoRegister home => exact some.inj operated ▸ deletePseudoRegister_partition p home
  | deletePseudoRegisters homes => exact some.inj operated ▸ p.deletePseudoRegisters allowed
  | deleteOtherLocations register =>
    obtain ⟨entry, found, rfl⟩ := map_eq_some_iff.mp operated
    obtain ⟨member, holds⟩ := findAlias_some found
    exact p.deleteOtherAliases member holds
  | keepLiveEntries live => exact some.inj operated ▸ p.keepLiveEntries live

/-- Register maps partition the machine registers after every sequence of operations from the empty map. -/
theorem register_maps_partition {operations : List (Operation τ lab)}
    (ran : run (operate target) Allowed (emptyRegisterMap target) operations = some map) : Partitions target map := by
  have partition := run_invariant (Partition target) (fun p allowed operated => operate_partition p allowed operated)
    (partition_empty target) ran
  exact partition.partitions

def smallTarget : Target Unit where
  availableMachineRegisters := [0, 1, 2]
  distinct := by decide
  sortMachineRegisters := id
  sort_perm := fun _ => List.Perm.refl _
  registerType := fun _ => ()
  isWord := fun _ => true
  typesCompatible := fun _ _ => true

def smallOperations : List (Operation Unit ℕ) :=
  [.allocateAliasRegister none [] 10, .allocateAliasRegister none [] 11, .saveMachineRegister [0] 0,
    .loadAliasRegister none [0] 12, .allocateAliasRegister (some ()) [] 13, .setMachineRegisterLabel 1 (some 7),
    .deletePseudoRegisters [12, 13]]

theorem register_maps_partition_small : ∃ map, run (operate smallTarget) Allowed (emptyRegisterMap smallTarget) smallOperations =
    some map ∧ Partitions smallTarget map := by
  have isSome : (run (operate smallTarget) Allowed (emptyRegisterMap smallTarget) smallOperations).isSome := by decide
  obtain ⟨map, ran⟩ := isSome_iff_exists.mp isSome
  exact ⟨map, ran, register_maps_partition ran⟩

end MitScheme.Compiler.RegisterMaps
