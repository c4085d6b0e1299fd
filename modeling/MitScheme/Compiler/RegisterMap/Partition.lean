import Mathlib.Data.List.Nodup
import Mathlib.Data.List.Pairwise
import Mathlib.Data.List.Perm.Subperm
import MitScheme.Compiler.RegisterMap.Maps

namespace MitScheme.Compiler.RegisterMaps

open List

variable {τ lab : Type} {target : Target τ} {map : RegisterMap lab} {entry old new : MapEntry lab}
  {entries rest : List (MapEntry lab)} {registers registers' : List ℕ} {register home : ℕ}

def RegisterMap.all (map : RegisterMap lab) : List ℕ := map.entries.flatMap MapEntry.aliases ++ map.registers

structure Partition (target : Target τ) (map : RegisterMap lab) : Prop where
  nodup : map.all.Nodup
  covers : ∀ r ∈ target.availableMachineRegisters, r ∈ map.all
  occupied : ∀ e ∈ map.entries, e.aliases ≠ []
  homes : (map.entries.filterMap MapEntry.home).Nodup
  saved : ∀ e ∈ map.entries, e.home = none → e.savedIntoHome = true

theorem partition_empty (target : Target τ) : Partition target (emptyRegisterMap target : RegisterMap lab) where
  nodup := target.distinct
  covers := fun _ member => member
  occupied := nofun
  homes := nodup_nil
  saved := nofun

theorem all_perm {entries' : List (MapEntry lab)} (same : entries.Perm entries') (sameFree : registers.Perm registers') :
    (⟨entries, registers⟩ : RegisterMap lab).all.Perm (⟨entries', registers'⟩ : RegisterMap lab).all :=
  (same.flatMap_right _).append sameFree

theorem Partition.perm {entries' : List (MapEntry lab)} (p : Partition target ⟨entries, registers⟩)
    (same : entries.Perm entries') (sameFree : registers.Perm registers') : Partition target ⟨entries', registers'⟩ where
  nodup := (all_perm same sameFree).nodup_iff.mp p.nodup
  covers := fun r member => (all_perm same sameFree).mem_iff.mp (p.covers r member)
  occupied := fun e member => p.occupied e (same.mem_iff.mpr member)
  homes := (same.filterMap _).nodup_iff.mp p.homes
  saved := fun e member => p.saved e (same.mem_iff.mpr member)

theorem all_cons : (⟨entry :: rest, registers⟩ : RegisterMap lab).all.Perm
    (rest.flatMap MapEntry.aliases ++ (entry.aliases ++ registers)) := by
  rw [RegisterMap.all, ← append_assoc]
  exact perm_append_comm.append_right registers

theorem Partition.change (p : Partition target ⟨old :: rest, registers⟩)
    (same : (new.aliases ++ registers').Perm (old.aliases ++ registers)) (occupied : new.aliases ≠ [])
    (homed : new.home = old.home ∨ new.home = none) (saved : new.home = none → new.savedIntoHome = true) :
    Partition target ⟨new :: rest, registers'⟩ := by
  have sameAll : (⟨new :: rest, registers'⟩ : RegisterMap lab).all.Perm (⟨old :: rest, registers⟩ : RegisterMap lab).all :=
    all_cons.trans ((same.append_left _).trans all_cons.symm)
  constructor
  · exact sameAll.nodup_iff.mpr p.nodup
  · intro r member
    exact sameAll.mem_iff.mpr (p.covers r member)
  · intro e member
    rcases mem_cons.mp member with rfl | member
    · exact occupied
    · exact p.occupied e (mem_cons_of_mem old member)
  · have distinct := p.homes
    rcases homed with homed | homed
    · rwa [filterMap_cons, homed]
    · rw [filterMap_cons, homed]
      rw [filterMap_cons] at distinct
      cases atHome : old.home with
      | none => rwa [atHome] at distinct
      | some home =>
        rw [atHome] at distinct
        exact (nodup_cons.mp distinct).2
  · intro e member
    rcases mem_cons.mp member with rfl | member
    · exact saved
    · exact p.saved e (mem_cons_of_mem old member)

theorem Partition.remove (p : Partition target ⟨old :: rest, registers⟩)
    (same : registers'.Perm (old.aliases ++ registers)) : Partition target ⟨rest, registers'⟩ := by
  have sameAll : (⟨rest, registers'⟩ : RegisterMap lab).all.Perm (⟨old :: rest, registers⟩ : RegisterMap lab).all :=
    (same.append_left _).trans all_cons.symm
  constructor
  · exact sameAll.nodup_iff.mpr p.nodup
  · intro r member
    exact sameAll.mem_iff.mpr (p.covers r member)
  · intro e member
    exact p.occupied e (mem_cons_of_mem old member)
  · exact p.homes.sublist ((sublist_cons_self old rest).filterMap _)
  · intro e member
    exact p.saved e (mem_cons_of_mem old member)

theorem Partition.insert (p : Partition target ⟨rest, registers⟩) (same : (new.aliases ++ registers').Perm registers)
    (occupied : new.aliases ≠ []) (homed : ∀ h, new.home = some h → ∀ e ∈ rest, e.home ≠ some h)
    (saved : new.home = none → new.savedIntoHome = true) : Partition target ⟨new :: rest, registers'⟩ := by
  have sameAll : (⟨new :: rest, registers'⟩ : RegisterMap lab).all.Perm (⟨rest, registers⟩ : RegisterMap lab).all :=
    all_cons.trans (same.append_left _)
  constructor
  · exact sameAll.nodup_iff.mpr p.nodup
  · intro r member
    exact sameAll.mem_iff.mpr (p.covers r member)
  · intro e member
    rcases mem_cons.mp member with rfl | member
    · exact occupied
    · exact p.occupied e member
  · rw [filterMap_cons]
    cases atHome : new.home with
    | none => exact p.homes
    | some home =>
      refine nodup_cons.mpr ⟨?_, p.homes⟩
      intro member
      obtain ⟨e, member, sameHome⟩ := mem_filterMap.mp member
      exact homed home atHome e member sameHome
  · intro e member
    rcases mem_cons.mp member with rfl | member
    · exact saved
    · exact p.saved e member

theorem Partition.unique (p : Partition target map) {e e' : MapEntry lab} {r : ℕ} (member : e ∈ map.entries)
    (member' : e' ∈ map.entries) (holds : r ∈ e.aliases) (holds' : r ∈ e'.aliases) : e = e' := by
  have disjoint := (nodup_flatMap.mp (nodup_append.mp p.nodup).1).2
  have symmetric : Std.Symm (Function.onFun Disjoint (@MapEntry.aliases lab)) := ⟨fun _ _ apart _ holds holds' => apart holds' holds⟩
  by_contra different
  exact disjoint.forall member member' different holds holds'

variable {e : MapEntry lab} {olds : List (MapEntry lab)}

theorem Partition.not_free (p : Partition target map) {r : ℕ} (member : e ∈ map.entries)
    (holds : r ∈ e.aliases) : r ∉ map.registers := by
  intro free
  exact (nodup_append.mp p.nodup).2.2 r (mem_flatMap.mpr ⟨e, member, holds⟩) r free rfl

theorem Partition.nodup_entries (p : Partition target map) : map.entries.Nodup := by
  have disjoint := (nodup_flatMap.mp (nodup_append.mp p.nodup).1).2
  refine .imp_of_mem ?_ disjoint
  rintro e e' member - apart rfl
  obtain ⟨r, holds⟩ := exists_mem_of_ne_nil _ (p.occupied e member)
  exact apart holds holds

theorem Partition.nodup_aliases (p : Partition target map) (member : entry ∈ map.entries) : entry.aliases.Nodup :=
  (nodup_flatMap.mp (nodup_append.mp p.nodup).1).1 entry member

/-- The map would partition the registers if the register were free. -/
def Vacant (target : Target τ) (map : RegisterMap lab) (register : ℕ) : Prop :=
  Partition target ⟨map.entries, register :: map.registers.erase register⟩

theorem Partition.vacant (p : Partition target map) (absent : ∀ e ∈ map.entries, register ∉ e.aliases) :
    Vacant target map register := by
  obtain ⟨distinct, free, apart⟩ := nodup_append.mp p.nodup
  constructor
  · refine nodup_append.mpr ⟨distinct, ?_, ?_⟩
    · exact nodup_cons.mpr ⟨fun member => absurd rfl ((Nodup.mem_erase_iff free).mp member).1, free.erase _⟩
    · rintro r holds r' member rfl
      rcases mem_cons.mp member with rfl | member
      · obtain ⟨e, member, holds⟩ := mem_flatMap.mp holds
        exact absent e member holds
      · exact apart r holds r (mem_of_mem_erase member) rfl
  · intro r available
    rcases mem_append.mp (p.covers r available) with holds | member
    · exact mem_append_left _ holds
    · apply mem_append_right
      by_cases same : r = register
      · exact same ▸ mem_cons_self
      · exact mem_cons_of_mem _ ((mem_erase_of_ne same).mpr member)
  · exact p.occupied
  · exact p.homes
  · exact p.saved

theorem Vacant.absent (vacant : Vacant target map register) : ∀ e ∈ map.entries, register ∉ e.aliases := by
  intro e member holds
  exact Partition.not_free vacant member holds mem_cons_self

theorem Partition.vacant_of_free (p : Partition target map) (free : register ∈ map.registers) : Vacant target map register :=
  p.vacant fun _ member holds => p.not_free member holds free

theorem findHome_some (found : map.findHome home = some e) : e ∈ map.entries ∧ e.home = some home :=
  ⟨mem_of_find?_eq_some found, by simpa using find?_some found⟩

theorem findHome_none (missing : map.findHome home = none) : ∀ e ∈ map.entries, e.home ≠ some home := by
  intro e member
  simpa using find?_eq_none.mp missing e member

theorem findAlias_some (found : map.findAlias register = some e) : e ∈ map.entries ∧ register ∈ e.aliases :=
  ⟨mem_of_find?_eq_some found, by simpa using find?_some found⟩

theorem findAlias_none (missing : map.findAlias register = none) : ∀ e ∈ map.entries, register ∉ e.aliases := by
  intro e member
  simpa using find?_eq_none.mp missing e member

theorem Vacant.addHome {home : Option ℕ} {saved : Bool} (vacant : Vacant target map register)
    (fresh : ∀ h, home = some h → ∀ e ∈ map.entries, e.home ≠ some h) (marked : home = none → saved = true) :
    Partition target (map.addHome home register saved) :=
  .insert vacant (.refl _) (cons_ne_nil _ _) fresh marked

theorem Partition.removeAll (p : Partition target ⟨olds ++ rest, registers⟩)
    (same : registers'.Perm (olds.flatMap MapEntry.aliases ++ registers)) : Partition target ⟨rest, registers'⟩ := by
  induction olds generalizing registers with
  | nil => exact p.perm (.refl _) same.symm
  | cons old olds ih =>
    refine ih (p.remove (.refl _)) (same.trans ?_)
    rw [← append_assoc]
    exact perm_append_comm.append_right registers

theorem Partition.temporaries (p : Partition target ⟨olds ++ rest, registers⟩) :
    Partition target ⟨olds.map MapEntry.toTemporary ++ rest, registers⟩ := by
  induction olds generalizing rest with
  | nil => exact p
  | cons old olds ih =>
    have changed : Partition target ⟨old.toTemporary :: (olds ++ rest), registers⟩ :=
      p.change (.refl _) (p.occupied old mem_cons_self) (.inr rfl) fun _ => rfl
    exact (ih (changed.perm perm_middle.symm (.refl _))).perm perm_middle (.refl _)

theorem keepLiveEntriesLoop_partition {liveRegisters : ℕ → Bool} {kept : List (MapEntry lab)}
    (p : Partition target ⟨kept.reverse ++ entries, registers⟩) :
    Partition target (RegisterMap.keepLiveEntriesLoop target liveRegisters entries registers kept) := by
  induction entries generalizing registers kept with
  | nil =>
    rw [append_nil] at p
    exact p.perm (.refl _) (target.sort_perm _).symm
  | cons entry entries ih =>
    rw [RegisterMap.keepLiveEntriesLoop]
    split
    · apply ih
      rwa [reverse_cons, append_assoc]
    · apply ih
      exact (p.perm perm_middle (.refl _)).remove (.refl _)

theorem Partition.keepLiveEntries (p : Partition target map) (liveRegisters : ℕ → Bool) :
    Partition target (map.keepLiveEntries target liveRegisters) :=
  keepLiveEntriesLoop_partition p

variable [DecidableEq lab]

theorem Partition.front (p : Partition target map) (member : entry ∈ map.entries) :
    Partition target ⟨entry :: map.entries.erase entry, map.registers⟩ :=
  p.perm (perm_cons_erase member) (.refl _)

theorem replace_perm (distinct : map.entries.Nodup) (member : old ∈ map.entries) :
    (map.replace old new).Perm (new :: map.entries.erase old) := by
  unfold RegisterMap.replace
  obtain ⟨front, back, split⟩ := append_of_mem member
  rw [split] at distinct ⊢
  obtain ⟨-, apart, others⟩ := nodup_append.mp distinct
  have absent : old ∉ front := fun inFront => others old inFront old mem_cons_self rfl
  have absent' : old ∉ back := (nodup_cons.mp apart).1
  have keep : ∀ es : List (MapEntry lab), old ∉ es → es.map (fun e => if e = old then new else e) = es := by
    intro es absent
    conv_rhs => rw [← map_id es]
    apply map_congr_left
    intro e member
    exact if_neg fun same : e = old => absent (same ▸ member)
  rw [erase_append_right _ absent, erase_cons_head, map_append, map_cons, if_pos rfl, keep front absent,
    keep back absent']
  exact perm_middle

theorem Vacant.addAlias (vacant : Vacant target map register) (member : entry ∈ map.entries) :
    Partition target (map.addAlias entry register) := by
  refine (Partition.front vacant member).change ?_ (cons_ne_nil _ _) (.inl rfl) (Partition.saved vacant entry member)
  exact perm_middle.symm

theorem Vacant.replaceAlias {other : ℕ} (vacant : Vacant target map other) (member : entry ∈ map.entries)
    (only : entry.aliases = [register]) : Vacant target (map.replaceAlias entry register other) register := by
  have taken : register ∉ map.registers.erase other := by
    intro free
    exact Partition.not_free vacant member (only ▸ mem_cons_self) (mem_cons_of_mem _ free)
  refine (Partition.front vacant member).change ?_ ?_ (.inl rfl) (Partition.saved vacant entry member)
  · simp only [RegisterMap.replaceAlias, MapEntry.replaceAlias, only, erase_of_not_mem taken]
    simp only [replace_cons, beq_self_eq_true, cons_append, nil_append]
    exact .swap _ _ _
  · simp [MapEntry.replaceAlias, only]

section
variable (p : Partition target map)
include p

section
variable (member : entry ∈ map.entries)
include member

theorem Partition.saveEntry : Partition target (map.saveEntry entry) :=
  (p.front member).change (.refl _) (p.occupied entry member) (.inl rfl) fun _ => rfl

theorem Partition.entryToTemporary : Partition target (map.entryToTemporary entry) :=
  (p.front member).change (.refl _) (p.occupied entry member) (.inr rfl) fun _ => rfl

theorem Partition.deleteEntry : Partition target (map.deleteEntry target entry) :=
  (p.front member).remove (target.sort_perm _)

theorem Partition.setLabel (label : Option lab) :
    Partition target ⟨map.replace entry { entry with label := label }, map.registers⟩ := by
  refine .perm ?_ (replace_perm p.nodup_entries member).symm (.refl _)
  exact (p.front member).change (.refl _) (p.occupied entry member) (.inl rfl) (p.saved entry member)

theorem Partition.deleteAlias (holds : register ∈ entry.aliases) :
    Partition target (map.deleteAlias target entry register) := by
  have freed : (target.sortMachineRegisters (register :: map.registers)).Perm (register :: map.registers) :=
    target.sort_perm _
  have split := perm_cons_erase holds
  unfold RegisterMap.deleteAlias
  by_cases last : entry.aliases.tail = []
  · rw [if_pos last]
    apply (p.front member).remove
    obtain ⟨first, only⟩ : ∃ first, entry.aliases = [first] := by
      cases same : entry.aliases with
      | nil => exact absurd same (p.occupied entry member)
      | cons first others => exact ⟨first, by rw [same] at last; rw [show others = [] from last]⟩
    rw [only] at holds ⊢
    rw [mem_singleton.mp holds] at freed ⊢
    exact freed
  · rw [if_neg last]
    refine .perm ?_ (replace_perm p.nodup_entries member).symm (.refl _)
    refine (p.front member).change ?_ ?_ (.inl rfl) (p.saved entry member)
    · exact ((freed.append_left _).trans perm_middle).trans (split.symm.append_right _)
    · intro empty
      apply last
      have length := congrArg length empty
      simp only [MapEntry.deleteAlias, length_erase_of_mem holds, length_nil] at length
      apply eq_nil_of_length_eq_zero
      rw [length_tail]
      exact length

theorem Partition.deleteOtherAliases
    (holds : register ∈ entry.aliases) : Partition target (map.deleteOtherAliases target entry register) := by
  refine .perm ?_ (replace_perm p.nodup_entries member).symm (.refl _)
  refine (p.front member).change ?_ (cons_ne_nil _ _) (.inl rfl) (fun none => by rw [none]; rfl)
  have freed := target.sort_perm ((entry.aliases.filter fun other => other ≠ register) ++ map.registers)
  have others : (entry.aliases.filter fun other => other ≠ register) = entry.aliases.erase register := by
    rw [(p.nodup_aliases member).erase_eq_filter]
    apply filter_congr
    intro other _
    rw [Bool.eq_iff_iff]
    simp
  refine (freed.cons register).trans ?_
  rw [others]
  exact (perm_cons_erase holds).symm.append_right _

end

end

theorem perm_filter (distinct : map.entries.Nodup) (apart : olds.Nodup) (within : ∀ e ∈ olds, e ∈ map.entries) :
    map.entries.Perm (olds ++ map.entries.filter fun entry => !olds.contains entry) := by
  have kept : (map.entries.filter olds.contains).Perm olds := by
    apply (perm_ext_iff_of_nodup (distinct.filter _) apart).mpr
    intro e
    rw [mem_filter, contains_iff_mem]
    exact ⟨fun both => both.2, fun member => ⟨within e member, member⟩⟩
  have both := filter_append_perm olds.contains map.entries
  exact both.symm.trans (kept.append_right _)

theorem Partition.deleteEntries (p : Partition target map) (apart : olds.Nodup)
    (within : ∀ e ∈ olds, e ∈ map.entries) : Partition target (map.deleteEntries target olds) := by
  unfold RegisterMap.deleteEntries
  split
  · exact p
  · have split : Partition target ⟨olds ++ map.entries.filter fun entry => !olds.contains entry, map.registers⟩ :=
      p.perm (perm_filter p.nodup_entries apart within) (.refl _)
    exact split.removeAll (target.sort_perm _)

theorem Partition.entriesToTemporaries (p : Partition target map) (apart : olds.Nodup)
    (within : ∀ e ∈ olds, e ∈ map.entries) : Partition target (map.entriesToTemporaries olds) := by
  unfold RegisterMap.entriesToTemporaries
  split
  · exact p
  · have split : Partition target ⟨olds ++ map.entries.filter fun entry => !olds.contains entry, map.registers⟩ :=
      p.perm (perm_filter p.nodup_entries apart within) (.refl _)
    exact split.temporaries

theorem mem_deleteEntries (member : e ∈ map.entries) (stays : e ∉ olds) :
    e ∈ (map.deleteEntries target olds).entries := by
  unfold RegisterMap.deleteEntries
  split
  · exact member
  · simpa using ⟨member, stays⟩

theorem deletePseudoRegistersLoop_partition (p : Partition target map) {homes : List ℕ}
    {toDelete toTransform : List (MapEntry lab)} (distinct : homes.Nodup)
    (apart : (toDelete ++ toTransform).Nodup) (within : ∀ e ∈ toDelete ++ toTransform, e ∈ map.entries)
    (done : ∀ e ∈ toDelete ++ toTransform, ∀ home ∈ homes, e.home ≠ some home) :
    Partition target (deletePseudoRegistersLoop target map homes toDelete toTransform) := by
  induction homes generalizing toDelete toTransform with
  | nil =>
    rw [nodup_append] at apart
    simp only [mem_append] at within
    refine (p.deleteEntries apart.1 fun e member => within e (.inl member)).entriesToTemporaries apart.2.1 ?_
    intro e member
    exact mem_deleteEntries (within e (.inr member)) fun member' => apart.2.2 e member' e member rfl
  | cons home homes ih =>
    obtain ⟨fresh, distinct⟩ := nodup_cons.mp distinct
    rw [deletePseudoRegistersLoop]
    have later : ∀ e ∈ toDelete ++ toTransform, ∀ h ∈ homes, e.home ≠ some h :=
      fun e member h inHomes => done e member h (mem_cons_of_mem home inHomes)
    cases found : map.findHome home with
    | none => exact ih distinct apart within later
    | some entry =>
      obtain ⟨member, homed⟩ := findHome_some found
      have new : entry ∉ toDelete ++ toTransform := fun old => done entry old home mem_cons_self homed
      have apart' := nodup_cons.mpr ⟨new, apart⟩
      have within' := forall_mem_cons.mpr ⟨member, within⟩
      have later' : ∀ e ∈ entry :: (toDelete ++ toTransform), ∀ h ∈ homes, e.home ≠ some h := by
        refine forall_mem_cons.mpr ⟨?_, later⟩
        rintro h inHomes same
        rw [homed] at same
        exact fresh (Option.some.inj same ▸ inHomes)
      dsimp only
      split
      · exact ih distinct apart' within' later'
      · have middle : (entry :: (toDelete ++ toTransform)).Perm (toDelete ++ entry :: toTransform) :=
          perm_middle.symm
        refine ih distinct (middle.nodup_iff.mp apart') ?_ ?_
        · exact fun e member => within' e (middle.mem_iff.mpr member)
        · exact fun e member => later' e (middle.mem_iff.mpr member)

theorem Partition.deletePseudoRegisters (p : Partition target map) {homes : List ℕ} (distinct : homes.Nodup) :
    Partition target (deletePseudoRegisters target map homes) :=
  deletePseudoRegistersLoop_partition p distinct nodup_nil nofun nofun

end MitScheme.Compiler.RegisterMaps
