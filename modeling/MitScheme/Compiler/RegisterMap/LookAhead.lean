import MitScheme.Compiler.RegisterMap.Allocation

/-!
What the allocator's predicates tell beforehand of `make-free-register`.
-/

namespace MitScheme.Compiler.RegisterMaps

open Library
open Option (isSome_iff_exists isSome_iff_ne_none isSome_map)

variable {τ lab : Type} [DecidableEq τ] {target : Target τ} {map : RegisterMap lab} {entry : MapEntry lab}
  {type : Option τ} {needed : List ℕ} {register : ℕ} {kind : MapEntry lab → Prop}

/-- An entry of some kind has an alias that can be used. -/
def Offers (kind : MapEntry lab → Prop) (target : Target τ) (map : RegisterMap lab) (type : Option τ) (needed : List ℕ) :
    Prop := ∃ e ∈ map.entries, kind e ∧ ∃ r ∈ e.aliases, Usable target type needed r

/-- `find-free-register` takes an alias of such an entry. -/
def Spare (e : MapEntry lab) : Prop :=
  (e.home = none ∧ e.label = none) ∨ e.aliases.tail ≠ [] ∨ e.home ≠ none ∧ e.savedIntoHome = true

def Labelled (e : MapEntry lab) : Prop := (e.label.isSome && e.home.isNone) = true

def Unsaved (e : MapEntry lab) : Prop := (e.home.isSome && !e.savedIntoHome) = true

def Ready (target : Target τ) (map : RegisterMap lab) (type : Option τ) (needed : List ℕ) : Prop :=
  (∃ r ∈ map.registers, Usable target type needed r) ∨ Offers Spare target map type needed

theorem find_isSome {registers : List ℕ} :
    (registers.find? fun r => target.isType r type && !needed.contains r).isSome = true ↔
      ∃ r ∈ registers, Usable target type needed r := by
  simp [Usable]

theorem search_isSome {γ : Type} {entries : List (MapEntry lab)} {procedure : MapEntry lab → Option γ} :
    (search entries procedure).isSome = true ↔ ∃ e ∈ entries, (procedure e).isSome = true := by
  induction entries with
  | nil => simp [search]
  | cons entry entries ih => simp [search, ih, or_comm]

theorem search_offers {γ : Type} [DecidablePred kind] {procedure : MapEntry lab → Option γ}
    (same : ∀ e, (procedure e).isSome = (e.findAlias target type needed).isSome) :
    (search map.entries fun e => if kind e then procedure e else none).isSome = true ↔
      Offers kind target map type needed := by
  refine search_isSome.trans (exists_congr fun e => and_congr_right fun _ => ?_)
  rw [← find_isSome, ← MapEntry.findAlias]
  split <;> simp [*]

theorem offers_or {kind' : MapEntry lab → Prop} : Offers kind target map type needed ∨ Offers kind' target map type needed ↔
    Offers (fun e => kind e ∨ kind' e) target map type needed := by
  simp [Offers, or_and_right, and_or_left, exists_or]

theorem kinds (e : MapEntry lab) : Spare e ∨ Labelled e ∨ Unsaved e := by
  simp only [Spare, Labelled, Unsaved, Bool.and_eq_true, isSome_iff_ne_none, Option.isNone_iff_eq_none]
  cases e.savedIntoHome <;> simp <;> tauto

theorem usable_cons {r : ℕ} (other : r ≠ register) : Usable target type (register :: needed) r ↔ Usable target type needed r := by
  simp [Usable, other]

section
variable (p : Partition target map) (member : entry ∈ map.entries) (holds : register ∈ entry.aliases)
include p member holds

theorem offers_cons (not_kind : ¬kind entry) :
    Offers kind target map type (register :: needed) ↔ Offers kind target map type needed := by
  refine exists_congr fun e => and_congr_right fun member' => and_congr_right fun isKind => exists_congr fun r =>
    and_congr_right fun holds' => usable_cons ?_
  rintro rfl
  exact not_kind (p.unique member member' holds holds' ▸ isKind)

theorem ready_cons (not_spare : ¬Spare entry) :
    Ready target map type (register :: needed) ↔ Ready target map type needed := by
  refine or_congr (exists_congr fun r => and_congr_right fun free => usable_cons ?_) (offers_cons p member holds not_spare)
  rintro rfl
  exact p.not_free member holds free

end

theorem not_spare (not_ready : ¬Ready target map type needed) (member : entry ∈ map.entries) (holds : register ∈ entry.aliases)
    (usable : Usable target type needed register) : ¬Spare entry :=
  fun spare => not_ready (.inr ⟨entry, member, spare, register, holds, usable⟩)

/-- A register of the type that has the same contents as another one. -/
def OtherAlias (target : Target τ) (map : RegisterMap lab) (type : Option τ) (register other : ℕ) : Prop :=
  other ≠ register ∧ target.isType other type = true ∧ ∃ e ∈ map.entries, register ∈ e.aliases ∧ other ∈ e.aliases

/-- `machine-register-alias` gives its arguments to `register-type?` the other way around. Nothing is an error. -/
def machineRegisterAlias (registerType : Option τ → Option τ) (map : RegisterMap lab) (type : Option τ) (register : ℕ) :
    Option (Option ℕ) :=
  match map.findAlias register with
  | none => some none
  | some entry => entry.aliases.findM? fun other =>
    if other = register then some false
    else (registerType type).map fun type => decide ((.inl other : ℕ ⊕ τ) = .inr type)

theorem machineRegisterAlias_missing {registerType : Option τ → Option τ} {other : ℕ} :
    machineRegisterAlias registerType map type register ≠ some (some other) := by
  unfold machineRegisterAlias
  cases map.findAlias register with
  | none => exact nofun
  | some entry =>
    generalize registerType type = answer
    dsimp only
    induction entry.aliases with
    | nil => exact nofun
    | cons r aliases ih =>
      rw [List.findM?]
      split
      · exact ih
      · cases answer with
        | none => exact nofun
        | some type => exact ih

theorem freeRegisterExists_iff : freeRegisterExists target map type needed = true ↔
    Ready target map type needed ∨ Offers Labelled target map type needed := by
  have unload : (search map.entries fun e => if (e.findAlias target type needed).isSome &&
      (e.home.isNone || e.aliases.tail ≠ []) then some true else none).isSome = true ↔
        Offers (fun e => e.home = none ∨ e.aliases.tail ≠ []) target map type needed := by
    refine search_isSome.trans (exists_congr fun e => and_congr_right fun _ => ?_)
    rw [← find_isSome, ← MapEntry.findAlias]
    simp [and_comm]
  have kinds : ∀ e : MapEntry lab, (e.home = none ∨ e.aliases.tail ≠ []) ∨ (e.home.isSome && e.savedIntoHome) = true ↔
      Spare e ∨ Labelled e := by
    intro e
    simp only [Spare, Labelled, Bool.and_eq_true, isSome_iff_ne_none, Option.isNone_iff_eq_none]
    tauto
  simp only [freeRegisterExists, allocateRegisterWithoutUnload, Bool.or_eq_true, find_isSome, unload, search_offers fun _ => rfl,
    or_assoc, offers_or, Ready]
  simp only [← or_assoc, kinds]

/-- The type of the register that `make-free-register` moves an alias to. -/
def otherType (target : Target τ) (type : Option τ) : Option τ := if target.typesCompatible type none then none else type

theorem allocateRegisterWithoutSpill_iff (not_ready : ¬Ready target map type needed) (p : Partition target map) :
    allocateRegisterWithoutSpill target map type needed = true ↔ Offers Labelled target map type needed ∨
      Offers Unsaved target map type needed ∧
        (Ready target map (otherType target type) needed ∨ Offers Labelled target map (otherType target type) needed) := by
  simp only [allocateRegisterWithoutSpill, Bool.or_eq_true, search_isSome, freeRegisterExists_iff, not_ready, false_or]
  refine or_congr_right' fun none_labelled => ?_
  have moved : ∀ e ∈ map.entries, ∀ r ∈ e.aliases, Usable target type needed r →
      (Ready target map (otherType target type) (r :: needed) ∨ Offers Labelled target map (otherType target type) (r :: needed) ↔
        Ready target map (otherType target type) needed ∨ Offers Labelled target map (otherType target type) needed) := by
    intro e member r holds usable
    exact or_congr (ready_cons p member holds (not_spare not_ready member holds usable))
      (offers_cons p member holds fun labelled => none_labelled ⟨e, member, labelled, r, holds, usable⟩)
  constructor
  · rintro ⟨e, member, found⟩
    obtain ⟨_, found⟩ := isSome_iff_exists.mp found
    obtain ⟨r, found, fits⟩ := Option.bind_eq_some_iff.mp found
    obtain ⟨holds, usable⟩ := findAlias_usable found
    have fits := (Option.ite_none_right_eq_some.mp fits).1
    rw [freeRegisterExists_iff] at fits
    have unsaved := ((kinds e).resolve_left (not_spare not_ready member holds usable)).resolve_left fun labelled =>
      none_labelled ⟨e, member, labelled, r, holds, usable⟩
    exact ⟨⟨e, member, unsaved, r, holds, usable⟩, (moved e member r holds usable).mp fits⟩
  · rintro ⟨⟨e, member, -, fits⟩, ready⟩
    obtain ⟨r, found⟩ := isSome_iff_exists.mp (find_isSome.mpr fits)
    obtain ⟨holds, usable⟩ := findAlias_usable found
    have fits := freeRegisterExists_iff.mpr ((moved e member r holds usable).mpr ready)
    refine ⟨e, member, ?_⟩
    rw [MapEntry.findAlias, found]
    exact (congrArg Option.isSome (if_pos fits)).trans rfl

variable [DecidableEq lab]

theorem findFreeRegister_isSome :
    (findFreeRegister target map type needed).isSome = true ↔ Ready target map type needed := by
  have found : ∀ e, (reallocateAlias target map type needed e).isSome = (e.findAlias target type needed).isSome :=
    fun _ => isSome_map
  simp only [findFreeRegister, Option.isSome_or, isSome_map, Bool.or_eq_true, find_isSome, search_offers found]
  simp [Ready, Offers, Spare, or_and_right, exists_or, and_or_left, isSome_iff_ne_none]

theorem makeFreeRegister_iff (not_ready : ¬Ready target map type needed) (p : Partition target map) :
    ((∃ values, makeFreeRegister target map type needed = some values ∧ ∀ r h, .registerToHome r h ∉ values.instructions) ↔
      Offers Unsaved target map type needed ∧ Ready target map (otherType target type) needed ∨
        ¬Offers Unsaved target map type needed ∧ Offers Labelled target map type needed) ∧
    ((∃ values, makeFreeRegister target map type needed = some values ∧ values.instructions = []) ↔
      ¬Offers Unsaved target map type needed ∧ Offers Labelled target map type needed) := by
  have second : (search map.entries fun e => if e.home.isSome && !e.savedIntoHome then (e.findAlias target type needed).bind
      fun register => (stash target map type needed e register).or
        (some ⟨register, map.deleteAlias target e register, saveIntoHomeInstruction e⟩) else none).isSome = true ↔
      Offers Unsaved target map type needed := search_offers fun e => by cases e.findAlias target type needed <;> simp
  rw [makeFreeRegister, Option.not_isSome_iff_eq_none.mp (mt findFreeRegister_isSome.mp not_ready)]
  by_cases unsaved : Offers Unsaved target map type needed
  · obtain ⟨values, made⟩ := isSome_iff_exists.mp (second.mpr unsaved)
    rw [made]
    obtain ⟨e, member, made⟩ := search_some made
    obtain ⟨met, made⟩ := Option.ite_none_right_eq_some.mp made
    obtain ⟨register, found, made⟩ := Option.bind_eq_some_iff.mp made
    obtain ⟨holds, usable⟩ := findAlias_usable found
    have moved : Ready target map (otherType target type) (register :: needed) ↔ Ready target map (otherType target type) needed :=
      ready_cons p member holds (not_spare not_ready member holds usable)
    rcases Option.or_eq_some_iff.mp made with stashed | ⟨failed, spilled⟩
    · cases type with
      | none => cases stashed
      | some type =>
        obtain ⟨inner, free, rfl⟩ := Option.map_eq_some_iff.mp stashed
        have ready := moved.mp (findFreeRegister_isSome.mp (Option.isSome_of_mem free))
        simp [(findFreeRegister_some free).instructions, unsaved, ready]
    · cases spilled
      obtain ⟨home, homed⟩ := isSome_iff_exists.mp (Bool.and_eq_true_iff.mp met).1
      have full : ¬Ready target map (otherType target type) needed := by
        cases type with
        | none => simpa [otherType] using not_ready
        | some type =>
          rw [← moved, ← findFreeRegister_isSome, otherType, Option.map_eq_none_iff.mp failed]
          exact Bool.false_ne_true
      simp [saveIntoHomeInstruction, homed, unsaved, full]
  · rw [Option.not_isSome_iff_eq_none.mp (mt second.mp unsaved)]
    have third : (search map.entries fun e => if e.label.isSome && e.home.isNone then reallocateAlias target map type needed e
        else none).isSome = true ↔ Offers Labelled target map type needed := search_offers fun _ => isSome_map
    have silent : ∀ values, (search map.entries fun e => if e.label.isSome && e.home.isNone then
        reallocateAlias target map type needed e else none) = some values → values.instructions = [] := by
      intro values found
      obtain ⟨e, -, found⟩ := search_some found
      obtain ⟨register, -, -, rfl⟩ := reallocateAlias_some (Option.ite_none_right_eq_some.mp found).2
      rfl
    rw [← third, isSome_iff_exists, and_iff_right unsaved, or_iff_right fun both => unsaved both.1]
    exact ⟨exists_congr fun values => and_iff_left_of_imp fun found => by simp [silent values found],
      exists_congr fun values => and_iff_left_of_imp (silent values)⟩

def LooksAhead (target : Target τ) (registerType : Option τ → Option τ) (map : RegisterMap lab) (type : Option τ)
    (needed : List ℕ) (register : ℕ) : Prop :=
  (allocateRegisterWithoutSpill target map type needed = true ↔ ∃ values, makeFreeRegister target map type needed = some values ∧
    ∀ r h, .registerToHome r h ∉ values.instructions) ∧
  (freeRegisterExists target map type needed = true ↔ ∃ values, makeFreeRegister target map type needed = some values ∧
    values.instructions = []) ∧
  ((∃ other, OtherAlias target map type register other) →
    ∃ other, machineRegisterAlias registerType map type register = some (some other) ∧ OtherAlias target map type register other)

/-- The predicates agree with the allocator unless a labelled register is passed over for one that is not saved, and an
alias of a register is never found. -/
theorem looksAhead_iff (p : Partition target map) (registerType : Option τ → Option τ) :
    LooksAhead target registerType map type needed register ↔
      (Ready target map type needed ∨ ¬Offers Unsaved target map type needed ∨
        ¬Offers Labelled target map type needed ∧
          (Ready target map (otherType target type) needed ∨ ¬Offers Labelled target map (otherType target type) needed)) ∧
      ¬∃ other, OtherAlias target map type register other := by
  have found : ¬∃ other, machineRegisterAlias registerType map type register = some (some other) ∧
      OtherAlias target map type register other := fun ⟨_, found, _⟩ => machineRegisterAlias_missing found
  rw [LooksAhead, imp_iff_not found, ← and_assoc]
  refine and_congr_left fun _ => ?_
  by_cases ready : Ready target map type needed
  · obtain ⟨values, free⟩ := isSome_iff_exists.mp (findFreeRegister_isSome.mpr ready)
    have made : makeFreeRegister target map type needed = some values := by rw [makeFreeRegister, free, Option.some_or]
    have exists_free : freeRegisterExists target map type needed = true := freeRegisterExists_iff.mpr (.inl ready)
    simp [made, allocateRegisterWithoutSpill, exists_free, (findFreeRegister_some free).instructions, ready]
  · obtain ⟨spills, silent⟩ := makeFreeRegister_iff ready p
    rw [allocateRegisterWithoutSpill_iff ready p, freeRegisterExists_iff, spills, silent]
    by_cases unsaved : Offers Unsaved target map type needed <;> by_cases labelled : Offers Labelled target map type needed <;>
      simp [unsaved, labelled, ready]
    tauto

def labelledMap : RegisterMap ℕ := ⟨[⟨none, true, [1], some 7⟩, ⟨some 10, false, [0], none⟩], [2]⟩

theorem looksAhead_small : LooksAhead smallTarget (fun _ => none) labelledMap none [] 0 := by
  refine (looksAhead_iff ⟨by decide, by decide, by decide, by decide, by decide⟩ fun _ => none).mpr ⟨.inl (.inl ⟨2, ?_⟩), ?_⟩
  · exact ⟨by decide, by decide, by decide⟩
  · rintro ⟨other, different, -, entry, member, holds, holds'⟩
    rcases List.mem_pair.mp member with rfl | rfl
    · exact absurd holds (by decide)
    · exact different (List.mem_singleton.mp holds')

end MitScheme.Compiler.RegisterMaps
