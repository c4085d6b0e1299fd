import Mathlib
import MitScheme.Compiler.RegisterMap.Merged
import MitScheme.Compiler.RegisterMap.Values
import MitScheme.Library.Moves

namespace MitScheme.Compiler.RegisterMaps

open Library.Moves MapEntry

variable {β τ lab V ω : Type}

/-- What `three-way-sort` gives to its receiver. -/
structure ThreeWays (β : Type) where
  left : List β
  both : List (β × β)
  right : List β

def threeWaySort [DecidableEq β] (same : β → β → Bool) : (set set' : List β) → ThreeWays β
  | [], set' => ⟨[], [], set'⟩
  | item :: set, set' =>
    match set'.find? (same item) with
    | some item' =>
      let sorted := threeWaySort same set (set'.erase item')
      { sorted with both := (item, item') :: sorted.both }
    | none =>
      let sorted := threeWaySort same set set'
      { sorted with left := item :: sorted.left }

def inputLoop (entries : List (MapEntry lab)) : List Instruction :=
  entries.flatMap fun entry => if entry.savedIntoHome then [] else saveIntoHomeInstruction entry

def transfers (pair : MapEntry lab × MapEntry lab) : List (Move ℕ) :=
  (pair.2.aliases.filter fun r => r ∉ pair.1.aliases).map fun r => ⟨pair.1.anyAlias, r⟩

def toInstruction (move : Move ℕ) : Instruction := .registerToRegister move.source move.target

def sharedLoop (pairs : List (MapEntry lab × MapEntry lab)) : List Instruction :=
  (pairs.flatMap transfers).map toInstruction

def outputEntry (entry : MapEntry lab) : List Instruction :=
  match entry.home with
  | some home => .homeToRegister home entry.anyAlias :: entry.aliases.tail.map (.registerToRegister entry.anyAlias)
  | none => []

def outputLoop (entries : List (MapEntry lab)) : List Instruction := entries.flatMap outputEntry

/-- `map-entry=?`. -/
def MapEntry.same (entry entry' : MapEntry lab) : Bool := entry.home = entry'.home

section
variable [DecidableEq lab]

def coerceMapInstructions (input output : RegisterMap lab) : List Instruction :=
  let sorted := threeWaySort same input.entries output.entries
  inputLoop sorted.left ++ (sharedLoop sorted.both ++ outputLoop sorted.right)

end

variable {contents : ℕ → V} {s : MachineState V} {entries : List (MapEntry lab)}

theorem saveUnsaved_spec {e : MapEntry lab} (held : ∀ h, e.home = some h → s.registers e.anyAlias = contents h) :
    (executeAll (if e.savedIntoHome then [] else saveIntoHomeInstruction e) s).registers = s.registers ∧
      (∀ h, s.memory h = contents h →
        (executeAll (if e.savedIntoHome then [] else saveIntoHomeInstruction e) s).memory h = contents h) ∧
      ∀ h, e.home = some h → e.savedIntoHome = false →
        (executeAll (if e.savedIntoHome then [] else saveIntoHomeInstruction e) s).memory h = contents h := by
  cases saved : e.savedIntoHome with
  | true => exact ⟨rfl, fun _ same => same, nofun⟩
  | false =>
    unfold saveIntoHomeInstruction
    cases homed : e.home with
    | none => exact ⟨rfl, fun _ same => same, nofun⟩
    | some home =>
      have stored : (s.setMemory home (s.registers e.anyAlias)).memory home = contents home :=
        (s.setMemory_same home _).trans (held home homed)
      refine ⟨rfl, ?_, ?_⟩
      · intro h same
        by_cases atHome : h = home
        · exact atHome ▸ stored
        · exact (s.setMemory_other _ atHome).trans same
      · rintro h same -
        exact Option.some.inj same ▸ stored

theorem inputLoop_spec (held : ∀ e ∈ entries, ∀ h, e.home = some h → s.registers e.anyAlias = contents h) :
    (executeAll (inputLoop entries) s).registers = s.registers ∧
      (∀ h, s.memory h = contents h → (executeAll (inputLoop entries) s).memory h = contents h) ∧
      ∀ e ∈ entries, ∀ h, e.home = some h → e.savedIntoHome = false →
        (executeAll (inputLoop entries) s).memory h = contents h := by
  induction entries generalizing s with
  | nil => exact ⟨rfl, fun _ same => same, nofun⟩
  | cons e entries ih =>
    obtain ⟨here, held⟩ := List.forall_mem_cons.mp held
    obtain ⟨registers, memory, saves⟩ := saveUnsaved_spec here
    have rest := @ih (executeAll (if e.savedIntoHome then [] else saveIntoHomeInstruction e) s) (registers ▸ held)
    obtain ⟨registers', memory', saves'⟩ := rest
    rw [inputLoop, List.flatMap_cons, executeAll_append]
    refine ⟨registers'.trans registers, fun h same => memory' h (memory h same), ?_⟩
    intro e' member h homed unsaved
    rcases List.mem_cons.mp member with rfl | member
    · exact memory' h (saves h homed unsaved)
    · exact saves' e' member h homed unsaved

theorem sharedLoop_spec (pairs : List (MapEntry lab × MapEntry lab)) :
    executeAll (sharedLoop pairs) s = { s with registers := sequence (pairs.flatMap transfers) s.registers } := by
  unfold sharedLoop
  generalize pairs.flatMap transfers = moves
  induction moves generalizing s with
  | nil => rfl
  | cons move moves ih => exact ih

theorem copies_spec (source : ℕ) (targets : List ℕ) (fresh : source ∉ targets) (s : MachineState V) :
    (executeAll (targets.map (.registerToRegister source)) s).memory = s.memory ∧
      (∀ r ∈ targets, (executeAll (targets.map (.registerToRegister source)) s).registers r = s.registers source) ∧
      ∀ r, r ∉ targets → (executeAll (targets.map (.registerToRegister source)) s).registers r = s.registers r := by
  induction targets generalizing s with
  | nil => exact ⟨rfl, nofun, fun _ _ => rfl⟩
  | cons target targets ih =>
    obtain ⟨different, fresh⟩ := List.ne_and_not_mem_of_not_mem_cons fresh
    obtain ⟨memory, copied, others⟩ := ih fresh (s.setRegister target (s.registers source))
    have kept : (s.setRegister target (s.registers source)).registers source = s.registers source :=
      s.setRegister_other _ different
    refine ⟨memory, ?_, ?_⟩
    · intro r member
      by_cases again : r ∈ targets
      · exact (copied r again).trans kept
      · rcases List.mem_cons.mp member with rfl | member
        · exact (others r again).trans (s.setRegister_same r _)
        · exact absurd member again
    · intro r absent
      obtain ⟨other, absent⟩ := List.ne_and_not_mem_of_not_mem_cons absent
      exact (others r absent).trans (s.setRegister_other _ other)

theorem outputEntry_spec {e : MapEntry lab} {home : ℕ} (homed : e.home = some home) (occupied : e.aliases ≠ [])
    (distinct : e.aliases.Nodup) (s : MachineState V) : (executeAll (outputEntry e) s).memory =
    s.memory ∧ (∀ r ∈ e.aliases, (executeAll (outputEntry e) s).registers r = s.memory home) ∧ ∀ r,
    r ∉ e.aliases → (executeAll (outputEntry e) s).registers r = s.registers r := by
  obtain ⟨first, others, split⟩ := List.exists_cons_of_ne_nil occupied
  rw [split] at distinct
  obtain ⟨fresh, -⟩ := List.nodup_cons.mp distinct
  have atFirst : e.anyAlias = first := by rw [anyAlias, split]; rfl
  obtain ⟨memory, copied, untouched⟩ := copies_spec first others fresh (s.setRegister first (s.memory home))
  rw [outputEntry, homed, atFirst, split]
  refine ⟨memory, ?_, ?_⟩
  · intro r member
    rcases List.mem_cons.mp member with rfl | member
    · exact (untouched r fresh).trans (s.setRegister_same r _)
    · exact (copied r member).trans (s.setRegister_same first _)
  · intro r absent
    obtain ⟨other, absent⟩ := List.ne_and_not_mem_of_not_mem_cons absent
    exact (untouched r absent).trans (s.setRegister_other _ other)

theorem outputLoop_spec (homed : ∀ e ∈ entries, e.home ≠ none) (occupied : ∀ e ∈ entries, e.aliases ≠ [])
    (distinct : (entries.flatMap aliases).Nodup) (s : MachineState V) :
    (executeAll (outputLoop entries) s).memory = s.memory ∧
      (∀ e ∈ entries, ∀ h, e.home = some h → ∀ r ∈ e.aliases,
        (executeAll (outputLoop entries) s).registers r = s.memory h) ∧
      ∀ r, (∀ e ∈ entries, r ∉ e.aliases) → (executeAll (outputLoop entries) s).registers r = s.registers r := by
  induction entries generalizing s with
  | nil => exact ⟨rfl, nofun, fun _ _ => rfl⟩
  | cons e entries ih =>
    obtain ⟨here, homed⟩ := List.forall_mem_cons.mp homed
    obtain ⟨home, here⟩ := Option.ne_none_iff_exists'.mp here
    obtain ⟨nonempty, occupied⟩ := List.forall_mem_cons.mp occupied
    obtain ⟨alone, distinct, apart⟩ := List.nodup_append.mp distinct
    obtain ⟨memory, loaded, others⟩ := outputEntry_spec here nonempty alone s
    obtain ⟨memory', loaded', others'⟩ := ih homed occupied distinct (executeAll (outputEntry e) s)
    rw [outputLoop, List.flatMap_cons, executeAll_append]
    refine ⟨memory'.trans memory, ?_, ?_⟩
    · intro e' member h atHome r holds
      rcases List.mem_cons.mp member with rfl | member
      · obtain rfl := Option.some.inj (here.symm.trans atHome)
        refine (others' r ?_).trans (loaded r holds)
        intro e'' member holds'
        exact apart r holds r (List.mem_flatMap.mpr ⟨e'', member, holds'⟩) rfl
      · rw [← memory]
        exact loaded' e' member h atHome r holds
    · intro r absent
      obtain ⟨absentHere, absent⟩ := List.forall_mem_cons.mp absent
      exact (others' r absent).trans (others r absentHere)

theorem mem_transfers {pair : MapEntry lab × MapEntry lab} {move : Move ℕ} :
    move ∈ transfers pair ↔ move.source = pair.1.anyAlias ∧ move.target ∈ pair.2.aliases ∧ move.target ∉ pair.1.aliases := by
  constructor
  · intro member
    obtain ⟨r, kept, rfl⟩ := List.mem_map.mp member
    obtain ⟨holds, fresh⟩ := List.mem_filter.mp kept
    exact ⟨rfl, holds, of_decide_eq_true fresh⟩
  · rintro ⟨source, holds, fresh⟩
    refine List.mem_map.mpr ⟨move.target, List.mem_filter.mpr ⟨holds, decide_eq_true fresh⟩, ?_⟩
    rw [← source]

theorem transfers_targets (pair : MapEntry lab × MapEntry lab) :
    (transfers pair).map Move.target = pair.2.aliases.filter fun r => r ∉ pair.1.aliases := by
  unfold transfers
  rw [List.map_map]
  exact List.map_id _

theorem pairwise_of_sublist {R : β → β → Prop} {l l' : List β} (sub : l.Sublist l') (distinct : l'.Nodup)
    (pairwise : l.Pairwise R) (trivially : ∀ a ∈ l', a ∉ l → ∀ b, R a b ∧ R b a) : l'.Pairwise R := by
  induction sub with
  | slnil => exact .nil
  | @cons l l' a sub ih =>
    obtain ⟨fresh, distinct⟩ := List.nodup_cons.mp distinct
    have absent : a ∉ l := fun member => fresh (sub.subset member)
    refine .cons (fun b _ => (trivially a List.mem_cons_self absent b).1) (ih distinct pairwise ?_)
    exact fun b member => trivially b (List.mem_cons_of_mem a member)
  | @cons_cons l l' a sub ih =>
    obtain ⟨fresh, distinct⟩ := List.nodup_cons.mp distinct
    obtain ⟨here, pairwise⟩ := List.pairwise_cons.mp pairwise
    have others : ∀ b ∈ l', b ∉ l → ∀ c, R b c ∧ R c b := by
      intro b member absent
      apply trivially b (List.mem_cons_of_mem a member)
      intro member'
      rcases List.mem_cons.mp member' with rfl | member'
      · exact fresh member
      · exact absent member'
    refine .cons ?_ (ih distinct pairwise others)
    intro b member
    by_cases kept : b ∈ l
    · exact here b kept
    · exact (others b member kept a).2

variable {target : Target τ} {from' into : RegisterMap lab} {sorted : ThreeWays (MapEntry lab)}
  {input output : List (MapEntry lab)} {e e' : MapEntry lab}

theorem same_iff : e.same e' = true ↔ e.home = e'.home := decide_eq_true_iff

theorem Partition.distinct_homes {map : RegisterMap lab} (p : Partition target map)
    (homed : ∀ e ∈ map.entries, e.home ≠ none) : (map.entries.map home).Nodup := by
  rw [homes_eq homed]
  exact p.homes.map fun _ _ same => Option.some.inj same

theorem find_same (found : output.find? e.same = some e') : e' ∈ output ∧ e.home = e'.home :=
  ⟨List.mem_of_find?_eq_some found, same_iff.mp (List.find?_some found)⟩

theorem find_same_none (missing : output.find? e.same = none) : ∀ o ∈ output, o.home ≠ e.home := by
  intro o member same
  exact List.find?_eq_none.mp missing o member (same_iff.mpr same.symm)

/-- The entries by their homes: only the input's, the shared ones, and only the output's. -/
structure Sorted (input output : List (MapEntry lab)) (sorted : ThreeWays (MapEntry lab)) : Prop where
  left : ∀ e ∈ input, (∀ o ∈ output, o.home ≠ e.home) → e ∈ sorted.left
  fromLeft : ∀ e ∈ sorted.left, e ∈ input
  inputs : (sorted.both.map Prod.fst).Sublist input
  outputs : ∀ pair ∈ sorted.both, pair.2 ∈ output ∧ pair.1.home = pair.2.home
  both : ∀ e ∈ input, ∀ o ∈ output, e.home = o.home → (e, o) ∈ sorted.both
  right : ∀ o ∈ output, (∀ e ∈ input, e.home ≠ o.home) → o ∈ sorted.right
  fromRight : sorted.right.Sublist output
  alone : ∀ o ∈ sorted.right, ∀ e ∈ input, e.home ≠ o.home

/-- Where a home needs a transfer, its first alias is not given to a home that comes before it in the input map. -/
def Undisturbed (input output : RegisterMap lab) : Prop :=
  input.entries.Pairwise fun earlier later => ∀ o ∈ output.entries, o.home = earlier.home →
    ∀ o' ∈ output.entries, o'.home = later.home →
      (∀ r ∈ o'.aliases, r ∈ later.aliases) ∨ later.anyAlias ∉ o.aliases

theorem targets_distinct (p : Partition target from') (p' : Partition target into)
    (homed : ∀ e ∈ from'.entries, e.home ≠ none) (sorts : Sorted from'.entries into.entries sorted) :
    ((sorted.both.flatMap transfers).map Move.target).Nodup := by
  rw [List.map_flatMap]
  simp only [transfers_targets]
  refine List.nodup_flatMap.mpr ⟨?_, ?_⟩
  · intro pair member
    exact (p'.nodup_aliases (sorts.outputs pair member).1).filter _
  · have different : sorted.both.Pairwise fun pair pair' => pair.1.home ≠ pair'.1.home := by
      have homes := (p.distinct_homes homed).sublist (sorts.inputs.map home)
      rw [List.map_map] at homes
      exact List.pairwise_map.mp homes
    refine different.imp_of_mem ?_
    intro pair pair' member member' other r holds holds'
    obtain ⟨inOutput, same⟩ := sorts.outputs pair member
    obtain ⟨inOutput', same'⟩ := sorts.outputs pair' member'
    have equal := p'.unique inOutput inOutput' (List.mem_filter.mp holds).1 (List.mem_filter.mp holds').1
    exact other (same.trans ((congrArg home equal).trans same'.symm))

theorem clear_iff (p : Partition target from') (p' : Partition target into) (homed : ∀ e ∈ from'.entries, e.home ≠ none)
    (homed' : ∀ e ∈ into.entries, e.home ≠ none) (sorts : Sorted from'.entries into.entries sorted) :
    Clear (sorted.both.flatMap transfers) ↔ Undisturbed from' into := by
  have distinct := (p.distinct_homes homed)
  constructor
  · intro clear
    refine pairwise_of_sublist sorts.inputs (List.Nodup.of_map _ distinct) ?_ ?_
    · have different := List.pairwise_map.mp ((List.Nodup.of_map _ distinct).sublist sorts.inputs)
      refine List.pairwise_map.mpr (((List.pairwise_flatMap.mp clear).2.and different).imp_of_mem ?_)
      intro pair pair' member member' ⟨apart, other⟩ o inOutput same o' inOutput' same'
      obtain ⟨inOutput₂, same₂⟩ := sorts.outputs pair member
      obtain ⟨inOutput₂', same₂'⟩ := sorts.outputs pair' member'
      obtain rfl : o = pair.2 := List.inj_on_of_nodup_map (p'.distinct_homes homed') inOutput inOutput₂ (same.trans same₂)
      obtain rfl : o' = pair'.2 :=
        List.inj_on_of_nodup_map (p'.distinct_homes homed') inOutput' inOutput₂' (same'.trans same₂')
      by_contra disturbed
      push Not at disturbed
      obtain ⟨⟨r, holds, fresh⟩, given⟩ := disturbed
      have inInput := sorts.inputs.subset (List.mem_map_of_mem member)
      have inInput' := sorts.inputs.subset (List.mem_map_of_mem member')
      have first := anyAlias_mem (p.occupied _ inInput')
      have notHeld : pair'.1.anyAlias ∉ pair.1.aliases := fun held => other (p.unique inInput inInput' held first)
      exact apart ⟨pair.1.anyAlias, pair'.1.anyAlias⟩ (mem_transfers.mpr ⟨rfl, given, notHeld⟩)
        ⟨pair'.1.anyAlias, r⟩ (mem_transfers.mpr ⟨rfl, holds, fresh⟩) rfl
    · intro e member unshared b
      have none : ∀ o ∈ into.entries, o.home ≠ e.home := by
        intro o inOutput same
        exact unshared (List.mem_map.mpr ⟨(e, o), sorts.both e member o inOutput same.symm, rfl⟩)
      exact ⟨fun o inOutput same => absurd same (none o inOutput),
        fun _ _ _ o inOutput same => absurd same (none o inOutput)⟩
  · intro undisturbed
    refine List.pairwise_flatMap.mpr ⟨?_, ?_⟩
    · intro pair member
      apply List.pairwise_of_forall_mem_list
      intro earlier inTransfers later inTransfers' same
      have inInput := sorts.inputs.subset (List.mem_map_of_mem member)
      have held := anyAlias_mem (p.occupied _ inInput)
      rw [← (mem_transfers.mp inTransfers').1, same] at held
      exact (mem_transfers.mp inTransfers).2.2 held
    · refine (List.pairwise_map.mp (undisturbed.sublist sorts.inputs)).imp_of_mem ?_
      intro pair pair' member member' undisturbed earlier inTransfers later inTransfers' same
      obtain ⟨inOutput, sameHome⟩ := sorts.outputs pair member
      obtain ⟨inOutput', sameHome'⟩ := sorts.outputs pair' member'
      obtain ⟨-, holds, -⟩ := mem_transfers.mp inTransfers
      obtain ⟨source, holds', fresh⟩ := mem_transfers.mp inTransfers'
      rcases undisturbed pair.2 inOutput sameHome.symm pair'.2 inOutput' sameHome'.symm with within | notGiven
      · exact fresh (within later.target holds')
      · exact notGiven (source ▸ same ▸ holds)

/-- A state where the registers of one entry and its home have one value, and all else another one. -/
def marking [DecidableEq V] (entry : MapEntry lab) (home : ℕ) (a b : V) : MachineState V :=
  ⟨fun r => if r ∈ entry.aliases then a else b, fun h => if h = home then a else b⟩

theorem marking_faithful [DecidableEq V] {entry : MapEntry lab} {home : ℕ} (p : Partition target from')
    (homed : ∀ e ∈ from'.entries, e.home ≠ none) (member : entry ∈ from'.entries) (atHome : entry.home = some home)
    (a b : V) : Faithful (fun h => if h = home then a else b) from' (marking entry home a b) := by
  intro h
  refine ⟨?_, fun _ _ _ _ => rfl, fun _ => rfl⟩
  intro e inInput atHome' r holds
  change (if r ∈ entry.aliases then a else b) = if h = home then a else b
  by_cases same : h = home
  · subst same
    obtain rfl : e = entry :=
      List.inj_on_of_nodup_map (p.distinct_homes homed) inInput member (atHome'.trans atHome.symm)
    rw [if_pos holds, if_pos rfl]
  · have absent : r ∉ entry.aliases := by
      intro holds'
      obtain rfl := p.unique inInput member holds holds'
      exact same (Option.some.inj (atHome'.symm.trans atHome))
    rw [if_neg absent, if_neg same]

variable [DecidableEq lab]

theorem threeWaySort_sorted (inputs : (input.map home).Nodup) (outputs : (output.map home).Nodup) :
    Sorted input output (threeWaySort same input output) := by
  induction input generalizing output with
  | nil => exact ⟨nofun, nofun, List.Sublist.refl _, nofun, nofun, fun o member _ => member, List.Sublist.refl _, nofun⟩
  | cons e input ih =>
    obtain ⟨fresh, inputs⟩ := List.nodup_cons.mp inputs
    have others : ∀ e' ∈ input, e'.home ≠ e.home := by
      intro e' member same
      exact fresh (List.mem_map.mpr ⟨e', member, same⟩)
    rw [threeWaySort]
    cases found : output.find? e.same with
    | none =>
      have alone := find_same_none found
      obtain ⟨left, fromLeft, subInput, within, both, right, fromRight, apart⟩ := ih inputs outputs
      refine ⟨?_, ?_, subInput.cons e, within, ?_, ?_, fromRight, ?_⟩
      · intro e' member none
        rcases List.mem_cons.mp member with rfl | member
        · exact List.mem_cons_self
        · exact List.mem_cons_of_mem _ (left e' member none)
      · intro e' member
        rcases List.mem_cons.mp member with rfl | member
        · exact List.mem_cons_self
        · exact List.mem_cons_of_mem _ (fromLeft e' member)
      · intro e' member o inOutput same
        rcases List.mem_cons.mp member with rfl | member
        · exact absurd same.symm (alone o inOutput)
        · exact both e' member o inOutput same
      · intro o inOutput none
        exact right o inOutput fun e' member => none e' (List.mem_cons_of_mem e member)
      · intro o member
        exact List.forall_mem_cons.mpr ⟨fun same => alone o (fromRight.subset member) same.symm, apart o member⟩
    | some o =>
      obtain ⟨inOutput, same⟩ := find_same found
      have outputs' : ((output.erase o).map home).Nodup := outputs.sublist (List.erase_sublist.map _)
      obtain ⟨left, fromLeft, subInput, within, both, right, fromRight, apart⟩ := ih inputs outputs'
      have taken : ∀ o' ∈ output, o'.home ≠ e.home → o' ∈ output.erase o := by
        intro o' member other
        refine (List.mem_erase_of_ne ?_).mpr member
        rintro rfl
        exact other same.symm
      refine ⟨?_, ?_, subInput.cons_cons e, ?_, ?_, ?_, fromRight.trans List.erase_sublist, ?_⟩
      · intro e' member none
        rcases List.mem_cons.mp member with rfl | member
        · exact absurd same.symm (none o inOutput)
        · exact left e' member fun o' inErased => none o' (List.mem_of_mem_erase inErased)
      · intro e' member
        exact List.mem_cons_of_mem _ (fromLeft e' member)
      · intro pair member
        rcases List.mem_cons.mp member with rfl | member
        · exact ⟨inOutput, same⟩
        · obtain ⟨inErased, same'⟩ := within pair member
          exact ⟨List.mem_of_mem_erase inErased, same'⟩
      · intro e' member o' inOutput' same'
        rcases List.mem_cons.mp member with rfl | member
        · obtain rfl : o' = o := List.inj_on_of_nodup_map outputs inOutput' inOutput (same'.symm.trans same)
          exact List.mem_cons_self
        · refine List.mem_cons_of_mem _ (both e' member o' (taken o' inOutput' ?_) same')
          exact fun sameHome => others e' member (same'.trans sameHome)
      · intro o' inOutput' none
        obtain ⟨notHere, none⟩ := List.forall_mem_cons.mp none
        exact right o' (taken o' inOutput' fun sameHome => notHere sameHome.symm) none
      · intro o' member
        refine List.forall_mem_cons.mpr ⟨?_, apart o' member⟩
        intro sameHome
        have inErased := fromRight.subset member
        obtain rfl : o' = o :=
          List.inj_on_of_nodup_map outputs (List.mem_of_mem_erase inErased) inOutput (sameHome.symm.trans same)
        exact (List.Nodup.mem_erase_iff (List.Nodup.of_map _ outputs)).mp inErased |>.1 rfl

theorem coerceMapInstructions_spec (p : Partition target from') (homed : ∀ e ∈ from'.entries, e.home ≠ none)
    (coercible : Coercible target from' into) (faithful : Faithful contents from' s)
    (sort : threeWaySort same from'.entries into.entries = sorted) :
    (∀ h, (∀ e ∈ into.entries, e.home = some h → e.savedIntoHome = true) →
        (executeAll (coerceMapInstructions from' into) s).memory h = contents h) ∧
      (∀ o ∈ sorted.right, ∀ h, o.home = some h → ∀ r ∈ o.aliases,
        (executeAll (coerceMapInstructions from' into) s).registers r = contents h) ∧
      ∀ r, (∀ o ∈ sorted.right, r ∉ o.aliases) →
        (executeAll (coerceMapInstructions from' into) s).registers r =
          sequence (sorted.both.flatMap transfers) s.registers r := by
  have distinct := coercible.partition.distinct_homes coercible.homed
  have sorts := threeWaySort_sorted (p.distinct_homes homed) distinct
  rw [coerceMapInstructions, executeAll_append, executeAll_append]
  rw [sort] at sorts ⊢
  have held : ∀ e ∈ sorted.left, ∀ h, e.home = some h → s.registers e.anyAlias = contents h := by
    intro e member h atHome
    have inInput := sorts.fromLeft e member
    exact (faithful h).aliases e inInput atHome _ (anyAlias_mem (p.occupied e inInput))
  obtain ⟨registers, memory, saves⟩ := inputLoop_spec held
  have apart : (sorted.right.flatMap aliases).Nodup := by
    obtain ⟨alone, different⟩ := List.nodup_flatMap.mp (List.nodup_append.mp coercible.partition.nodup).1
    refine List.nodup_flatMap.mpr ⟨?_, different.sublist sorts.fromRight⟩
    intro o member
    exact alone o (sorts.fromRight.subset member)
  obtain ⟨memory', loaded, others⟩ := outputLoop_spec (fun o member => coercible.homed o (sorts.fromRight.subset member))
    (fun o member => coercible.partition.occupied o (sorts.fromRight.subset member)) apart
    (executeAll (sharedLoop sorted.both) (executeAll (inputLoop sorted.left) s))
  rw [sharedLoop_spec] at memory' loaded others ⊢
  rw [registers] at memory' loaded others ⊢
  refine ⟨?_, ?_, others⟩
  · intro h saved
    rw [memory']
    by_cases present : ∃ e ∈ from'.entries, e.home = some h
    · obtain ⟨e, member, atHome⟩ := present
      by_cases shared : ∃ o ∈ into.entries, o.home = some h
      · obtain ⟨o, inOutput, atHome'⟩ := shared
        have marked := coercible.saved o inOutput (saved o inOutput atHome') e member (atHome.trans atHome'.symm)
        exact memory h ((faithful h).saved e member atHome marked)
      · have alone : ∀ o ∈ into.entries, o.home ≠ e.home := fun o inOutput same =>
          shared ⟨o, inOutput, same.trans atHome⟩
        cases marked : e.savedIntoHome with
        | true => exact memory h ((faithful h).saved e member atHome marked)
        | false => exact saves e (sorts.left e member alone) h atHome marked
    · exact memory h ((faithful h).absent fun e member atHome => present ⟨e, member, atHome⟩)
  · intro o member h atHome r holds
    rw [loaded o member h atHome r holds]
    apply memory
    apply (faithful h).absent
    intro e inInput atHome'
    exact sorts.alone o member e inInput (atHome'.trans atHome.symm)

theorem coerceMapInstructions_faithful [Nontrivial V] (p : Partition target from')
    (homed : ∀ e ∈ from'.entries, e.home ≠ none) (coercible : Coercible target from' into) :
    (∀ (contents : ℕ → V) s, Faithful contents from' s →
        Faithful contents into (executeAll (coerceMapInstructions from' into) s)) ↔ Undisturbed from' into := by
  have p' := coercible.partition
  have distinct' := p'.distinct_homes coercible.homed
  constructor
  · intro keeps
    by_contra disturbed
    classical
    obtain ⟨a, b, different⟩ := exists_pair_ne V
    -- The later of two moves reads what the earlier one has written.
    have distinct := p.distinct_homes homed
    have sorts := threeWaySort_sorted distinct distinct'
    generalize sort : threeWaySort same from'.entries into.entries = sorted at sorts
    have unclear := mt (clear_iff p p' homed coercible.homed sorts).mp disturbed
    have clobbered := @exists_clobbered ℕ V _ _ (targets_distinct p p' homed sorts) unclear
    obtain ⟨earlier, inMoves, later, inMoves', same, wrong⟩ := clobbered
    obtain ⟨pair, member, inTransfers⟩ := List.mem_flatMap.mp inMoves
    obtain ⟨pair', member', inTransfers'⟩ := List.mem_flatMap.mp inMoves'
    obtain ⟨source, -, fresh⟩ := mem_transfers.mp inTransfers
    obtain ⟨source', holds', -⟩ := mem_transfers.mp inTransfers'
    have inInput := sorts.inputs.subset (List.mem_map_of_mem member)
    have inInput' := sorts.inputs.subset (List.mem_map_of_mem member')
    obtain ⟨inOutput', sameHome⟩ := sorts.outputs pair' member'
    obtain ⟨home, atHome⟩ := Option.ne_none_iff_exists'.mp (homed _ inInput')
    have first := anyAlias_mem (p.occupied _ inInput)
    have apart : pair.1.anyAlias ∉ pair'.1.aliases := by
      intro held
      have equal := p.unique inInput inInput' first held
      rw [← same, source', ← equal] at fresh
      exact fresh first
    have faithful := marking_faithful p homed inInput' atHome a b
    have untouched : ∀ o ∈ sorted.right, later.target ∉ o.aliases := by
      intro o inRight holds
      have equal := p'.unique (sorts.fromRight.subset inRight) inOutput' holds holds'
      exact sorts.alone o inRight pair'.1 inInput' (equal ▸ sameHome)
    have left := (coerceMapInstructions_spec p homed coercible faithful sort).2.2 later.target untouched
    have meant := (keeps _ _ faithful home).aliases pair'.2 inOutput' (sameHome.symm.trans atHome) later.target holds'
    rw [left, wrong, source] at meant
    have isB : (marking pair'.1 home a b).registers pair.1.anyAlias = b := if_neg apart
    rw [isB] at meant
    exact different (meant.trans (if_pos rfl)).symm
  · intro undisturbed contents s faithful
    have sorts := threeWaySort_sorted (p.distinct_homes homed) distinct'
    generalize sort : threeWaySort same from'.entries into.entries = sorted at sorts
    obtain ⟨memory, loaded, others⟩ := coerceMapInstructions_spec p homed coercible faithful sort
    have clear := (clear_iff p p' homed coercible.homed sorts).mpr undisturbed
    have targets := targets_distinct p p' homed sorts
    intro h
    refine ⟨?_, ?_, ?_⟩
    · intro o inOutput atHome r holds
      by_cases present : ∃ e ∈ from'.entries, e.home = o.home
      · obtain ⟨e, member, same⟩ := present
        have pair := sorts.both e member o inOutput same
        have moved : ∀ o' ∈ sorted.right, r ∉ o'.aliases := by
          intro o' inRight holds'
          obtain rfl := p'.unique (sorts.fromRight.subset inRight) inOutput holds' holds
          exact sorts.alone o' inRight e member same
        rw [others r moved]
        by_cases kept : r ∈ e.aliases
        · rw [sequence_other]
          · exact (faithful h).aliases e member (same.trans atHome) r kept
          · rintro move inMoves rfl
            obtain ⟨pair', member', inTransfers⟩ := List.mem_flatMap.mp inMoves
            obtain ⟨-, holds', fresh⟩ := mem_transfers.mp inTransfers
            obtain ⟨inOutput', same'⟩ := sorts.outputs pair' member'
            obtain rfl := p'.unique inOutput' inOutput holds' holds
            have inInput' := sorts.inputs.subset (List.mem_map_of_mem member')
            obtain equal := List.inj_on_of_nodup_map (p.distinct_homes homed) inInput' member (same'.trans same.symm)
            exact fresh (equal ▸ kept)
        · have inMoves : (⟨e.anyAlias, r⟩ : Move ℕ) ∈ sorted.both.flatMap transfers :=
            List.mem_flatMap.mpr ⟨(e, o), pair, mem_transfers.mpr ⟨rfl, holds, kept⟩⟩
          refine (sequence_target targets clear _ inMoves).trans ?_
          exact (faithful h).aliases e member (same.trans atHome) _ (anyAlias_mem (p.occupied e member))
      · have alone : ∀ e ∈ from'.entries, e.home ≠ o.home := fun e member same => present ⟨e, member, same⟩
        exact loaded o (sorts.right o inOutput alone) h atHome r holds
    · intro o inOutput atHome saved
      apply memory
      intro o' inOutput' atHome'
      exact List.inj_on_of_nodup_map distinct' inOutput' inOutput (atHome'.trans atHome.symm) ▸ saved
    · intro none
      exact memory h fun o inOutput atHome => absurd atHome (none o inOutput)

variable [DecidableEq τ] [LinearOrder ω] [Add ω] [Zero ω] [One ω]

/-- Coercing one of the maps to the merged one keeps all values exactly where no transfer of a shared home reads a
register that an earlier one has written. -/
theorem merging_keeps_values [Nontrivial V] {maps : List (RegisterMap lab)} {weights : Option (List ω)}
    (partitions : ∀ map ∈ maps, Partition target map) (homed : ∀ map ∈ maps, ∀ e ∈ map.entries, e.home ≠ none)
    (enough : ∀ ws ∈ weights, ws.length = maps.length) :
    Partition target (mergeRegisterMaps target maps weights) ∧
      ∀ map ∈ maps,
        (∀ (contents : ℕ → V) s, Faithful contents map s → Faithful contents (mergeRegisterMaps target maps weights)
          (executeAll (coerceMapInstructions map (mergeRegisterMaps target maps weights)) s)) ↔
        Undisturbed map (mergeRegisterMaps target maps weights) := by
  obtain ⟨partition, coercible⟩ := mergeRegisterMaps_coercible partitions homed enough
  refine ⟨partition, ?_⟩
  intro map inMaps
  exact coerceMapInstructions_faithful (partitions map inMaps) (homed map inMaps) (coercible map inMaps)

def straightMap : RegisterMap ℕ := ⟨[⟨some 10, false, [0], none⟩, ⟨some 11, false, [1], none⟩], [2]⟩

def crossedMap : RegisterMap ℕ := ⟨[⟨some 10, false, [1], none⟩, ⟨some 11, false, [0], none⟩], [2]⟩

theorem straightMap_partition : Partition smallTarget straightMap :=
  ⟨by decide, by decide, by decide, by decide, by decide⟩

theorem crossed_partitions : ∀ map ∈ [straightMap, crossedMap], Partition smallTarget map := by
  refine List.forall_mem_cons.mpr ⟨straightMap_partition, List.forall_mem_singleton.mpr ?_⟩
  exact ⟨by decide, by decide, by decide, by decide, by decide⟩

theorem merging_keeps_values_crossed :
    Partition smallTarget (mergeRegisterMaps smallTarget [straightMap, crossedMap] (some [3, 4])) ∧
      ∀ (contents : ℕ → ℕ) s, Faithful contents crossedMap s →
        Faithful contents (mergeRegisterMaps smallTarget [straightMap, crossedMap] (some [3, 4]))
          (executeAll (coerceMapInstructions crossedMap
            (mergeRegisterMaps smallTarget [straightMap, crossedMap] (some [3, 4]))) s) := by
  have enough : ∀ ws ∈ some [3, 4], ws.length = [straightMap, crossedMap].length := by decide
  obtain ⟨partition, each⟩ := merging_keeps_values (V := ℕ) crossed_partitions (by decide) enough
  refine ⟨partition, (each crossedMap (List.mem_cons_of_mem _ List.mem_cons_self)).mpr ?_⟩
  unfold Undisturbed
  decide

theorem exchange_loses_value : ¬∀ map ∈ [straightMap, crossedMap], ∀ (contents : ℕ → ℕ) s, Faithful contents map s →
    Faithful contents (mergeRegisterMaps smallTarget [straightMap, crossedMap] (none : Option (List ℕ)))
      (executeAll (coerceMapInstructions map
        (mergeRegisterMaps smallTarget [straightMap, crossedMap] (none : Option (List ℕ)))) s) := by
  intro keeps
  have faithful : Faithful (fun h => if h = 11 then 1 else 0) straightMap (marking ⟨some 11, false, [1], none⟩ 11 1 0) :=
    marking_faithful straightMap_partition (by decide) (by decide) rfl 1 0
  have kept := (keeps _ List.mem_cons_self _ _ faithful 11).aliases ⟨some 11, false, [0], none⟩ (by decide) rfl 0 (by decide)
  revert kept
  decide

end MitScheme.Compiler.RegisterMaps
