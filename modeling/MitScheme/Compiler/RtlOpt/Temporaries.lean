import MitScheme.Compiler.RtlOpt.Deletion
import MitScheme.Library.FirstFit
import Mathlib.Algebra.Order.Field.Rat

/-!
The registers that remain get the numbers of temporaries, by first fit along the registers that are live with them. The matrix of conflicts
holds those that are held before one instruction.
-/

namespace MitScheme.Compiler.RtlOpt.RegisterAllocation

open Library List

variable {op : Type}

structure Counts where
  nRegisters : ℕ
  nRefs : ℕ → ℕ
  liveLength : ℕ → ℕ

namespace Counts

variable (c : Counts)

def renumberedRegisters : List ℕ := (List.range c.nRegisters).filter fun register => 0 < c.nRefs register

def renumber (register : ℕ) : Option ℕ :=
  if register ∈ c.renumberedRegisters then some (c.renumberedRegisters.idxOf register) else none

def renumbers (registers : Finset ℕ) : Finset ℕ := registers.biUnion fun register => (c.renumber register).elim ∅ ({·})

def allocateLess (x y : ℕ) : Bool :=
  c.liveLength x ≠ 0 && (c.liveLength y = 0 || (c.nRefs x / c.liveLength x : ℚ) < c.nRefs y / c.liveLength y)

def markBirths (live : Finset ℕ) (rtl : Rtl op) : Option (Finset ℕ) :=
  match rtl.target with
  | some register => (c.renumber register).map (insert · live)
  | none => some live

def walkForward : List (Rinst op) → Finset ℕ → (ℕ → Finset ℕ) → Option (ℕ → Finset ℕ)
  | [], _, matrix => some matrix
  | rinst :: rest, live, matrix => do
    let matrix := fun renumber => if renumber ∈ live then matrix renumber ∪ live else matrix renumber
    let live ← c.markBirths (live \ c.renumbers rinst.deadRegisters) rinst.rtl
    walkForward rest live matrix

def walkAll (r : Lifetimes op) : List ℕ → (ℕ → Finset ℕ) → Option (ℕ → Finset ℕ)
  | [], matrix => some matrix
  | b :: rest, matrix => do walkAll r rest (← c.walkForward (r.rinsts b) (c.renumbers (r.liveAtEntry b)) matrix)

def allocationOrder : List ℕ := c.renumberedRegisters.mergeSort fun x y => !c.allocateLess y x

end Counts

structure Allocation where
  registerRenumber : ℕ → Option ℕ
  nTemporaries : ℕ

def walkBblocks (c : Counts) (g : Rgraph op) (r : Lifetimes op) : Option Allocation := do
  let matrix ← c.walkAll r g.nodes fun _ => ∅
  let packing := FirstFit.pack matrix (c.allocationOrder.filterMap c.renumber)
  some { registerRenumber := fun register => (c.renumber register).bind packing.slot, nTemporaries := packing.slots.length }

/-- A graph whose live sets and dead registers are those of the instructions in it. -/
structure LiveGraph (op : Type) where
  graph : Rgraph op
  lifetimes : Lifetimes op
  entry : ∀ b n, n ∈ lifetimes.liveAtEntry b ↔
    ReadLater lifetimes.kept (fun b => (graph.bblock b).next) b (lifetimes.kept b) n
  dead : ∀ b rinst rest, rinst :: rest <:+ lifetimes.rinsts b → ∀ n, n ∈ rinst.deadRegisters ↔
    n ∈ rinst.rtl.reads ∧ ¬ReadLater lifetimes.kept (fun b => (graph.bblock b).next) b (rest.map Rinst.rtl) n
  branches : ∀ b, 1 < (graph.bblock b).next.length →
    ∃ before type operands, lifetimes.kept b = before ++ [.other type operands]

namespace LiveGraph

variable (l : LiveGraph op)

def Live : ℕ → List (Rtl op) → ℕ → Prop := ReadLater l.lifetimes.kept fun b => (l.graph.bblock b).next

/-- The last instruction that assigned the register, before a point of a block, gave it a value that nothing reads. -/
def Abandoned (b : ℕ) (before rest : List (Rtl op)) (n : ℕ) : Prop :=
  ∃ first rtl middle, before = first ++ rtl :: middle ∧ rtl.target = some n ∧ (∀ rtl' ∈ middle, rtl'.target ≠ some n) ∧
    ¬l.Live b (middle ++ rest) n

def Held (b : ℕ) (before rest : List (Rtl op)) (n : ℕ) : Prop := l.Live b rest n ∨ l.Abandoned b before rest n

def Interfere (x y : ℕ) : Prop :=
  ∃ b ∈ l.graph.nodes, ∃ before rtl rest, l.lifetimes.kept b = before ++ rtl :: rest ∧
    l.Held b before (rtl :: rest) x ∧ l.Held b before (rtl :: rest) y

/-- A value that nothing reads, assigned at the end of a block, goes to a register that interferes elsewhere with those
live after the block. -/
def EndsApart : Prop :=
  ∀ b ∈ l.graph.nodes, ∀ before rtl x y, l.lifetimes.kept b = before ++ [rtl] → rtl.target = some x → ¬l.Live b [] x →
    l.Live b [] y → l.Interfere x y

def Counted (c : Counts) : Prop :=
  ∀ b ∈ l.graph.nodes, ∀ rtl ∈ l.lifetimes.kept b, ∀ n, rtl.target = some n ∨ n ∈ rtl.reads → n < c.nRegisters ∧ 0 < c.nRefs n

/-- Registers that are live together get different temporaries, which an assignment leaves alone while they are live. -/
structure Apart (c : Counts) (a : Allocation) : Prop where
  assigned : ∀ x ∈ c.renumberedRegisters, ∃ i, a.registerRenumber x = some i
  live : ∀ b ∈ l.graph.nodes, ∀ rest, rest <:+ l.lifetimes.kept b → ∀ x y, x ≠ y → l.Live b rest x → l.Live b rest y →
    a.registerRenumber x ≠ a.registerRenumber y
  kept : ∀ b ∈ l.graph.nodes, ∀ before rtl rest, l.lifetimes.kept b = before ++ rtl :: rest → ∀ x y, rtl.target = some x →
    y ≠ x → l.Live b rest y → a.registerRenumber x ≠ a.registerRenumber y
  count : a.nTemporaries = (c.renumberedRegisters.toFinset.image a.registerRenumber).card

end LiveGraph

section
variable {c : Counts} {n x y i j : ℕ}

theorem nodup_renumberedRegisters : c.renumberedRegisters.Nodup := nodup_range.filter _

theorem renumber_mem (isRenumber : c.renumber n = some i) : n ∈ c.renumberedRegisters := by
  unfold Counts.renumber at isRenumber
  by_contra absent
  rw [if_neg absent] at isRenumber
  exact nomatch isRenumber

theorem exists_renumber (member : n ∈ c.renumberedRegisters) : ∃ i, c.renumber n = some i := ⟨_, if_pos member⟩

theorem mem_renumberedRegisters : n ∈ c.renumberedRegisters ↔ n < c.nRegisters ∧ 0 < c.nRefs n := by
  simp [Counts.renumberedRegisters]

theorem renumber_inj (first : c.renumber x = some i) (second : c.renumber y = some i) : x = y := by
  have memberX := renumber_mem first
  have memberY := renumber_mem second
  unfold Counts.renumber at first second
  rw [if_pos memberX] at first
  rw [if_pos memberY] at second
  exact (idxOf_inj memberX).mp (Option.some.inj (first.trans second.symm))

theorem mem_renumbers {registers : Finset ℕ} : i ∈ c.renumbers registers ↔ ∃ n ∈ registers, c.renumber n = some i := by
  unfold Counts.renumbers
  rw [Finset.mem_biUnion]
  refine exists_congr fun n => and_congr_right fun _ => ?_
  cases c.renumber n with
  | none => simp
  | some i' => simp [eq_comm]

end

namespace LiveGraph

variable {l : LiveGraph op} {b n : ℕ}

theorem not_abandoned_start {rest : List (Rtl op)} : ¬l.Abandoned b [] rest n := by
  rintro ⟨first, rtl, middle, split, -⟩
  simp at split

theorem held_step {before : List (Rtl op)} {rinst : Rinst op} {rest : List (Rinst op)}
    (suffix : rinst :: rest <:+ l.lifetimes.rinsts b) : l.Held b (before ++ [rinst.rtl]) (rest.map Rinst.rtl) n ↔
      (l.Held b before (rinst.rtl :: rest.map Rinst.rtl) n ∧ n ∉ rinst.deadRegisters) ∨ rinst.rtl.target = some n := by
  rw [l.dead b rinst rest suffix n]
  by_cases isTarget : rinst.rtl.target = some n
  · simp only [isTarget, or_true, iff_true]
    by_cases live : l.Live b (rest.map Rinst.rtl) n
    · exact .inl live
    · exact .inr ⟨before, rinst.rtl, [], rfl, isTarget, nofun, live⟩
  · simp only [isTarget, or_false]
    constructor
    · rintro (live | ⟨first, rtl, middle, split, assigns, others, unread⟩)
      · exact ⟨.inl (.passed isTarget live), fun dead => dead.2 live⟩
      · -- the assignment came before this instruction, which does not read the register
        rcases eq_nil_or_concat middle with rfl | ⟨middle, last, rfl⟩
        · obtain ⟨-, rfl⟩ := append_inj' split rfl |>.imp_right cons.inj |>.imp_right And.left
          exact absurd assigns isTarget
        · rw [concat_eq_append] at split others unread
          rw [← cons_append, ← append_assoc] at split
          obtain ⟨rfl, same⟩ := append_inj' split rfl
          obtain ⟨rfl, -⟩ := cons.inj same
          have others' : ∀ rtl' ∈ middle, rtl'.target ≠ some n := fun rtl' member => others rtl' (mem_append_left _ member)
          rw [append_assoc] at unread
          refine ⟨.inr ⟨first, rtl, middle, rfl, assigns, others', unread⟩, ?_⟩
          rintro ⟨read, -⟩
          refine unread ?_
          clear split unread others
          induction middle with
          | nil => exact .read read
          | cons rtl' middle ih =>
            obtain ⟨other, others'⟩ := forall_mem_cons.mp others'
            exact .passed other (ih others')
    · rintro ⟨live | ⟨first, rtl, middle, rfl, assigns, others, unread⟩, notDead⟩
      · left
        by_contra unread
        refine notDead ⟨?_, unread⟩
        rcases live with read | ⟨-, live⟩
        · exact read
        · exact absurd live unread
      · right
        refine ⟨first, rtl, middle ++ [rinst.rtl], by simp, assigns, ?_, by simpa using unread⟩
        intro rtl' member
        rcases mem_append.mp member with member | member
        · exact others rtl' member
        · exact mem_singleton.mp member ▸ isTarget

def Meet (l : LiveGraph op) (c : Counts) (b : ℕ) (before rest : List (Rtl op)) (i j : ℕ) : Prop :=
  ∃ first rtl after, rest = first ++ rtl :: after ∧ ∃ x y, c.renumber x = some i ∧ c.renumber y = some j ∧
    l.Held b (before ++ first) (rtl :: after) x ∧ l.Held b (before ++ first) (rtl :: after) y

variable {c : Counts} {i j : ℕ}

theorem meet_cons {before rest : List (Rtl op)} {rtl : Rtl op} : Meet l c b before (rtl :: rest) i j ↔
    (∃ x y, c.renumber x = some i ∧ c.renumber y = some j ∧ l.Held b before (rtl :: rest) x ∧ l.Held b before (rtl :: rest) y) ∨
      Meet l c b (before ++ [rtl]) rest i j := by
  constructor
  · rintro ⟨first, rtl', after, split, held⟩
    cases first with
    | nil =>
      obtain ⟨rfl, rfl⟩ := cons.inj split
      rw [append_nil] at held
      exact .inl held
    | cons rtl'' first =>
      obtain ⟨rfl, split'⟩ := cons.inj split
      exact .inr ⟨first, rtl', after, split', by simpa using held⟩
  · rintro (held | ⟨first, rtl', after, rfl, held⟩)
    · exact ⟨[], rtl, rest, rfl, by simpa using held⟩
    · exact ⟨rtl :: first, rtl', after, rfl, by simpa using held⟩

theorem walkForward_spec (counted : l.Counted c) (inside : b ∈ l.graph.nodes) {before : List (Rtl op)} {rest : List (Rinst op)}
    (suffix : rest <:+ l.lifetimes.rinsts b) {live : Finset ℕ} {matrix : ℕ → Finset ℕ}
    (holds : ∀ i, i ∈ live ↔ ∃ n, l.Held b before (rest.map Rinst.rtl) n ∧ c.renumber n = some i) :
    ∃ matrix', c.walkForward rest live matrix = some matrix' ∧
      ∀ i j, j ∈ matrix' i ↔ j ∈ matrix i ∨ Meet l c b before (rest.map Rinst.rtl) i j := by
  induction rest generalizing before live matrix with
  | nil =>
    refine ⟨matrix, rfl, ?_⟩
    intro i j
    simp [Meet]
  | cons rinst rest ih =>
    set live' := live \ c.renumbers rinst.deadRegisters
    have remain : ∀ i, i ∈ live' ↔ ∃ n, (l.Held b before (rinst.rtl :: rest.map Rinst.rtl) n ∧ n ∉ rinst.deadRegisters) ∧
        c.renumber n = some i := by
      intro i
      rw [Finset.mem_sdiff, holds, mem_renumbers]
      constructor
      · rintro ⟨⟨n, held, number⟩, alive⟩
        exact ⟨n, ⟨held, fun dead => alive ⟨n, dead, number⟩⟩, number⟩
      · rintro ⟨n, ⟨held, alive⟩, number⟩
        refine ⟨⟨n, held, number⟩, ?_⟩
        rintro ⟨n', dead, number'⟩
        exact alive (renumber_inj number number' ▸ dead)
    have births : ∃ live'', c.markBirths live' rinst.rtl = some live'' ∧
        ∀ i, i ∈ live'' ↔ ∃ n, l.Held b (before ++ [rinst.rtl]) (rest.map Rinst.rtl) n ∧ c.renumber n = some i := by
      simp only [held_step suffix]
      unfold Counts.markBirths
      cases isTarget : rinst.rtl.target with
      | none =>
        refine ⟨live', rfl, ?_⟩
        simpa using remain
      | some x =>
        have member : rinst.rtl ∈ l.lifetimes.kept b :=
          mem_map_of_mem (suffix.subset mem_cons_self)
        obtain ⟨k, number⟩ := exists_renumber (mem_renumberedRegisters.mpr (counted b inside _ member x (.inl isTarget)))
        refine ⟨insert k live', congrArg (Option.map (insert · live')) number, ?_⟩
        intro i
        rw [Finset.mem_insert, remain]
        constructor
        · rintro (rfl | ⟨n, held, number'⟩)
          · exact ⟨x, .inr rfl, number⟩
          · exact ⟨n, .inl held, number'⟩
        · rintro ⟨n, held | same, number'⟩
          · exact .inr ⟨n, held, number'⟩
          · obtain rfl := Option.some.inj same
            exact .inl (Option.some.inj (number'.symm.trans number))
    obtain ⟨live'', born, holds'⟩ := births
    obtain ⟨matrix', walked, filled⟩ := @ih (before ++ [rinst.rtl]) ((suffix_cons rinst rest).trans suffix) live''
      (fun renumber => if renumber ∈ live then matrix renumber ∪ live else matrix renumber) holds'
    refine ⟨matrix', ?_, ?_⟩
    · rw [Counts.walkForward]
      simp only [live'] at born
      simp only [born, Option.bind_eq_bind, Option.bind_some]
      exact walked
    · intro i j
      rw [filled, map_cons, meet_cons, ← or_assoc]
      refine or_congr ?_ .rfl
      have both : (∃ x y, c.renumber x = some i ∧ c.renumber y = some j ∧ l.Held b before (rinst.rtl :: rest.map Rinst.rtl) x ∧
          l.Held b before (rinst.rtl :: rest.map Rinst.rtl) y) ↔ i ∈ live ∧ j ∈ live := by
        rw [holds, holds]
        constructor
        · rintro ⟨x, y, numberX, numberY, heldX, heldY⟩
          exact ⟨⟨x, heldX, numberX⟩, y, heldY, numberY⟩
        · rintro ⟨⟨x, heldX, numberX⟩, y, heldY, numberY⟩
          exact ⟨x, y, numberX, numberY, heldX, heldY⟩
      rw [both]
      split
      · rename_i member
        rw [Finset.mem_union]
        exact or_congr_right (and_iff_right member).symm
      · rename_i absent
        simp [absent]

theorem walkAll_spec (counted : l.Counted c) {nodes : List ℕ} (inside : ∀ b ∈ nodes, b ∈ l.graph.nodes) (matrix : ℕ → Finset ℕ) :
    ∃ matrix', c.walkAll l.lifetimes nodes matrix = some matrix' ∧
      ∀ i j, j ∈ matrix' i ↔ j ∈ matrix i ∨ ∃ b ∈ nodes, Meet l c b [] (l.lifetimes.kept b) i j := by
  induction nodes generalizing matrix with
  | nil => exact ⟨matrix, rfl, by simp⟩
  | cons b nodes ih =>
    obtain ⟨here, inside⟩ := forall_mem_cons.mp inside
    have holds : ∀ i, i ∈ c.renumbers (l.lifetimes.liveAtEntry b) ↔
        ∃ n, l.Held b [] ((l.lifetimes.rinsts b).map Rinst.rtl) n ∧ c.renumber n = some i := by
      intro i
      rw [mem_renumbers]
      refine exists_congr fun n => and_congr_left fun _ => ?_
      rw [l.entry]
      exact ⟨.inl, fun held => held.resolve_right not_abandoned_start⟩
    obtain ⟨first, walked, filled⟩ := @walkForward_spec _ l b c counted here [] _ (suffix_refl _) _ matrix holds
    obtain ⟨matrix', walked', filled'⟩ := ih inside first
    refine ⟨matrix', ?_, ?_⟩
    · rw [Counts.walkAll, walked]
      exact walked'
    · intro i j
      rw [filled', filled, or_assoc]
      simp only [mem_cons, exists_eq_or_imp]
      rfl

theorem matrix_spec (counted : l.Counted c) : ∃ matrix, c.walkAll l.lifetimes l.graph.nodes (fun _ => ∅) = some matrix ∧
    ∀ x y i j, c.renumber x = some i → c.renumber y = some j → (j ∈ matrix i ↔ l.Interfere x y) := by
  obtain ⟨matrix, walked, filled⟩ := @walkAll_spec _ l c counted l.graph.nodes (fun _ member => member) fun _ => ∅
  refine ⟨matrix, walked, ?_⟩
  intro x y i j numberX numberY
  rw [filled]
  constructor
  · rintro (member | ⟨b, inside, first, rtl, after, split, x', y', numberX', numberY', heldX, heldY⟩)
    · exact absurd member (Finset.notMem_empty j)
    · obtain rfl := renumber_inj numberX numberX'
      obtain rfl := renumber_inj numberY numberY'
      exact ⟨b, inside, first, rtl, after, split, heldX, heldY⟩
  · rintro ⟨b, inside, before, rtl, rest, split, heldX, heldY⟩
    exact .inr ⟨b, inside, before, rtl, rest, split, x, y, numberX, numberY, heldX, heldY⟩

theorem Interfere.symm {x y : ℕ} (interfere : l.Interfere x y) : l.Interfere y x := by
  obtain ⟨b, inside, before, rtl, rest, split, heldX, heldY⟩ := interfere
  exact ⟨b, inside, before, rtl, rest, split, heldY, heldX⟩

/-- What is live at the end of a block is live at the start of the next one, or before the predicate that chooses
between two. -/
theorem live_interfere {rest : List (Rtl op)} {x y : ℕ} (liveX : l.Live b rest x) (liveY : l.Live b rest y)
    (inside : b ∈ l.graph.nodes) (suffix : rest <:+ l.lifetimes.kept b) : l.Interfere x y := by
  have here {b : ℕ} {rtl : Rtl op} {rest : List (Rtl op)} {x y : ℕ} (inside : b ∈ l.graph.nodes)
      (suffix : rtl :: rest <:+ l.lifetimes.kept b) (liveX : l.Live b (rtl :: rest) x) (liveY : l.Live b (rtl :: rest) y) :
      l.Interfere x y := by
    obtain ⟨before, split⟩ := suffix
    exact ⟨b, inside, before, rtl, rest, split.symm, .inl liveX, .inl liveY⟩
  induction liveX with
  | read read => exact here inside suffix (.read read) liveY
  | passed other liveX => exact here inside suffix (.passed other liveX) liveY
  | @next b n b' next liveX ih =>
    have liveX' : l.Live b [] n := .next next liveX
    rcases liveY with _ | _ | @⟨_, _, b'', next', liveY'⟩
    by_cases several : 1 < (l.graph.bblock b).next.length
    · obtain ⟨before, type, operands, split⟩ := l.branches b several
      have suffix' : [.other type operands] <:+ l.lifetimes.kept b := ⟨before, split.symm⟩
      exact here inside suffix' (.passed nofun liveX') (.passed nofun (.next next' liveY'))
    · have same : b' = b'' := by
        obtain ⟨i, inNext, rfl⟩ := getElem_of_mem next
        obtain ⟨i', inNext', rfl⟩ := getElem_of_mem next'
        congr 1
        omega
      subst same
      exact ih liveY' (Rgraph.next_mem next).2 (suffix_refl _)

end LiveGraph

end MitScheme.Compiler.RtlOpt.RegisterAllocation
