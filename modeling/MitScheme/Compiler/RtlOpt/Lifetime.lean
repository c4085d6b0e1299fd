import MitScheme.Compiler.RtlOpt.Graphs
import MitScheme.Library.Dataflow

/-!
The live registers of every block, and the deletion of assignments to registers that are not live.
-/

namespace MitScheme.Compiler.RtlOpt

open Library List

variable {op : Type}

/-- An increment assigns no register here, since it is only used on the stack pointer. -/
def markSetRegisters (rtl : Rtl op) : Finset ℕ := rtl.target.elim ∅ ({·})

def markUsedRegisters (needed : Finset ℕ) (rtl : Rtl op) : Finset ℕ :=
  match rtl.target with
  | some n => if n ∈ needed then rtl.reads else ∅
  | none => rtl.reads

def updateLiveRegisters (rtl : Rtl op) (old : Finset ℕ) : Finset ℕ :=
  (old \ markSetRegisters rtl) ∪ markUsedRegisters old rtl

def instructionDead (rtl : Rtl op) (needed : Finset ℕ) : Bool :=
  match rtl.target with
  | some n => n ∉ needed && !rtl.volatile
  | none => false

/-- The registers live before some instructions, from those live after them. -/
def propagateBlock (instructions : List (Rtl op)) (live : Finset ℕ) : Finset ℕ := instructions.foldr updateLiveRegisters live

structure Rinst (op : Type) where
  rtl : Rtl op
  deadRegisters : Finset ℕ

/-- The instructions that are kept, and the registers live before them. -/
def propagateBlockDelete : List (Rtl op) → Finset ℕ → List (Rinst op) × Finset ℕ
  | [], live => ([], live)
  | rtl :: rest, live =>
    let (kept, needed) := propagateBlockDelete rest live
    if instructionDead rtl needed then (kept, needed)
    else (⟨rtl, markUsedRegisters needed rtl \ needed⟩ :: kept, updateLiveRegisters rtl needed)

structure Lifetimes (op : Type) where
  liveAtEntry : ℕ → Finset ℕ
  liveAtExit : ℕ → Finset ℕ
  rinsts : ℕ → List (Rinst op)

def walkBblocks (g : Rgraph op) (fuel : ℕ) : Option (Lifetimes op) :=
  (Dataflow.passes (fun b => propagateBlock (g.bblock b).instructions) g.previous g.nodes fuel true Dataflow.none).map fun s =>
    { liveAtEntry := fun b => (propagateBlockDelete (g.bblock b).instructions (s.exit b)).2
      liveAtExit := s.exit
      rinsts := fun b => (propagateBlockDelete (g.bblock b).instructions (s.exit b)).1 }

variable {rtl : Rtl op}

theorem mem_markSetRegisters {n : ℕ} : n ∈ markSetRegisters rtl ↔ rtl.target = some n := by
  unfold markSetRegisters
  cases rtl.target with
  | none => simp
  | some n' => simp [eq_comm]

theorem mem_markUsedRegisters {needed : Finset ℕ} {n : ℕ} :
    n ∈ markUsedRegisters needed rtl ↔ n ∈ rtl.reads ∧ ∀ n', rtl.target = some n' → n' ∈ needed := by
  unfold markUsedRegisters
  cases rtl.target with
  | none => simp
  | some n' => by_cases member : n' ∈ needed <;> simp [member]

theorem mem_updateLiveRegisters {old : Finset ℕ} {n : ℕ} : n ∈ updateLiveRegisters rtl old ↔
    (n ∈ old ∧ rtl.target ≠ some n) ∨ (n ∈ rtl.reads ∧ ∀ n', rtl.target = some n' → n' ∈ old) := by
  rw [updateLiveRegisters, Finset.mem_union, Finset.mem_sdiff, mem_markSetRegisters, mem_markUsedRegisters]

theorem instructionDead_iff {needed : Finset ℕ} :
    instructionDead rtl needed = true ↔ ∃ n, rtl.target = some n ∧ n ∉ needed ∧ rtl.volatile = false := by
  unfold instructionDead
  cases rtl.target with
  | none => simp
  | some n => simp

theorem updateLiveRegisters_dead {needed : Finset ℕ} (dead : instructionDead rtl needed = true) :
    updateLiveRegisters rtl needed = needed := by
  obtain ⟨n, isTarget, notNeeded, -⟩ := instructionDead_iff.mp dead
  ext n'
  rw [mem_updateLiveRegisters, isTarget]
  constructor
  · rintro (⟨member, -⟩ | ⟨-, member⟩)
    · exact member
    · exact absurd (member n rfl) notNeeded
  · intro member
    refine .inl ⟨member, ?_⟩
    intro same
    exact notNeeded (Option.some.inj same ▸ member)

theorem updateLiveRegisters_mono {X Y : Finset ℕ} (part : X ⊆ Y) :
    updateLiveRegisters rtl X ⊆ updateLiveRegisters rtl Y := by
  intro n
  simp only [mem_updateLiveRegisters]
  rintro (⟨member, other⟩ | ⟨read, member⟩)
  · exact .inl ⟨part member, other⟩
  · exact .inr ⟨read, fun n' isTarget => part (member n' isTarget)⟩

theorem propagateBlock_mono {X Y : Finset ℕ} (part : X ⊆ Y) (instructions : List (Rtl op)) :
    propagateBlock instructions X ⊆ propagateBlock instructions Y := by
  induction instructions with
  | nil => exact part
  | cons rtl rest ih => exact updateLiveRegisters_mono ih

theorem propagateBlockDelete_live (instructions : List (Rtl op)) (live : Finset ℕ) :
    (propagateBlockDelete instructions live).2 = propagateBlock instructions live := by
  induction instructions with
  | nil => rfl
  | cons rtl rest ih =>
    unfold propagateBlockDelete propagateBlock
    rw [foldr_cons]
    dsimp only
    rw [← propagateBlock, ← ih]
    split
    · rename_i dead
      exact (updateLiveRegisters_dead dead).symm
    · rfl

def keep (instructions : List (Rtl op)) (live : Finset ℕ) : List (Rtl op) :=
  (propagateBlockDelete instructions live).1.map Rinst.rtl

variable {rest : List (Rtl op)}

theorem keep_dead {live : Finset ℕ}
    (dead : instructionDead rtl (propagateBlock rest live) = true) : keep (rtl :: rest) live = keep rest live := by
  unfold keep
  rw [propagateBlockDelete]
  dsimp only
  rw [propagateBlockDelete_live, if_pos dead]

theorem keep_live {live : Finset ℕ}
    (needed : ¬instructionDead rtl (propagateBlock rest live) = true) : keep (rtl :: rest) live = rtl :: keep rest live := by
  unfold keep
  rw [propagateBlockDelete]
  dsimp only
  rw [propagateBlockDelete_live, if_neg needed]
  rfl

theorem propagateBlock_keep (instructions : List (Rtl op)) (live : Finset ℕ) :
    propagateBlock (keep instructions live) live = propagateBlock instructions live := by
  induction instructions with
  | nil => rfl
  | cons rtl rest ih =>
    by_cases dead : instructionDead rtl (propagateBlock rest live) = true
    · rw [keep_dead dead, ih]
      exact (updateLiveRegisters_dead dead).symm
    · rw [keep_live dead]
      exact congrArg (updateLiveRegisters rtl) ih

theorem keep_append (first rest : List (Rtl op)) (live : Finset ℕ) :
    keep (first ++ rest) live = keep first (propagateBlock rest live) ++ keep rest live := by
  induction first with
  | nil => rfl
  | cons rtl first ih =>
    have before : propagateBlock (first ++ rest) live = propagateBlock first (propagateBlock rest live) := foldr_append
    by_cases dead : instructionDead rtl (propagateBlock first (propagateBlock rest live)) = true
    · rw [keep_dead dead, cons_append, keep_dead (before ▸ dead), ih]
    · rw [keep_live dead, cons_append, keep_live (before ▸ dead), ih, cons_append]

/-- The value of a register is read for the machine, or for a register that is needed itself. -/
inductive Needed (g : Rgraph op) : ℕ → List (Rtl op) → ℕ → Prop where
  | read {b n rtl rest} : n ∈ rtl.reads → (∀ n', rtl.target = some n' → Needed g b rest n') → Needed g b (rtl :: rest) n
  | passed {b n rtl rest} : rtl.target ≠ some n → Needed g b rest n → Needed g b (rtl :: rest) n
  | next {b n b'} : b' ∈ (g.bblock b).next → Needed g b' (g.bblock b').instructions n → Needed g b [] n

/-- The value of a register is read by one of the instructions, before it is overwritten. -/
inductive ReadLater (instructions : ℕ → List (Rtl op)) (next : ℕ → List ℕ) : ℕ → List (Rtl op) → ℕ → Prop where
  | read {b n rtl rest} : n ∈ rtl.reads → ReadLater instructions next b (rtl :: rest) n
  | passed {b n rtl rest} : rtl.target ≠ some n → ReadLater instructions next b rest n →
    ReadLater instructions next b (rtl :: rest) n
  | next {b n b'} : b' ∈ next b → ReadLater instructions next b' (instructions b') n → ReadLater instructions next b [] n

theorem needed_cons {g : Rgraph op} {b n : ℕ} : Needed g b (rtl :: rest) n ↔
    (Needed g b rest n ∧ rtl.target ≠ some n) ∨ (n ∈ rtl.reads ∧ ∀ n', rtl.target = some n' → Needed g b rest n') := by
  constructor
  · rintro (⟨read, isNeeded⟩ | ⟨other, isNeeded⟩)
    · exact .inr ⟨read, isNeeded⟩
    · exact .inl ⟨isNeeded, other⟩
  · rintro (⟨isNeeded, other⟩ | ⟨read, isNeeded⟩)
    · exact .passed other isNeeded
    · exact .read read isNeeded

theorem needed_nil {g : Rgraph op} {b n : ℕ} :
    Needed g b [] n ↔ ∃ b' ∈ (g.bblock b).next, Needed g b' (g.bblock b').instructions n := by
  constructor
  · rintro (_ | _ | ⟨next, isNeeded⟩)
    exact ⟨_, next, isNeeded⟩
  · rintro ⟨b', next, isNeeded⟩
    exact .next next isNeeded

theorem mem_propagateBlock {g : Rgraph op} {b : ℕ} {live : Finset ℕ} (exit : ∀ n, n ∈ live ↔ Needed g b [] n)
    (instructions : List (Rtl op)) (n : ℕ) : n ∈ propagateBlock instructions live ↔ Needed g b instructions n := by
  induction instructions generalizing n with
  | nil => exact exit n
  | cons rtl rest ih =>
    rw [needed_cons]
    change n ∈ updateLiveRegisters rtl (propagateBlock rest live) ↔ _
    rw [mem_updateLiveRegisters]
    simp [ih]

def Rgraph.registers (g : Rgraph op) : Finset ℕ :=
  (g.bblocks.flatMap Bblock.instructions).foldr (fun rtl registers => rtl.reads ∪ registers) ∅

theorem Rgraph.mem_registers {g : Rgraph op} {b n : ℕ} (member : rtl ∈ (g.bblock b).instructions)
    (read : n ∈ rtl.reads) : n ∈ g.registers := by
  have inGraph : rtl ∈ g.bblocks.flatMap Bblock.instructions := by
    by_cases inside : b ∈ g.nodes
    · refine mem_flatMap.mpr ⟨g.bblock b, ?_, member⟩
      rw [bblock, getD_eq_getElem _ _ (mem_nodes.mp inside)]
      exact getElem_mem _
    · rw [bblock_outside inside] at member
      cases member
  unfold registers
  generalize g.bblocks.flatMap Bblock.instructions = instructions at inGraph
  induction instructions with
  | nil => cases inGraph
  | cons first rest ih =>
    rcases mem_cons.mp inGraph with rfl | inRest
    · exact Finset.mem_union_left _ read
    · exact Finset.mem_union_right _ (ih inRest)

theorem Needed.registers {g : Rgraph op} {b n : ℕ} (isNeeded : Needed g b rest n)
    (part : ∀ rtl ∈ rest, rtl ∈ (g.bblock b).instructions) : n ∈ g.registers := by
  induction isNeeded with
  | read read _ _ => exact Rgraph.mem_registers (part _ mem_cons_self) read
  | passed _ _ ih => exact ih (forall_mem_cons.mp part).2
  | next _ _ ih => exact ih fun _ member => member

theorem walkBblocks_spec (g : Rgraph op) : ∃ fuel r, walkBblocks g fuel = some r ∧
    (∀ b n, n ∈ r.liveAtExit b ↔ Needed g b [] n) ∧
    (∀ b, r.liveAtEntry b = propagateBlock (g.bblock b).instructions (r.liveAtExit b)) ∧
    ∀ b, r.rinsts b = (propagateBlockDelete (g.bblock b).instructions (r.liveAtExit b)).1 := by
  classical
  set bound : ℕ → Finset ℕ := fun b => g.registers.filter (Needed g b [])
  have exit : ∀ b n, n ∈ bound b ↔ Needed g b [] n := by
    intro b n
    simp only [bound, Finset.mem_filter, and_iff_right_iff_imp]
    exact fun isNeeded => isNeeded.registers nofun
  have closed : Dataflow.Closed (fun b => propagateBlock (g.bblock b).instructions) g.previous g.nodes bound := by
    refine ⟨fun b _ X Y part => propagateBlock_mono part _, ?_⟩
    intro b _ p isPrevious n member
    have isNeeded := (mem_propagateBlock (exit b) _ n).mp member
    exact (exit p n).mpr (.next (Rgraph.mem_previous.mp isPrevious).2 isNeeded)
  obtain ⟨fuel, s, ran, solved, inside⟩ := Dataflow.passes_spec closed
  refine ⟨fuel, _, congrArg (Option.map _) ran, ?_, fun b => propagateBlockDelete_live _ _, fun b => rfl⟩
  have found : ∀ b rest n, Needed g b rest n → n ∈ propagateBlock rest (s.exit b) := by
    intro b rest n isNeeded
    induction isNeeded with
    | read read _ ih => exact mem_updateLiveRegisters.mpr (.inr ⟨read, ih⟩)
    | passed other _ ih => exact mem_updateLiveRegisters.mpr (.inl ⟨ih, other⟩)
    | @next b n b' next _ ih =>
      obtain ⟨inside, inside'⟩ := Rgraph.next_mem next
      obtain ⟨-, entry, flows⟩ := solved b' inside'
      have reached := flows b (Rgraph.mem_previous.mpr ⟨inside, next⟩)
      rw [entry, ← (solved b inside).1] at reached
      exact reached ih
  intro b n
  constructor
  · intro member
    exact (exit b n).mp (inside b member)
  · intro isNeeded
    exact found b [] n isNeeded

end MitScheme.Compiler.RtlOpt
