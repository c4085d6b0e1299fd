import MitScheme.Compiler.RtlOpt.Temporaries
import Mathlib.Tactic.NormNum

/-!
Registers that are live together get different temporaries. A register whose value nothing reads may share the
temporary of one that is live, if it is assigned at the end of a block.
-/

namespace MitScheme.Compiler.RtlOpt.RegisterAllocation

open Library List Option
open Finset (mem_image notMem_empty)

variable {op : Type}

section
variable {c : Counts} {n x y : ℕ}

/-- The registers with the fewest references for their lifetime come first, those that are never live last. -/
def Counts.rank (c : Counts) (n : ℕ) : WithTop ℚ := if c.liveLength n = 0 then ⊤ else ((c.nRefs n / c.liveLength n : ℚ) : WithTop ℚ)

theorem allocateLess_iff : c.allocateLess x y = true ↔ c.rank x < c.rank y := by
  unfold Counts.allocateLess Counts.rank
  by_cases emptyX : c.liveLength x = 0
  · simp [emptyX]
  · by_cases emptyY : c.liveLength y = 0
    · simp [emptyX, emptyY]
    · simp [emptyX, emptyY]

theorem allocationOrder_perm : c.allocationOrder.Perm c.renumberedRegisters := mergeSort_perm _ _

theorem allocationOrder_sorted : c.allocationOrder.Pairwise fun x y => c.rank x ≤ c.rank y := by
  have le (x y : ℕ) : (!c.allocateLess y x) = true ↔ c.rank x ≤ c.rank y := by
    rw [Bool.not_eq_true', ← Bool.not_eq_true, allocateLess_iff, not_lt]
  have trans : ∀ x y z, (!c.allocateLess y x) = true → (!c.allocateLess z y) = true → (!c.allocateLess z x) = true :=
    fun x y z first second => (le x z).mpr (((le x y).mp first).trans ((le y z).mp second))
  have total : ∀ x y, (!c.allocateLess y x || !c.allocateLess x y) = true := by
    intro x y
    rw [Bool.or_eq_true, le, le]
    exact le_total _ _
  have sorted := pairwise_mergeSort trans total c.renumberedRegisters
  exact sorted.imp fun {x y} ordered => (le x y).mp ordered

theorem nodup_numbers : (c.allocationOrder.filterMap c.renumber).Nodup := by
  apply Nodup.filterMap
  · intro x y i first second
    exact renumber_inj first second
  · exact allocationOrder_perm.nodup_iff.mpr nodup_renumberedRegisters

theorem mem_numbers {i : ℕ} : i ∈ c.allocationOrder.filterMap c.renumber ↔ ∃ n, c.renumber n = some i := by
  rw [mem_filterMap]
  constructor
  · rintro ⟨n, -, number⟩
    exact ⟨n, number⟩
  · rintro ⟨n, number⟩
    exact ⟨n, allocationOrder_perm.mem_iff.mpr (renumber_mem number), number⟩

theorem allocationOrder_first (memberX : x ∈ c.renumberedRegisters) (memberY : y ∈ c.renumberedRegisters) (different : x ≠ y)
    (first : c.rank x < c.rank y) (others : ∀ n ∈ c.renumberedRegisters, n ≠ x → n ≠ y → c.rank y < c.rank n) :
    ∃ rest, c.allocationOrder = x :: y :: rest := by
  have sorted := @allocationOrder_sorted c
  have nodup := allocationOrder_perm.nodup_iff.mpr (@nodup_renumberedRegisters c)
  simp only [← allocationOrder_perm.mem_iff] at memberX memberY others
  generalize c.allocationOrder = order at *
  cases order with
  | nil => exact nomatch memberX
  | cons a order =>
    obtain ⟨least, sortedRest⟩ := pairwise_cons.mp sorted
    have isFirst : x = a := by
      by_contra notFirst
      have bound := least x ((mem_cons.mp memberX).resolve_left notFirst)
      by_cases second : a = y
      · exact absurd first (second ▸ bound.not_gt)
      · exact absurd (first.trans (others a mem_cons_self (.symm notFirst) second)) (bound.not_gt)
    subst isFirst
    have memberY := (mem_cons.mp memberY).resolve_left different.symm
    obtain ⟨absent, -⟩ := nodup_cons.mp nodup
    cases order with
    | nil => exact nomatch memberY
    | cons b order =>
      obtain ⟨leastRest, -⟩ := pairwise_cons.mp sortedRest
      have isSecond : y = b := by
        by_contra notSecond
        have bound := leastRest y ((mem_cons.mp memberY).resolve_left notSecond)
        have notFirst : b ≠ x := fun same => absent (same ▸ mem_cons_self)
        have member : b ∈ x :: b :: order := mem_cons_of_mem x mem_cons_self
        exact absurd (others b member notFirst (.symm notSecond)) (bound.not_gt)
      subst isSecond
      exact ⟨order, rfl⟩

end

namespace LiveGraph

variable {l : LiveGraph op} {c : Counts} {x y : ℕ}

theorem walkBblocks_spec (counted : l.Counted c) : ∃ (matrix : ℕ → Finset ℕ) (packing : FirstFit.Packing ℕ),
    packing = FirstFit.pack matrix (c.allocationOrder.filterMap c.renumber) ∧
    walkBblocks c l.graph l.lifetimes = some ⟨fun n => (c.renumber n).bind packing.slot, packing.slots.length⟩ ∧
    ∀ x y i j, c.renumber x = some i → c.renumber y = some j → (j ∈ matrix i ↔ l.Interfere x y) := by
  obtain ⟨matrix, walked, filled⟩ := matrix_spec counted
  refine ⟨matrix, _, rfl, ?_, filled⟩
  unfold walkBblocks
  rw [walked]
  rfl

theorem referenced_target (counted : l.Counted c) {b n : ℕ} (inside : b ∈ l.graph.nodes) {rtl : Rtl op}
    (member : rtl ∈ l.lifetimes.kept b) (mentioned : rtl.target = some n ∨ n ∈ rtl.reads) : n ∈ c.renumberedRegisters :=
  mem_renumberedRegisters.mpr (counted b inside rtl member n mentioned)

theorem referenced_live (counted : l.Counted c) {b n : ℕ} (inside : b ∈ l.graph.nodes) {rest : List (Rtl op)}
    (suffix : rest <:+ l.lifetimes.kept b) (live : l.Live b rest n) : n ∈ c.renumberedRegisters := by
  induction live with
  | read read => exact referenced_target counted inside (suffix.subset mem_cons_self) (.inr read)
  | passed _ _ ih => exact ih inside ((suffix_cons _ _).trans suffix)
  | next next _ ih => exact ih (Rgraph.next_mem next).2 (suffix_refl _)

theorem apart_of_endsApart (apart : l.EndsApart) (counted : l.Counted c) :
    ∃ a, walkBblocks c l.graph l.lifetimes = some a ∧ l.Apart c a := by
  obtain ⟨matrix, packing, isPacking, walked, filled⟩ := walkBblocks_spec counted
  refine ⟨_, walked, ?_⟩
  have packed := @FirstFit.pack_packed _ _ matrix _ (@nodup_numbers c)
  rw [← isPacking] at packed
  have number {n : ℕ} (referenced : n ∈ c.renumberedRegisters) :
      ∃ i, c.renumber n = some i ∧ i ∈ c.allocationOrder.filterMap c.renumber := by
    obtain ⟨i, isNumber⟩ := exists_renumber referenced
    exact ⟨i, isNumber, mem_numbers.mpr ⟨n, isNumber⟩⟩
  have interfering {x y : ℕ} (memberX : x ∈ c.renumberedRegisters) (memberY : y ∈ c.renumberedRegisters) (different : x ≠ y)
      (interfere : l.Interfere x y) : (c.renumber x).bind packing.slot ≠ (c.renumber y).bind packing.slot := by
    obtain ⟨i, numberX, memberI⟩ := number memberX
    obtain ⟨j, numberY, -⟩ := number memberY
    have different' : i ≠ j := by
      rintro rfl
      exact different (renumber_inj numberX numberY)
    rw [numberX, numberY, isPacking]
    refine FirstFit.pack_apart nodup_numbers different' memberI ?_ ?_
    · exact (filled x y i j numberX numberY).mpr interfere
    · exact (filled y x j i numberY numberX).mpr interfere.symm
  have live : ∀ b ∈ l.graph.nodes, ∀ rest, rest <:+ l.lifetimes.kept b → ∀ x y, x ≠ y → l.Live b rest x → l.Live b rest y →
      (c.renumber x).bind packing.slot ≠ (c.renumber y).bind packing.slot := by
    intro b inside rest suffix x y different liveX liveY
    have memberX := referenced_live counted inside suffix liveX
    have memberY := referenced_live counted inside suffix liveY
    exact interfering memberX memberY different (live_interfere liveX liveY inside suffix)
  refine ⟨?_, live, ?_, ?_⟩
  · intro x member
    obtain ⟨i, isNumber, inOrder⟩ := number member
    obtain ⟨slot, placed⟩ := (packed.placed i).mpr inOrder
    refine ⟨slot, ?_⟩
    change (c.renumber x).bind packing.slot = some slot
    rw [isNumber, bind_some, placed]
  · intro b inside before rtl rest split x y isTarget different liveY
    have suffix : rtl :: rest <:+ l.lifetimes.kept b := ⟨before, split.symm⟩
    have memberX := referenced_target counted inside (suffix.subset mem_cons_self) (.inl isTarget)
    have memberY := referenced_live counted inside ((suffix_cons _ _).trans suffix) liveY
    by_cases liveX : l.Live b rest x
    · exact live b inside rest ((suffix_cons _ _).trans suffix) x y different.symm liveX liveY
    · refine interfering memberX memberY different.symm ?_
      cases rest with
      | nil => exact apart b inside before rtl x y split isTarget liveX liveY
      | cons rtl' rest =>
        refine ⟨b, inside, before ++ [rtl], rtl', rest, by simpa using split, .inr ?_, .inl liveY⟩
        exact ⟨before, rtl, [], rfl, isTarget, nofun, liveX⟩
  · have slots : c.renumberedRegisters.toFinset.image (fun n => (c.renumber n).bind packing.slot) =
        (Finset.range packing.slots.length).image some := by
      ext slot
      rw [mem_image, mem_image]
      constructor
      · rintro ⟨x, member, rfl⟩
        obtain ⟨i, isNumber, inOrder⟩ := number (mem_toFinset.mp member)
        obtain ⟨slot, placed⟩ := (packed.placed i).mpr inOrder
        exact ⟨slot, Finset.mem_range.mpr (packed.bound i slot placed), by rw [isNumber, bind_some, placed]⟩
      · rintro ⟨slot, member, rfl⟩
        obtain ⟨i, placed⟩ := packed.used slot (Finset.mem_range.mp member)
        obtain ⟨x, isNumber⟩ := mem_numbers.mp ((packed.placed i).mp ⟨slot, placed⟩)
        exact ⟨x, mem_toFinset.mpr (renumber_mem isNumber), by rw [isNumber, bind_some, placed]⟩
    rw [slots, Finset.card_image_of_injective _ (some_injective ℕ), Finset.card_range]

theorem shared_of_first (counted : l.Counted c) (separate : ¬l.Interfere y x) {rest : List ℕ}
    (first : c.allocationOrder = x :: y :: rest) {a : Allocation} (walked : walkBblocks c l.graph l.lifetimes = some a) :
    a.registerRenumber x = a.registerRenumber y := by
  obtain ⟨matrix, packing, rfl, walked', filled⟩ := walkBblocks_spec counted
  obtain rfl := some.inj (walked.symm.trans walked')
  have memberX := allocationOrder_perm.mem_iff.mp (first ▸ mem_cons_self : x ∈ c.allocationOrder)
  have memberY := allocationOrder_perm.mem_iff.mp (first ▸ mem_cons_of_mem x mem_cons_self : y ∈ c.allocationOrder)
  obtain ⟨i, numberX⟩ := exists_renumber memberX
  obtain ⟨j, numberY⟩ := exists_renumber memberY
  have numbers : c.allocationOrder.filterMap c.renumber = i :: j :: rest.filterMap c.renumber := by
    rw [first, filterMap_cons_some numberX, filterMap_cons_some numberY]
  have nodup := @nodup_numbers c
  rw [numbers] at nodup ⊢
  have apart : i ∉ matrix j := fun member => separate ((filled y x j i numberY numberX).mp member)
  obtain ⟨slotX, slotY⟩ := FirstFit.pack_together nodup apart
  dsimp only
  rw [numberX, numberY, bind_some, bind_some, slotX, slotY]

def firstTwo (nRegisters x y : ℕ) : Counts where
  nRegisters := nRegisters
  nRefs := fun _ => 1
  liveLength := fun n => if n = x then 3 else if n = y then 2 else 0

theorem firstTwo_order {nRegisters : ℕ} (insideX : x < nRegisters) (insideY : y < nRegisters) (different : x ≠ y) :
    ∃ rest, (firstTwo nRegisters x y).allocationOrder = x :: y :: rest := by
  have rankX : (firstTwo nRegisters x y).rank x = ((1 / 3 : ℚ) : WithTop ℚ) := by simp [Counts.rank, firstTwo]
  have rankY : (firstTwo nRegisters x y).rank y = ((1 / 2 : ℚ) : WithTop ℚ) := by
    simp [Counts.rank, firstTwo, different.symm]
  refine allocationOrder_first (mem_renumberedRegisters.mpr ⟨insideX, one_pos⟩)
    (mem_renumberedRegisters.mpr ⟨insideY, one_pos⟩) different ?_ ?_
  · rw [rankX, rankY]
    norm_num
  · intro n _ notX notY
    have rank : (firstTwo nRegisters x y).rank n = ⊤ := by simp [Counts.rank, firstTwo, notX, notY]
    rw [rankY, rank]
    exact WithTop.coe_lt_top _

theorem exists_bound (instructions : List (Rtl op)) :
    ∃ k, ∀ rtl ∈ instructions, ∀ n, rtl.target = some n ∨ n ∈ rtl.reads → n < k := by
  induction instructions with
  | nil => exact ⟨0, nofun⟩
  | cons rtl rest ih =>
    obtain ⟨k, bound⟩ := ih
    refine ⟨max k ((markSetRegisters rtl ∪ rtl.reads).sup id + 1), ?_⟩
    intro rtl' member n mentioned
    rcases mem_cons.mp member with rfl | member
    · refine lt_max_of_lt_right (Nat.lt_succ_of_le ?_)
      refine Finset.le_sup (f := id) (Finset.mem_union.mpr ?_)
      exact mentioned.imp_left mem_markSetRegisters.mpr
    · exact lt_max_of_lt_left (bound rtl' member n mentioned)

theorem exists_shared {b : ℕ} (inside : b ∈ l.graph.nodes) {rtl : Rtl op} (member : rtl ∈ l.lifetimes.kept b)
    (isTarget : rtl.target = some x) (live : l.Live b [] y) (different : x ≠ y) (separate : ¬l.Interfere x y) :
    ∃ c, l.Counted c ∧ ∀ a, walkBblocks c l.graph l.lifetimes = some a → a.registerRenumber x = a.registerRenumber y := by
  obtain ⟨k, bound⟩ := exists_bound (l.graph.nodes.flatMap l.lifetimes.kept)
  have counted : l.Counted (firstTwo k x y) := by
    intro b inside rtl member n mentioned
    exact ⟨bound rtl (mem_flatMap.mpr ⟨b, inside, member⟩) n mentioned, one_pos⟩
  have insideX := (counted b inside rtl member x (.inl isTarget)).1
  have insideY := (mem_renumberedRegisters.mp (referenced_live counted inside nil_suffix live)).1
  obtain ⟨rest, first⟩ := firstTwo_order insideX insideY different
  refine ⟨firstTwo k x y, counted, ?_⟩
  intro a walked
  exact shared_of_first counted (fun interfere => separate interfere.symm) first walked

theorem endsApart_of_apart (all : ∀ c, l.Counted c → ∃ a, walkBblocks c l.graph l.lifetimes = some a ∧ l.Apart c a) :
    l.EndsApart := by
  intro b inside before rtl x y split isTarget notLive live
  by_contra separate
  have member : rtl ∈ l.lifetimes.kept b := split ▸ mem_append_right _ mem_cons_self
  have different : x ≠ y := fun same => notLive (same ▸ live)
  obtain ⟨c, counted, shared⟩ := exists_shared inside member isTarget live different separate
  obtain ⟨a, walked, apart⟩ := all c counted
  exact apart.kept b inside before rtl [] split x y isTarget different.symm live (shared a walked)

/-- The allocation is right, whatever the counts, exactly when the values that nothing reads at the ends of blocks are
in registers that interfere with those live there. -/
theorem temporaries_apart_iff (l : LiveGraph op) :
    (∀ c, l.Counted c → ∃ a, walkBblocks c l.graph l.lifetimes = some a ∧ l.Apart c a) ↔ l.EndsApart := by
  constructor
  · exact endsApart_of_apart
  · intro apart c counted
    exact apart_of_endsApart apart counted

def ofLifetimes {g : Rgraph op} {r : Lifetimes op} (analysed : Analysed g r) (needed : OperandsNeeded g) : LiveGraph op where
  graph := g
  lifetimes := r
  entry := by
    intro b n
    rw [analysed.entry]
    constructor
    · intro live
      have later := analysed.readLater_of_needed ((analysed.live b _ n).mp live)
      rwa [← analysed.kept] at later
    · intro later
      have live := analysed.readLater needed later (List.suffix_refl _)
      rwa [analysed.kept, propagateBlock_keep] at live
  dead := by
    intro b rinst rest suffix n
    have suffixKept : rest.map Rinst.rtl <:+ r.kept b := ((List.suffix_cons rinst rest).trans suffix).map Rinst.rtl
    rw [analysed.rinsts] at suffix
    obtain ⟨before, after, split, rfl, notDead, deadRegisters⟩ := propagateBlockDelete_suffix suffix
    have live : n ∈ propagateBlock after (r.liveAtExit b) ↔
        ReadLater r.kept (fun b => (g.bblock b).next) b (keep after (r.liveAtExit b)) n := by
      constructor
      · intro live
        exact analysed.readLater_of_needed ((analysed.live b _ n).mp live)
      · intro later
        rw [← propagateBlock_keep]
        exact analysed.readLater needed later suffixKept
    rw [deadRegisters, Finset.mem_sdiff, live, mem_markUsedRegisters]
    refine and_congr_left fun unread => ?_
    refine and_iff_left_of_imp ?_
    -- a register that an effect for a dead one reads would be needed for another reason
    intro read n' isTarget
    rcases needed_cons.mp (analysed.reads needed split notDead read) with ⟨isNeeded, -⟩ | ⟨-, target⟩
    · exact absurd (live.mp ((analysed.live b _ n).mpr isNeeded)) unread
    · exact (analysed.live b _ n').mpr (target n' isTarget)
  branches := by
    intro b several
    have inside : b ∈ g.nodes := by
      by_contra outside
      rw [Rgraph.bblock_outside outside] at several
      exact absurd several (Nat.not_lt_zero _)
    have member : g.bblock b ∈ g.bblocks := by
      rw [Rgraph.bblock, List.getD_eq_getElem _ _ (Rgraph.mem_nodes.mp inside)]
      exact List.getElem_mem _
    obtain ⟨before, type, operands, split⟩ := g.branches _ member several
    refine ⟨keep before (propagateBlock [.other type operands] (r.liveAtExit b)), type, operands, ?_⟩
    rw [analysed.kept, split, keep_append]
    rfl

end LiveGraph

theorem readLater_cons {instructions : ℕ → List (Rtl op)} {next : ℕ → List ℕ} {b n : ℕ} {rtl : Rtl op} {rest : List (Rtl op)} :
    ReadLater instructions next b (rtl :: rest) n ↔ n ∈ rtl.reads ∨ (rtl.target ≠ some n ∧ ReadLater instructions next b rest n) := by
  constructor
  · rintro (read | ⟨other, later⟩)
    · exact .inl read
    · exact .inr ⟨other, later⟩
  · rintro (read | ⟨other, later⟩)
    · exact .read read
    · exact .passed other later

theorem readLater_nil {instructions : ℕ → List (Rtl op)} {next : ℕ → List ℕ} {b n : ℕ} :
    ReadLater instructions next b [] n ↔ ∃ b' ∈ next b, ReadLater instructions next b' (instructions b') n := by
  constructor
  · rintro (_ | _ | ⟨next, later⟩)
    exact ⟨_, next, later⟩
  · rintro ⟨b', next, later⟩
    exact .next next later

def constant (n : ℕ) : Rtl Unit := .assign (.register (.pseudo n)) (.compound () [])

def pop (n : ℕ) : Rtl Unit := .assign (.register (.pseudo n)) (.increment false (.register (.machine 4)) 1)

def use (n : ℕ) : Rtl Unit := .other () [.register (.pseudo n)]

/-- Between an assignment and its use in the next block, the stack is popped. -/
def discards : Rgraph Unit where
  bblocks := [⟨[constant 0, pop 1], [1]⟩, ⟨[use 0], []⟩]
  connected := by simp
  branches := by simp

def discardsLifetimes : Lifetimes Unit where
  liveAtEntry := fun b => if b = 1 then {0} else ∅
  liveAtExit := fun b => if b = 0 then {0} else ∅
  rinsts := fun b => if b = 0 then [⟨constant 0, ∅⟩, ⟨pop 1, ∅⟩] else if b = 1 then [⟨use 0, {0}⟩] else []

def DiscardsLater : ℕ → List (Rtl Unit) → ℕ → Prop := ReadLater discardsLifetimes.kept fun b => (discards.bblock b).next

theorem use_later (n : ℕ) : DiscardsLater 1 [use 0] n ↔ n = 0 := by
  unfold DiscardsLater
  rw [readLater_cons, readLater_nil]
  simp [discards, Rgraph.bblock, use, Rtl.reads, registersOf, Expression.registers]

theorem exit_later (n : ℕ) : DiscardsLater 0 [] n ↔ n = 0 := by
  rw [← use_later n]
  unfold DiscardsLater
  rw [readLater_nil]
  simp [discards, Rgraph.bblock, Lifetimes.kept, discardsLifetimes]

theorem pop_later (n : ℕ) : DiscardsLater 0 [pop 1] n ↔ n = 0 := by
  have exit := exit_later n
  unfold DiscardsLater at exit ⊢
  rw [readLater_cons, exit]
  simp [pop, Rtl.reads, Rtl.target, Expression.registers]
  omega

theorem end_later (b n : ℕ) (last : b ≠ 0) : ¬DiscardsLater b [] n := by
  unfold DiscardsLater
  rw [readLater_nil]
  rcases b with _ | _ | b
  · exact absurd rfl last
  · simp [discards, Rgraph.bblock]
  · simp [discards, Rgraph.bblock]

theorem entry_later (n : ℕ) : ¬DiscardsLater 0 [constant 0, pop 1] n := by
  have popped := pop_later n
  unfold DiscardsLater at popped ⊢
  rw [readLater_cons, popped]
  simp [constant, Rtl.reads, Rtl.target, Expression.registers, registersOf]
  omega

def discarded : LiveGraph Unit where
  graph := discards
  lifetimes := discardsLifetimes
  entry := by
    intro b n
    rcases b with _ | _ | b
    · exact iff_of_false (notMem_empty n) (entry_later n)
    · exact Finset.mem_singleton.trans (use_later n).symm
    · exact iff_of_false (notMem_empty n) (end_later (b + 2) n (by omega))
  dead := by
    intro b rinst rest suffix n
    rcases b with _ | _ | b
    · rcases List.suffix_cons_iff.mp suffix with same | suffix
      · obtain ⟨rfl, rfl⟩ := List.cons.inj same
        exact iff_of_false (notMem_empty n) fun dead => absurd dead.1 (notMem_empty n)
      · rcases List.suffix_cons_iff.mp suffix with same | suffix
        · obtain ⟨rfl, rfl⟩ := List.cons.inj same
          exact iff_of_false (notMem_empty n) fun dead => absurd dead.1 (notMem_empty n)
        · exact absurd (List.suffix_nil.mp suffix) (List.cons_ne_nil _ _)
    · rcases List.suffix_cons_iff.mp suffix with same | suffix
      · obtain ⟨rfl, rfl⟩ := List.cons.inj same
        have unread := end_later 1 n (by omega)
        have reads : n ∈ (use 0).reads ↔ n ∈ ({0} : Finset ℕ) := by simp [use, Rtl.reads, registersOf, Expression.registers]
        exact reads.symm.trans (and_iff_left unread).symm
      · exact absurd (List.suffix_nil.mp suffix) (List.cons_ne_nil _ _)
    · exact absurd (List.suffix_nil.mp suffix) (List.cons_ne_nil _ _)
  branches := by
    intro b several
    rcases b with _ | _ | b
    · exact absurd several (by decide)
    · exact absurd several (by decide)
    · exact absurd several (Nat.not_lt_zero _)

def discardedCounts : Counts where
  nRegisters := 2
  nRefs := fun n => if n = 0 then 2 else 1
  liveLength := fun n => if n = 0 then 2 else 0

theorem discarded_separate : ¬discarded.Interfere 1 0 := by
  have second : discarded.lifetimes.kept 1 = [use 0] := rfl
  rintro ⟨b, inside, before, rtl, rest, split, held, -⟩
  rcases b with _ | _ | b
  · rcases before with _ | ⟨rtl', before⟩
    · rw [nil_append] at split
      rw [← split] at held
      exact held.elim (entry_later 1) LiveGraph.not_abandoned_start
    · obtain ⟨rfl, split'⟩ := cons.inj split
      rcases before with _ | ⟨rtl', before⟩
      · obtain ⟨rfl, rfl⟩ := cons.inj split'
        rcases held with live | ⟨first, rtl', middle, joined, isTarget, -⟩
        · exact absurd ((pop_later 1).mp live) one_ne_zero
        · rcases first with _ | ⟨_, first⟩
          · obtain ⟨rfl, -⟩ := cons.inj joined
            exact absurd (some.inj isTarget) zero_ne_one
          · simp at joined
      · simp at split'
  · rw [second] at split
    rcases before with _ | ⟨rtl', before⟩
    · rw [nil_append] at split
      rw [← split] at held
      rcases held with live | abandoned
      · exact absurd ((use_later 1).mp live) one_ne_zero
      · exact LiveGraph.not_abandoned_start abandoned
    · simp at split
  · exact absurd split.symm (append_ne_nil_of_right_ne_nil _ (cons_ne_nil _ _))

theorem discarded_counted : discarded.Counted discardedCounts := by
  intro b inside rtl member n mentioned
  have small : n < 2 := by
    rcases b with _ | _ | b
    · rcases mem_cons.mp member with rfl | member
      · rcases mentioned with isTarget | read
        · exact some.inj isTarget ▸ two_pos
        · exact absurd read (notMem_empty n)
      · obtain rfl := mem_singleton.mp member
        rcases mentioned with isTarget | read
        · exact some.inj isTarget ▸ one_lt_two
        · exact absurd read (notMem_empty n)
    · obtain rfl := mem_singleton.mp member
      rcases mentioned with isTarget | read
      · exact absurd isTarget nofun
      · have zero : n = 0 := by simpa [use, Rtl.reads, registersOf, Expression.registers] using read
        omega
    · exact absurd member not_mem_nil
  refine ⟨small, ?_⟩
  unfold discardedCounts
  dsimp only
  split <;> decide

theorem discarded_order : ∃ rest, discardedCounts.allocationOrder = 0 :: 1 :: rest := by
  apply allocationOrder_first (by decide) (by decide) zero_ne_one
  · exact WithTop.coe_lt_top _
  · intro n member notZero notOne
    have small := (mem_renumberedRegisters.mp member).1
    change n < 2 at small
    omega

theorem discarded_not_apart : ¬∃ a, walkBblocks discardedCounts discarded.graph discarded.lifetimes = some a ∧
    discarded.Apart discardedCounts a := by
  rintro ⟨a, walked, apart⟩
  obtain ⟨rest, first⟩ := discarded_order
  have shared := LiveGraph.shared_of_first discarded_counted discarded_separate first walked
  exact apart.kept 0 (by decide) [constant 0] (pop 1) [] rfl 1 0 rfl zero_ne_one ((exit_later 0).mpr rfl) shared.symm

/-- Lifetime analysis leaves exactly the live sets and dead registers that the allocation of temporaries goes by. -/
theorem allocates_after_lifetimes {g : Rgraph op} (needed : OperandsNeeded g) : ∃ fuel, ∃ l : LiveGraph op,
    l.graph = g ∧ RtlOpt.walkBblocks g fuel = some l.lifetimes ∧
      ((∀ c, l.Counted c → ∃ a, walkBblocks c l.graph l.lifetimes = some a ∧ l.Apart c a) ↔ l.EndsApart) := by
  obtain ⟨fuel, r, ran, -⟩ := RtlOpt.walkBblocks_spec g
  refine ⟨fuel, .ofLifetimes (analysed_of_walk ran) needed, rfl, ran, LiveGraph.endsApart_of_apart, ?_⟩
  intro apart c counted
  exact LiveGraph.apart_of_endsApart apart counted

theorem allocates_discards : ∃ fuel, ∃ l : LiveGraph Unit, l.graph = discards ∧
    RtlOpt.walkBblocks discards fuel = some l.lifetimes ∧
      ((∀ c, l.Counted c → ∃ a, walkBblocks c l.graph l.lifetimes = some a ∧ l.Apart c a) ↔ l.EndsApart) := by
  apply allocates_after_lifetimes
  intro b before rtl rest n split isTarget _ _ n' read
  have member : rtl ∈ (discards.bblock b).instructions := split ▸ mem_append_right _ mem_cons_self
  rcases b with _ | _ | b
  · rcases mem_pair.mp member with rfl | rfl <;> exact absurd read (notMem_empty n')
  · obtain rfl := mem_singleton.mp member
    exact nomatch isTarget
  · exact nomatch member

end MitScheme.Compiler.RtlOpt.RegisterAllocation
