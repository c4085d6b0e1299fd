import MitScheme.Library.Chains
import MitScheme.Library.Run

/-!
The queues of `thread-queue.scm`: a linked list of pairs that is changed in place, with the threads
that wait for an item or for room. A critical section is one turn of a thread; a thread is
suspended only between two turns.
-/

namespace MitScheme.Runtime.ThreadQueues

open Library List

variable {α : Type}

inductive Reference where
  | pair (address : ℕ)
  | null
  | false
deriving DecidableEq, Repr

abbrev Pairs (α : Type) := List (Pair α Reference)

def car (pairs : Pairs α) : Reference → Option α
  | .pair i => pairs[i]?.map Pair.car
  | _ => none

def cdr (pairs : Pairs α) : Reference → Option Reference
  | .pair i => pairs[i]?.map Pair.cdr
  | _ => none

def setCar (pairs : Pairs α) (item : α) : Reference → Option (Pairs α)
  | .pair i => some (pairs.modify i fun pair => { pair with car := item })
  | _ => none

def setCdr (pairs : Pairs α) (next : Reference) : Reference → Option (Pairs α)
  | .pair i => some (pairs.modify i fun pair => { pair with cdr := next })
  | _ => none

abbrev Thread := ℕ

/-- What the queue noted about its waiting threads, in order. -/
inductive Notice where
  | waitsToQueue (thread : Thread)
  | waitsToDequeue (thread : Thread)
  | signalled (thread : Thread)
deriving DecidableEq, Repr

/-- A `thread-queue` with the store its pairs are in. Items are the objects other than false. -/
structure ThreadQueue (α : Type) where
  pairs : Pairs α
  firstPair : Reference
  lastPair : Reference
  elementCount : ℕ
  maxElements : Option ℕ
  waitingQueuers : List Thread
  waitingDequeuers : List Thread
  notices : List Notice
deriving DecidableEq, Repr

def makeThreadQueue (max : Option ℕ) : ThreadQueue α := ⟨[], .false, .false, 0, max, [], [], []⟩

def isEmpty (queue : ThreadQueue α) : Bool := queue.elementCount == 0

def resumeQueuers (queue : ThreadQueue α) : ThreadQueue α :=
  { queue with waitingQueuers := [], notices := queue.notices ++ queue.waitingQueuers.map .signalled }

def resumeDequeuers (queue : ThreadQueue α) : ThreadQueue α :=
  { queue with waitingDequeuers := [], notices := queue.notices ++ queue.waitingDequeuers.map .signalled }

def waitToQueue (queue : ThreadQueue α) (thread : Thread) : ThreadQueue α :=
  { queue with
    waitingQueuers := queue.waitingQueuers ++ [thread], notices := queue.notices ++ [.waitsToQueue thread] }

def waitToDequeue (queue : ThreadQueue α) (thread : Thread) : ThreadQueue α :=
  { queue with
    waitingDequeuers := queue.waitingDequeuers ++ [thread], notices := queue.notices ++ [.waitsToDequeue thread] }

def peek' (queue : ThreadQueue α) : Option α := car queue.pairs queue.firstPair

def queue' (queue : ThreadQueue α) (item : α) : Option (ThreadQueue α × α) :=
  let new := Reference.pair queue.pairs.length
  let pairs := queue.pairs ++ [⟨item, .null⟩]
  (if queue.lastPair = .false then some pairs else setCdr pairs new queue.lastPair).map fun pairs =>
    (resumeDequeuers
      { queue with
        pairs, lastPair := new, firstPair := if queue.firstPair = .false then new else queue.firstPair,
        elementCount := queue.elementCount + 1 }, item)

/-- `%queue-no-hang!`, which answers false when the queue is full. -/
def queueNoHang' (queue : ThreadQueue α) (item : α) : Option (ThreadQueue α × Option α) :=
  let queued := (queue' queue item).map fun r => (r.1, some r.2)
  match queue.maxElements with
  | some max => if queue.elementCount < max then queued else some (queue, none)
  | none => queued

def dequeue' (queue : ThreadQueue α) : Option (ThreadQueue α × α) :=
  (car queue.pairs queue.firstPair).bind fun item =>
    let taken (firstPair lastPair : Reference) :=
      (resumeQueuers { queue with firstPair, lastPair, elementCount := queue.elementCount - 1 }, item)
    if queue.firstPair = queue.lastPair then some (taken .false .false)
    else (cdr queue.pairs queue.firstPair).map fun next => taken next queue.lastPair

def push' (queue : ThreadQueue α) (item : α) : ThreadQueue α × α :=
  let new := Reference.pair queue.pairs.length
  (resumeDequeuers
    { queue with
      pairs := queue.pairs ++ [⟨item, queue.firstPair⟩], firstPair := new,
      lastPair := if queue.lastPair = .false then new else queue.lastPair,
      elementCount := queue.elementCount + 1 }, item)

def beforeLast (pairs : Pairs α) (last : Reference) : ℕ → Reference → Option Reference
  | 0, _ => none
  | turns + 1, list => (cdr pairs list).bind fun next =>
    if next = last then some list else beforeLast pairs last turns next

/-- `thread-queue/push!` on a full queue. -/
def pushFull (queue : ThreadQueue α) (item : α) : Option (ThreadQueue α × α) :=
  let last := queue.lastPair
  let first := queue.firstPair
  (beforeLast queue.pairs last queue.pairs.length first).bind fun newLast =>
  (setCdr queue.pairs .null newLast).bind fun pairs =>
  (setCar pairs item last).bind fun pairs =>
  (setCdr pairs first last).map fun pairs =>
    ({ queue with pairs, lastPair := newLast, firstPair := last }, item)

inductive Operation (α : Type) where
  | empty
  | queue (item : α)
  | queueNoHang (item : α)
  | push (item : α)
  | dequeue
  | dequeueUntil (time : ℕ)
  | peek
  | peekUntil (time : ℕ)
deriving DecidableEq, Repr

inductive Value (α : Type) where
  | item (x : α)
  | false
  | unspecific
deriving DecidableEq, Repr

/-- What a turn ends with: the operation returns, or its thread is suspended. -/
inductive Turn (α : Type) where
  | returns (value : Value α)
  | suspends
deriving DecidableEq, Repr

def emptyTurn (queue : ThreadQueue α) : ThreadQueue α :=
  if isEmpty queue then queue
  else resumeQueuers { queue with firstPair := .false, lastPair := .false, elementCount := 0 }

def queueTurn (thread : Thread) (item : α) (queue : ThreadQueue α) : Option (ThreadQueue α × Turn α) :=
  (queueNoHang' queue item).map fun r =>
    match r.2 with
    | some item => (r.1, .returns (.item item))
    | none => (waitToQueue r.1 thread, .suspends)

def queueNoHangTurn (item : α) (queue : ThreadQueue α) : Option (ThreadQueue α × Turn α) :=
  (queueNoHang' queue item).map fun r => (r.1, .returns (match r.2 with | some item => .item item | none => .false))

def pushTurn (item : α) (queue : ThreadQueue α) : Option (ThreadQueue α × Turn α) :=
  let returned (r : ThreadQueue α × α) : ThreadQueue α × Turn α := (r.1, .returns (.item r.2))
  match queue.maxElements with
  | some max => if queue.elementCount < max then some (returned (push' queue item)) else (pushFull queue item).map returned
  | none => some (returned (push' queue item))

/-- The loops of `dequeue!` and `peek`, which go on until there is an item. -/
def whenNonEmpty (thread : Thread) (queue : ThreadQueue α)
    (operation : ThreadQueue α → Option (ThreadQueue α × α)) : Option (ThreadQueue α × Turn α) :=
  if isEmpty queue then some (waitToDequeue queue thread, .suspends)
  else (operation queue).map fun r => (r.1, .returns (.item r.2))

/-- `when-non-empty-before`, whose clock is read only on an empty queue. -/
def whenNonEmptyBefore (thread : Thread) (time now : ℕ) (queue : ThreadQueue α)
    (operation : ThreadQueue α → Option (ThreadQueue α × α)) : Option (ThreadQueue α × Turn α) :=
  if isEmpty queue && decide (time ≤ now) then some (queue, .returns .false)
  else whenNonEmpty thread queue operation

def peeked (queue : ThreadQueue α) : Option (ThreadQueue α × α) := (peek' queue).map fun item => (queue, item)

def turn (thread : Thread) (now : ℕ) (queue : ThreadQueue α) : Operation α → Option (ThreadQueue α × Turn α)
  | .empty => some (emptyTurn queue, .returns .unspecific)
  | .queue item => queueTurn thread item queue
  | .queueNoHang item => queueNoHangTurn item queue
  | .push item => pushTurn item queue
  | .dequeue => whenNonEmpty thread queue dequeue'
  | .dequeueUntil time => whenNonEmptyBefore thread time now queue dequeue'
  | .peek => whenNonEmpty thread queue peeked
  | .peekUntil time => whenNonEmptyBefore thread time now queue peeked

structure Completed (α : Type) where
  thread : Thread
  operation : Operation α
  value : Value α
deriving DecidableEq, Repr

structure System (α : Type) where
  queue : ThreadQueue α
  suspended : List (Thread × Operation α)
  completed : List (Completed α)
deriving DecidableEq, Repr

/-- A thread calls an operation, or a suspended one runs again, at some time of the clock. -/
inductive Event (α : Type) where
  | call (thread : Thread) (operation : Operation α) (now : ℕ)
  | wake (thread : Thread) (now : ℕ)
deriving DecidableEq, Repr

def start (max : Option ℕ) : System α := ⟨makeThreadQueue max, [], []⟩

def takeTurn (s : System α) (thread : Thread) (operation : Operation α) (now : ℕ) : Option (System α) :=
  (turn thread now s.queue operation).map fun r =>
    match r.2 with
    | .returns value => { s with queue := r.1, completed := s.completed ++ [⟨thread, operation, value⟩] }
    | .suspends => { s with queue := r.1, suspended := s.suspended ++ [(thread, operation)] }

def System.resumed (s : System α) (thread : Thread) : System α :=
  { s with suspended := s.suspended.filter fun p => p.1 != thread }

/-- One event; a suspended thread calls nothing, and only a suspended one wakes up. -/
def step (s : System α) : Event α → Option (System α)
  | .call thread operation now =>
    if thread ∈ s.suspended.map Prod.fst then some s else takeTurn s thread operation now
  | .wake thread now =>
    match s.suspended.find? fun p => p.1 == thread with
    | some p => takeTurn (s.resumed thread) thread p.2 now
    | none => some s

variable {queue : ThreadQueue α} {nodes front : List (ℕ × α)} {item x : α} {i : ℕ}

def firstOf (nodes : List (ℕ × α)) : Reference := (nodes.head?.map fun node => Reference.pair node.1).getD .false

def lastOf (nodes : List (ℕ × α)) : Reference := (nodes.getLast?.map fun node => Reference.pair node.1).getD .false

/-- The pairs from the first pair on are the nodes, as many as the queue counts, and the last pair is the last of
them. -/
structure Listed (queue : ThreadQueue α) (nodes : List (ℕ × α)) : Prop where
  linked : ∃ stop, (∀ i, stop ≠ Reference.pair i) ∧ Chain .pair queue.pairs queue.firstPair nodes stop
  distinct : (nodes.map Prod.fst).Nodup
  first : queue.firstPair = firstOf nodes
  last : queue.lastPair = lastOf nodes
  count : queue.elementCount = nodes.length

structure Relisted (queue queue' : ThreadQueue α) (nodes : List (ℕ × α)) : Prop where
  listed : Listed queue' nodes
  max : queue'.maxElements = queue.maxElements
  queuers : queue'.waitingQueuers = queue.waitingQueuers
  dequeuers : queue'.waitingDequeuers = queue.waitingDequeuers
  notices : queue'.notices = queue.notices

@[simp] theorem lastOf_snoc : lastOf (front ++ [(i, x)]) = .pair i := by simp [lastOf]

theorem lastOf_ne_false (nonempty : nodes ≠ []) : lastOf nodes ≠ .false := by
  obtain ⟨front, ⟨i, x⟩, rfl⟩ := (eq_nil_or_concat' nodes).resolve_left nonempty
  rw [lastOf_snoc]
  nofun

theorem Listed.isEmpty_iff (listed : Listed queue nodes) : isEmpty queue = true ↔ nodes = [] := by
  rw [isEmpty, listed.count, beq_iff_eq, length_eq_zero_iff]

theorem listed_make (max : Option ℕ) : Listed (makeThreadQueue max : ThreadQueue α) [] :=
  ⟨⟨.false, nofun, rfl⟩, nodup_nil, rfl, rfl, rfl⟩

theorem Listed.fresh (listed : Listed queue nodes) : queue.pairs.length ∉ nodes.map Prod.fst := by
  obtain ⟨stop, -, chain⟩ := listed.linked
  intro member
  obtain ⟨node, present, same⟩ := mem_map.mp member
  exact absurd (chain.inside present) (by omega)

theorem queue'_spec (listed : Listed queue nodes) (item : α) : ∃ queue₁, queue' queue item =
    some (resumeDequeuers queue₁, item) ∧ Relisted queue queue₁ (nodes ++ [(queue.pairs.length, item)]) := by
  obtain ⟨stop, outside, chain⟩ := listed.linked
  have fresh := listed.fresh
  have distinct : ((nodes ++ [(queue.pairs.length, item)]).map Prod.fst).Nodup := by
    rw [map_append]
    exact nodup_append.mpr ⟨listed.distinct, nodup_singleton _, fun a member b single => by
      simp only [map_cons, map_nil, mem_singleton] at single
      rintro rfl
      exact fresh (single ▸ member)⟩
  have added : (queue.pairs ++ [⟨item, .null⟩])[queue.pairs.length]? = some (⟨item, .null⟩ : Pair α Reference) :=
    getElem?_concat_length
  rcases eq_nil_or_concat' nodes with rfl | ⟨front, ⟨i, x⟩, rfl⟩
  · have last : queue.lastPair = .false := listed.last
    have first : queue.firstPair = .false := listed.first
    refine ⟨{ queue with
      pairs := queue.pairs ++ [⟨item, .null⟩], firstPair := .pair queue.pairs.length,
      lastPair := .pair queue.pairs.length, elementCount := queue.elementCount + 1 }, ?_, ⟨⟨?_, distinct, ?_, ?_, ?_⟩,
      rfl, rfl, rfl, rfl⟩⟩
    · simp [queue', last, first]
    · exact ⟨.null, nofun, chain_single.mpr ⟨rfl, added⟩⟩
    · rfl
    · rfl
    · simp [listed.count]
  · have last : queue.lastPair = .pair i := listed.last.trans lastOf_snoc
    have nonempty : queue.firstPair ≠ .false := by
      rw [listed.first]
      cases front <;> nofun
    refine ⟨{ queue with
      pairs := (queue.pairs ++ [Pair.mk item Reference.null]).modify i fun pair => { pair with cdr := .pair queue.pairs.length },
      lastPair := .pair queue.pairs.length, elementCount := queue.elementCount + 1 }, ?_, ⟨⟨?_, distinct, ?_, ?_, ?_⟩,
      rfl, rfl, rfl, rfl⟩⟩
    · simp [queue', last, if_neg nonempty, setCdr]
    · refine ⟨.null, nofun, chain_append.mpr ⟨.pair queue.pairs.length, ?_, chain_single.mpr ⟨rfl, ?_⟩⟩⟩
      · exact (chain.alloc _).retarget listed.distinct _
      · have apart : i ≠ queue.pairs.length := by
          rintro rfl
          exact fresh (by simp)
        simp [apart]
    · rw [listed.first]
      cases front <;> rfl
    · exact lastOf_snoc.symm
    · simp [listed.count]

theorem dequeue'_spec (listed : Listed queue ((i, x) :: nodes)) :
    ∃ queue₁, dequeue' queue = some (resumeQueuers queue₁, x) ∧ Relisted queue queue₁ nodes := by
  obtain ⟨stop, outside, here, next, held, chain⟩ := listed.linked
  have item : car queue.pairs (.pair i) = some x := by rw [car, held]; rfl
  have rest : cdr queue.pairs (.pair i) = some next := by rw [cdr, held]; rfl
  have last := listed.last
  have distinct := nodup_cons.mp listed.distinct
  cases nodes with
  | nil =>
    have single : queue.lastPair = .pair i := last
    refine ⟨{ queue with firstPair := .false, lastPair := .false, elementCount := queue.elementCount - 1 }, ?_,
      ⟨⟨?_, distinct.2, ?_, ?_, ?_⟩, rfl, rfl, rfl, rfl⟩⟩
    · simp [dequeue', here, single, item]
    · exact ⟨.false, nofun, rfl⟩
    · rfl
    · rfl
    · simp [listed.count]
  | cons node rest' =>
    obtain ⟨j, y⟩ := node
    have several : queue.firstPair ≠ queue.lastPair := by
      obtain ⟨front, ⟨k, z⟩, same⟩ := (eq_nil_or_concat' ((j, y) :: rest')).resolve_left nofun
      rw [here, last, same, ← cons_append, lastOf_snoc]
      rintro (inj : Reference.pair i = .pair k)
      cases inj
      apply distinct.1
      simp [same]
    refine ⟨{ queue with firstPair := next, elementCount := queue.elementCount - 1 }, ?_,
      ⟨⟨⟨stop, outside, chain⟩, distinct.2, chain.1, ?_, ?_⟩, rfl, rfl, rfl, rfl⟩⟩
    · simp only [dequeue', if_neg several]
      simp [here, item, rest]
    · exact last.trans (by simp [lastOf])
    · simp [listed.count]

theorem push'_spec (listed : Listed queue nodes) (item : α) :
    ∃ queue₁, push' queue item = (resumeDequeuers queue₁, item) ∧
      Relisted queue queue₁ ((queue.pairs.length, item) :: nodes) := by
  obtain ⟨stop, outside, chain⟩ := listed.linked
  refine ⟨{ queue with
    pairs := queue.pairs ++ [⟨item, queue.firstPair⟩], firstPair := .pair queue.pairs.length
    lastPair := if queue.lastPair = .false then .pair queue.pairs.length else queue.lastPair
    elementCount := queue.elementCount + 1 }, rfl,
    ⟨⟨?_, nodup_cons.mpr ⟨listed.fresh, listed.distinct⟩, rfl, ?_, ?_⟩, rfl, rfl, rfl, rfl⟩⟩
  · exact ⟨stop, outside, rfl, queue.firstPair, getElem?_concat_length, chain.alloc _⟩
  · rw [listed.last]
    cases nodes with
    | nil => rfl
    | cons node rest =>
      have present : lastOf (node :: rest) ≠ .false := lastOf_ne_false (cons_ne_nil _ _)
      simp only [if_neg present]
      simp [lastOf]
  · simp [listed.count]

theorem beforeLast_spec {pairs : Pairs α} {start : Reference} {j : ℕ} {y : α} {turns : ℕ}
    (chain : Chain .pair pairs start (front ++ [(j, y)]) (.pair i)) (apart : i ∉ (front ++ [(j, y)]).map Prod.fst)
    (enough : front.length < turns) : beforeLast pairs (.pair i) turns start = some (.pair j) := by
  induction front generalizing start turns with
  | nil =>
    obtain ⟨here, held⟩ := chain_single.mp chain
    cases turns with
    | zero => cases enough
    | succ turns => simp [beforeLast, here, cdr, held]
  | cons node front ih =>
    obtain ⟨here, next, held, rest⟩ := chain
    cases turns with
    | zero => cases enough
    | succ turns =>
      have onward : next ≠ .pair i := by
        rintro rfl
        cases front with
        | nil => exact apart (by simp [Reference.pair.inj rest.1])
        | cons other front => exact apart (by simp [Reference.pair.inj rest.1])
      have further := ih rest (fun member => apart (by simp_all)) (Nat.lt_of_succ_lt_succ enough)
      simp [beforeLast, here, cdr, held, if_neg onward, further]

theorem pushFull_spec {j : ℕ} {y : α} (listed : Listed queue (front ++ [(j, y)] ++ [(i, x)])) (item : α) :
    ∃ queue₁, pushFull queue item = some (queue₁, item) ∧ Relisted queue queue₁ ((i, item) :: (front ++ [(j, y)])) := by
  obtain ⟨stop, outside, chain⟩ := listed.linked
  obtain ⟨middle, first, last⟩ := chain_append.mp chain
  obtain ⟨rfl, held⟩ := chain_single.mp last
  have distinct := listed.distinct
  rw [map_append, nodup_append] at distinct
  have apart : i ∉ (front ++ [(j, y)]).map Prod.fst := fun member => distinct.2.2 i member i (by simp) rfl
  have room : front.length < queue.pairs.length := by
    have small := chain.length_le listed.distinct
    simp only [length_append, length_singleton] at small
    omega
  have found := beforeLast_spec first apart room
  have lastPair : queue.lastPair = .pair i := listed.last.trans lastOf_snoc
  refine ⟨{ queue with
    pairs := ((queue.pairs.modify j fun pair => { pair with cdr := .null }).modify i fun pair =>
      { pair with car := item }).modify i fun pair => { pair with cdr := queue.firstPair },
    firstPair := .pair i, lastPair := .pair j }, ?_, ⟨⟨?_, ?_, ?_, ?_, ?_⟩, rfl, rfl, rfl, rfl⟩⟩
  · simp [pushFull, lastPair, found, setCdr, setCar]
  · refine ⟨.null, nofun, rfl, queue.firstPair, ?_, ?_⟩
    · have other : j ≠ i := fun same => apart (by simp [same])
      simp [other, held]
    · exact ((first.retarget distinct.1 .null).outside apart _).outside apart _
  · exact nodup_cons.mpr ⟨apart, distinct.1⟩
  · rfl
  · rw [← cons_append, lastOf_snoc]
  · rw [listed.count]
    simp

end MitScheme.Runtime.ThreadQueues
