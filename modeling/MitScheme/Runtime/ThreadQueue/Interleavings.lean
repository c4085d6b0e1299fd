import MitScheme.Library.Fifo
import MitScheme.Runtime.ThreadQueue.Operations

/-!
Thread queues as bounded buffers. The operations that return, in the order of their last turns, are
a history of a bounded buffer, and the threads that were noted as waiting are signalled.
-/

namespace MitScheme.Runtime.ThreadQueues

open Library List

variable {α : Type}

def Room (max : Option ℕ) (b : Fifo α Thread) : Prop := ∀ m ∈ max, b.contents.length < m

/-- What an operation that returns does to the buffer. -/
inductive Performs (max : Option ℕ) (b : Fifo α Thread) : Completed α → Fifo α Thread → Prop where
  | empty {thread} : Performs max b ⟨thread, .empty, .unspecific⟩ b.clear
  | queue {thread x} (room : Room max b) : Performs max b ⟨thread, .queue x, .item x⟩ (b.append x)
  | queueNoHang {thread x} (room : Room max b) : Performs max b ⟨thread, .queueNoHang x, .item x⟩ (b.append x)
  | refused {thread x} (full : ¬Room max b) : Performs max b ⟨thread, .queueNoHang x, .false⟩ b
  | push {thread x} (room : Room max b) : Performs max b ⟨thread, .push x, .item x⟩ (b.push x)
  | clobber {thread x} (full : ¬Room max b) : Performs max b ⟨thread, .push x, .item x⟩ (b.clobber x)
  | dequeue {thread x operation} (first : b.items.head? = some x)
      (dequeues : operation = .dequeue ∨ ∃ time, operation = .dequeueUntil time) :
      Performs max b ⟨thread, operation, .item x⟩ (b.take thread)
  | peek {thread x operation} (first : b.items.head? = some x)
      (peeks : operation = .peek ∨ ∃ time, operation = .peekUntil time) :
      Performs max b ⟨thread, operation, .item x⟩ b
  | expired {thread operation} (none : b.items = [])
      (timed : ∃ time, operation = .dequeueUntil time ∨ operation = .peekUntil time) :
      Performs max b ⟨thread, operation, .false⟩ b

inductive Replays (max : Option ℕ) : List (Completed α) → Fifo α Thread → Prop where
  | nil : Replays max [] .empty
  | snoc {history b completed b'} (replays : Replays max history b) (performs : Performs max b completed b') :
      Replays max (history ++ [completed]) b'

variable {max : Option ℕ} {queue queue₁ : ThreadQueue α} {nodes : List (ℕ × α)} {b b' : Fifo α Thread}
  {thread : Thread} {now : ℕ} {item x : α} {operation : Operation α} {s s' : System α}

theorem Performs.sound {completed : Completed α} (performs : Performs max b completed b') (sound : b.Sound) : b'.Sound := by
  cases performs with
  | empty => exact sound.clear
  | queue => exact sound.append _
  | queueNoHang => exact sound.append _
  | refused => exact sound
  | push => exact sound.push _
  | clobber => exact sound.clobber _
  | dequeue => exact sound.take _
  | peek => exact sound
  | expired => exact sound

theorem Replays.sound {history : List (Completed α)} (replays : Replays max history b) : b.Sound := by
  induction replays with
  | nil => exact Fifo.sound_empty
  | snoc _ performs ih => exact performs.sound ih

def Noted (mark : Thread → Notice) (waiting : List Thread) (notices : List Notice) : Prop :=
  ∀ (i : ℕ) (thread : Thread), notices[i]? = some (mark thread) →
    thread ∈ waiting ∨ ∃ j, i < j ∧ notices[j]? = some (.signalled thread)

section
variable {mark : Thread → Notice} {waiting : List Thread} {notices more : List Notice}

section
variable (noted : Noted mark waiting notices)
include noted

theorem Noted.later {waiting' : List Thread}
    (old : ∀ thread ∈ waiting, thread ∈ waiting' ∨ Notice.signalled thread ∈ more)
    (new : ∀ thread, mark thread ∈ more → thread ∈ waiting') : Noted mark waiting' (notices ++ more) := by
  intro i thread held
  rcases Nat.lt_or_ge i notices.length with earlier | later
  · rw [getElem?_append_left earlier] at held
    rcases noted i thread held with still | ⟨j, after, signalled⟩
    · rcases old thread still with still | signalled
      · exact .inl still
      · obtain ⟨k, found⟩ := mem_iff_getElem?.mp signalled
        refine .inr ⟨notices.length + k, by omega, ?_⟩
        rw [getElem?_append_right (Nat.le_add_right _ _), Nat.add_sub_cancel_left, found]
    · refine .inr ⟨j, after, ?_⟩
      rw [getElem?_append_left (List.getElem?_eq_some_iff.mp signalled).1, signalled]
  · rw [getElem?_append_right later] at held
    exact .inl (new thread (mem_of_getElem? held))

theorem Noted.other (unmarked : ∀ thread, mark thread ∉ more) : Noted mark waiting (notices ++ more) := by
  apply noted.later
  · intro thread member
    exact .inl member
  · intro thread marked
    exact absurd marked (unmarked thread)

theorem Noted.wait (inj : Function.Injective mark) (thread : Thread) :
    Noted mark (waiting ++ [thread]) (notices ++ [mark thread]) := by
  apply noted.later
  · intro other member
    exact .inl (mem_append_left _ member)
  · intro other marked
    rw [inj (mem_singleton.mp marked)]
    exact mem_append_right _ (mem_singleton_self _)

theorem Noted.resume (unmarked : ∀ thread other, mark thread ≠ .signalled other) :
    Noted mark [] (notices ++ waiting.map .signalled) := by
  apply noted.later
  · intro thread member
    exact .inr (mem_map_of_mem member)
  · intro thread marked
    obtain ⟨other, -, same⟩ := mem_map.mp marked
    exact absurd same.symm (unmarked thread other)

end

end

/-- Nobody waits for an item while there is one, or for room while there is some, and every thread that was noted as
waiting waits still or was signalled. -/
structure Informed (queue : ThreadQueue α) : Prop where
  dequeuers : 0 < queue.elementCount → queue.waitingDequeuers = []
  queuers : (∀ m ∈ queue.maxElements, queue.elementCount < m) → queue.waitingQueuers = []
  dequeuersNoted : Noted .waitsToDequeue queue.waitingDequeuers queue.notices
  queuersNoted : Noted .waitsToQueue queue.waitingQueuers queue.notices

theorem informed_make (max : Option ℕ) : Informed (makeThreadQueue max : ThreadQueue α) :=
  ⟨fun _ => rfl, fun _ => rfl, nofun, nofun⟩

section
variable (informed : Informed queue)
include informed

section
variable (relisted : Relisted queue queue₁ nodes)
include relisted

theorem Informed.resumeDequeuers
    (more : queue.elementCount ≤ queue₁.elementCount) : Informed (resumeDequeuers queue₁) where
  dequeuers _ := rfl
  queuers room := by
    apply relisted.queuers.trans
    apply informed.queuers
    intro m bound
    exact Nat.lt_of_le_of_lt more (room m (relisted.max ▸ bound))
  dequeuersNoted := by
    have noted := informed.dequeuersNoted
    rw [← relisted.dequeuers, ← relisted.notices] at noted
    exact noted.resume nofun
  queuersNoted := by
    have noted := informed.queuersNoted
    rw [← relisted.queuers, ← relisted.notices] at noted
    apply noted.other
    intro thread marked
    obtain ⟨other, -, same⟩ := mem_map.mp marked
    cases same

theorem Informed.resumeQueuers
    (fewer : queue₁.elementCount ≤ queue.elementCount) : Informed (resumeQueuers queue₁) where
  dequeuers some := relisted.dequeuers.trans (informed.dequeuers (Nat.lt_of_lt_of_le some fewer))
  queuers _ := rfl
  dequeuersNoted := by
    have noted := informed.dequeuersNoted
    rw [← relisted.dequeuers, ← relisted.notices] at noted
    apply noted.other
    intro thread marked
    obtain ⟨other, -, same⟩ := mem_map.mp marked
    cases same
  queuersNoted := by
    have noted := informed.queuersNoted
    rw [← relisted.queuers, ← relisted.notices] at noted
    exact noted.resume nofun

theorem Informed.relist (same : queue₁.elementCount = queue.elementCount) : Informed queue₁ := by
  obtain ⟨dequeuers, queuers, dequeuersNoted, queuersNoted⟩ := informed
  constructor
  · rwa [same, relisted.dequeuers]
  · rwa [same, relisted.max, relisted.queuers]
  · rwa [relisted.dequeuers, relisted.notices]
  · rwa [relisted.queuers, relisted.notices]

end

theorem Informed.waitToDequeue (empty : queue.elementCount = 0) (thread : Thread) :
    Informed (waitToDequeue queue thread) where
  dequeuers some := absurd some (by simp [ThreadQueues.waitToDequeue, empty])
  queuers := informed.queuers
  dequeuersNoted := informed.dequeuersNoted.wait (fun _ _ same => Notice.waitsToDequeue.inj same) thread
  queuersNoted := informed.queuersNoted.other fun _ => by simp

theorem Informed.waitToQueue (full : ¬∀ m ∈ queue.maxElements, queue.elementCount < m)
    (thread : Thread) : Informed (waitToQueue queue thread) where
  dequeuers := informed.dequeuers
  queuers room := absurd room full
  dequeuersNoted := informed.dequeuersNoted.other fun _ => by simp
  queuersNoted := informed.queuersNoted.wait (fun _ _ same => Notice.waitsToQueue.inj same) thread

end

structure Holds (max : Option ℕ) (queue : ThreadQueue α) (b : Fifo α Thread) : Prop where
  listed : ∃ nodes, Listed queue nodes ∧ b.items = nodes.map Prod.snd
  limit : queue.maxElements = max
  bounded : ∀ m ∈ max, queue.elementCount ≤ m
  informed : Informed queue

theorem Holds.count (holds : Holds max queue b) : queue.elementCount = b.contents.length := by
  obtain ⟨nodes, listed, same⟩ := holds.listed
  have lengths := congrArg length same
  rw [Fifo.items, length_map, length_map] at lengths
  rw [listed.count, lengths]

theorem Holds.isEmpty_iff (holds : Holds max queue b) : isEmpty queue = true ↔ b.items = [] := by
  rw [isEmpty, beq_iff_eq, holds.count, length_eq_zero_iff, Fifo.items, map_eq_nil_iff]

theorem Holds.room_iff (holds : Holds max queue b) :
    (∀ m ∈ queue.maxElements, queue.elementCount < m) ↔ Room max b := by
  rw [holds.limit, holds.count, Room]

theorem holds_start (max : Option ℕ) : Holds max (makeThreadQueue max : ThreadQueue α) .empty :=
  ⟨⟨[], listed_make max, rfl⟩, rfl, fun _ _ => Nat.zero_le _, informed_make max⟩

section
variable (holds : Holds max queue b)
include holds

theorem Holds.comesIn (room : Room max b) (relisted : Relisted queue queue₁ nodes)
    (items : b'.items = nodes.map Prod.snd) (one : nodes.length = b.contents.length + 1) :
    Holds max (resumeDequeuers queue₁) b' := by
  have counted : queue₁.elementCount = b.contents.length + 1 := relisted.listed.count.trans one
  have listed := relisted.listed
  refine ⟨⟨nodes, ⟨listed.linked, listed.distinct, listed.first, listed.last, listed.count⟩, items⟩,
    relisted.max.trans holds.limit, ?_, holds.informed.resumeDequeuers relisted ?_⟩
  · intro m bound
    exact counted ▸ room m bound
  · rw [holds.count, counted]
    exact Nat.le_succ _

theorem Holds.queue' (room : Room max b) (item : α) :
    ∃ queue₁, queue' queue item = some (queue₁, item) ∧ Holds max queue₁ (b.append item) := by
  obtain ⟨nodes, listed, same⟩ := holds.listed
  obtain ⟨queue₁, returned, relisted⟩ := queue'_spec listed item
  refine ⟨_, returned, holds.comesIn room relisted ?_ ?_⟩
  · simp [Fifo.append, Fifo.items] at same ⊢
    exact same
  · simp [← listed.count, holds.count]

theorem Holds.push' (room : Room max b) (item : α) :
    ∃ queue₁, push' queue item = (queue₁, item) ∧ Holds max queue₁ (b.push item) := by
  obtain ⟨nodes, listed, same⟩ := holds.listed
  obtain ⟨queue₁, returned, relisted⟩ := push'_spec listed item
  refine ⟨_, returned, holds.comesIn room relisted ?_ ?_⟩
  · simp [Fifo.push, Fifo.items] at same ⊢
    exact same
  · simp [← listed.count, holds.count]

theorem Holds.dequeue' (thread : Thread) (present : b.items ≠ []) :
    ∃ queue₁ x, dequeue' queue = some (queue₁, x) ∧ b.items.head? = some x ∧ Holds max queue₁ (b.take thread) := by
  obtain ⟨nodes, listed, same⟩ := holds.listed
  cases nodes with
  | nil => exact absurd same present
  | cons node nodes =>
    obtain ⟨i, x⟩ := node
    obtain ⟨queue₁, returned, relisted⟩ := dequeue'_spec listed
    have listed₁ := relisted.listed
    have fewer : queue₁.elementCount ≤ queue.elementCount := by
      rw [listed₁.count, listed.count]
      exact Nat.le_succ _
    refine ⟨_, x, returned, by rw [same]; rfl, ⟨nodes, ⟨listed₁.linked, listed₁.distinct, listed₁.first, listed₁.last,
      listed₁.count⟩, ?_⟩, relisted.max.trans holds.limit, ?_, holds.informed.resumeQueuers relisted fewer⟩
    · rw [Fifo.items, Fifo.take, map_tail]
      rw [Fifo.items] at same
      rw [same]
      rfl
    · intro m bound
      exact Nat.le_trans fewer (holds.bounded m bound)

theorem Holds.peek' (present : b.items ≠ []) : ∃ x, peek' queue = some x ∧ b.items.head? = some x := by
  obtain ⟨nodes, listed, same⟩ := holds.listed
  cases nodes with
  | nil => exact absurd same present
  | cons node nodes =>
    obtain ⟨stop, -, here, next, held, -⟩ := listed.linked
    refine ⟨node.2, ?_, by rw [same]; rfl⟩
    simp [ThreadQueues.peek', here, car, held]

theorem Holds.empty : Holds max (emptyTurn queue) b.clear := by
  obtain ⟨nodes, listed, same⟩ := holds.listed
  unfold emptyTurn
  split
  · rename_i empty
    obtain rfl := listed.isEmpty_iff.mp empty
    exact ⟨⟨[], listed, rfl⟩, holds.limit, holds.bounded, holds.informed⟩
  · have relisted : Relisted queue { queue with firstPair := .false, lastPair := .false, elementCount := 0 } [] :=
      ⟨⟨⟨.false, nofun, rfl⟩, nodup_nil, rfl, rfl, rfl⟩, rfl, rfl, rfl, rfl⟩
    have listed₁ := relisted.listed
    exact ⟨⟨[], ⟨listed₁.linked, listed₁.distinct, rfl, rfl, rfl⟩, rfl⟩, holds.limit, fun _ _ => Nat.zero_le _,
      holds.informed.resumeQueuers relisted (Nat.zero_le _)⟩

theorem Holds.pushFull (several : 2 ≤ queue.elementCount) (item : α) :
    ∃ queue₁, pushFull queue item = some (queue₁, item) ∧ Holds max queue₁ (b.clobber item) := by
  obtain ⟨nodes, listed, same⟩ := holds.listed
  rw [listed.count] at several
  obtain ⟨most, ⟨i, x⟩, rfl⟩ := (eq_nil_or_concat' nodes).resolve_left (by rintro rfl; cases several)
  obtain ⟨front, ⟨j, y⟩, rfl⟩ := (eq_nil_or_concat' most).resolve_left (by rintro rfl; simp at several)
  obtain ⟨queue₁, returned, relisted⟩ := pushFull_spec listed item
  have counted : queue₁.elementCount = queue.elementCount := by
    rw [relisted.listed.count, listed.count]
    simp
  refine ⟨queue₁, returned, ⟨_, relisted.listed, ?_⟩, relisted.max.trans holds.limit, ?_,
    holds.informed.relist relisted counted⟩
  · rw [Fifo.items] at same
    rw [Fifo.items, Fifo.clobber, map_cons, map_dropLast, same]
    simp
  · rw [counted]
    exact holds.bounded

end

end MitScheme.Runtime.ThreadQueues
