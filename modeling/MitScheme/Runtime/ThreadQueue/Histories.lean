import MitScheme.Runtime.ThreadQueue.Interleavings

namespace MitScheme.Runtime.ThreadQueues

open Library

variable {α : Type} {max : Option ℕ} {queue : ThreadQueue α} {b : Fifo α Thread} {thread : Thread} {now : ℕ} {item : α}
  {operation : Operation α} {s s' : System α}

/-- What a turn does to the buffer: nothing when its thread is suspended, which a push never is. -/
def Turned (max : Option ℕ) (b : Fifo α Thread) (thread : Thread) (operation : Operation α) :
    Turn α → Fifo α Thread → Prop
  | .returns value, b' => Performs max b ⟨thread, operation, value⟩ b'
  | .suspends, b' => b' = b ∧ ∀ x, operation ≠ .push x

def Spares (queue : ThreadQueue α) : Operation α → Prop
  | .push _ => queue.maxElements = some 1 → queue.elementCount = 0
  | _ => True

instance : Decidable (Spares queue operation) := by
  cases operation <;> unfold Spares <;> infer_instance

theorem queueNoHang'_room (room : ∀ m ∈ queue.maxElements, queue.elementCount < m) :
    queueNoHang' queue item = (queue' queue item).map fun r => (r.1, some r.2) := by
  unfold queueNoHang'
  split
  · rename_i m bound
    rw [if_pos (room m bound)]
  · rfl

theorem queueNoHang'_full (full : ¬∀ m ∈ queue.maxElements, queue.elementCount < m) :
    queueNoHang' queue item = some (queue, none) := by
  unfold queueNoHang'
  split
  · rename_i m bound
    rw [if_neg]
    intro room
    apply full
    intro m' bound'
    cases bound.symm.trans bound'
    exact room
  · rename_i unlimited
    exact absurd (fun m bound => nomatch unlimited.symm.trans bound) full

theorem pushTurn_room (room : ∀ m ∈ queue.maxElements, queue.elementCount < m) :
    pushTurn item queue = some ((push' queue item).1, .returns (.item (push' queue item).2)) := by
  unfold pushTurn
  split
  · rename_i m bound
    rw [if_pos (room m bound)]
  · rfl

theorem pushTurn_full {m : ℕ} (bound : queue.maxElements = some m) (full : ¬queue.elementCount < m) :
    pushTurn item queue = (pushFull queue item).map fun r => (r.1, .returns (.item r.2)) := by
  unfold pushTurn
  rw [bound]
  simp [if_neg full]

section
variable (holds : Holds max queue b)
include holds

theorem Holds.queueTurn (thread : Thread) (item : α) : ∃ queue' turned b', queueTurn thread item queue =
    some (queue', turned) ∧ Holds max queue' b' ∧ Turned max b thread (.queue item) turned b' := by
  by_cases room : ∀ m ∈ queue.maxElements, queue.elementCount < m
  · have room' := holds.room_iff.mp room
    obtain ⟨queue₁, queued, holds₁⟩ := holds.queue' room' item
    refine ⟨queue₁, .returns (.item item), b.append item, ?_, holds₁, .queue room'⟩
    rw [ThreadQueues.queueTurn, queueNoHang'_room room, queued]
    rfl
  · refine ⟨waitToQueue queue thread, .suspends, b, ?_, ?_, rfl, nofun⟩
    · rw [ThreadQueues.queueTurn, queueNoHang'_full room]
      rfl
    · obtain ⟨nodes, listed, same⟩ := holds.listed
      exact ⟨⟨nodes, ⟨listed.linked, listed.distinct, listed.first, listed.last, listed.count⟩, same⟩, holds.limit,
        holds.bounded, holds.informed.waitToQueue room thread⟩

theorem Holds.queueNoHangTurn (thread : Thread) (item : α) : ∃ queue' turned b', queueNoHangTurn item queue =
    some (queue', turned) ∧ Holds max queue' b' ∧ Turned max b thread (.queueNoHang item) turned b' := by
  by_cases room : ∀ m ∈ queue.maxElements, queue.elementCount < m
  · have room' := holds.room_iff.mp room
    obtain ⟨queue₁, queued, holds₁⟩ := holds.queue' room' item
    refine ⟨queue₁, .returns (.item item), b.append item, ?_, holds₁, .queueNoHang room'⟩
    rw [ThreadQueues.queueNoHangTurn, queueNoHang'_room room, queued]
    rfl
  · refine ⟨queue, .returns .false, b, ?_, holds, .refused (room ∘ holds.room_iff.mpr)⟩
    rw [ThreadQueues.queueNoHangTurn, queueNoHang'_full room]
    rfl

theorem Holds.pushTurn (positive : ∀ m ∈ max, 1 ≤ m) (spares : Spares queue (.push item)) (thread : Thread) :
    ∃ queue' turned b', pushTurn item queue = some (queue', turned) ∧ Holds max queue' b' ∧
      Turned max b thread (.push item) turned b' := by
  by_cases room : ∀ m ∈ queue.maxElements, queue.elementCount < m
  · have room' := holds.room_iff.mp room
    obtain ⟨queue₁, pushed, holds₁⟩ := holds.push' room' item
    refine ⟨queue₁, .returns (.item item), b.push item, ?_, holds₁, .push room'⟩
    rw [pushTurn_room room, pushed]
  · have full := room ∘ holds.room_iff.mpr
    obtain ⟨m, bound, full'⟩ : ∃ m, queue.maxElements = some m ∧ ¬queue.elementCount < m := by
      by_contra none
      apply room
      intro m bound
      by_contra more
      exact none ⟨m, bound, more⟩
    have several : 2 ≤ queue.elementCount := by
      have one := positive m (holds.limit ▸ bound)
      by_contra few
      have single : m = 1 := by omega
      have empty : queue.elementCount = 0 := spares (single ▸ bound)
      omega
    obtain ⟨queue₁, pushed, holds₁⟩ := holds.pushFull several item
    refine ⟨queue₁, .returns (.item item), b.clobber item, ?_, holds₁, .clobber full⟩
    rw [pushTurn_full bound full', pushed]
    rfl

theorem Holds.whenNonEmpty {taken : ThreadQueue α → Option (ThreadQueue α × α)}
    (waits : ∀ x, operation ≠ .push x)
    (performs : b.items ≠ [] → ∃ queue₁ x b', taken queue = some (queue₁, x) ∧ Holds max queue₁ b' ∧
      Performs max b ⟨thread, operation, .item x⟩ b') :
    ∃ queue' turned b', whenNonEmpty thread queue taken = some (queue', turned) ∧ Holds max queue' b' ∧
      Turned max b thread operation turned b' := by
  unfold ThreadQueues.whenNonEmpty
  split
  · rename_i empty
    obtain ⟨nodes, listed, same⟩ := holds.listed
    refine ⟨waitToDequeue queue thread, .suspends, b, rfl, ⟨⟨nodes, ⟨listed.linked, listed.distinct, listed.first,
      listed.last, listed.count⟩, same⟩, holds.limit, holds.bounded, ?_⟩, rfl, waits⟩
    apply holds.informed.waitToDequeue
    exact beq_iff_eq.mp empty
  · rename_i some
    obtain ⟨queue₁, x, b', took, holds₁, performs⟩ := performs (some ∘ holds.isEmpty_iff.mpr)
    exact ⟨queue₁, .returns (.item x), b', by rw [took]; rfl, holds₁, performs⟩

theorem Holds.whenNonEmptyBefore {taken : ThreadQueue α → Option (ThreadQueue α × α)} {time : ℕ}
    (timed : operation = .dequeueUntil time ∨ operation = .peekUntil time)
    (performs : b.items ≠ [] → ∃ queue₁ x b', taken queue = some (queue₁, x) ∧ Holds max queue₁ b' ∧
      Performs max b ⟨thread, operation, .item x⟩ b') :
    ∃ queue' turned b', whenNonEmptyBefore thread time now queue taken = some (queue', turned) ∧ Holds max queue' b' ∧
      Turned max b thread operation turned b' := by
  unfold ThreadQueues.whenNonEmptyBefore
  split
  · rename_i late
    have empty := (Bool.and_eq_true_iff.mp late).1
    exact ⟨queue, .returns .false, b, rfl, holds, .expired (holds.isEmpty_iff.mp empty) ⟨time, timed⟩⟩
  · apply holds.whenNonEmpty
    · rintro x rfl
      rcases timed with timed | timed <;> cases timed
    · exact performs

/-- A turn on a queue that holds the items of a buffer signals no error, and what returns is an operation on the
buffer. -/
theorem turn_spec (positive : ∀ m ∈ max, 1 ≤ m) (spares : Spares queue operation) (thread : Thread) (now : ℕ) :
    ∃ queue' turned b', turn thread now queue operation = some (queue', turned) ∧ Holds max queue' b' ∧
      Turned max b thread operation turned b' := by
  have dequeues (dequeuing : operation = .dequeue ∨ ∃ time, operation = .dequeueUntil time) (present : b.items ≠ []) :
      ∃ queue₁ x b', dequeue' queue = some (queue₁, x) ∧ Holds max queue₁ b' ∧
        Performs max b ⟨thread, operation, .item x⟩ b' := by
    obtain ⟨queue₁, x, took, first, holds₁⟩ := holds.dequeue' thread present
    exact ⟨queue₁, x, _, took, holds₁, .dequeue first dequeuing⟩
  have peeks (peeking : operation = .peek ∨ ∃ time, operation = .peekUntil time) (present : b.items ≠ []) :
      ∃ queue₁ x b', peeked queue = some (queue₁, x) ∧ Holds max queue₁ b' ∧
        Performs max b ⟨thread, operation, .item x⟩ b' := by
    obtain ⟨x, read, first⟩ := holds.peek' present
    exact ⟨queue, x, b, by rw [peeked, read]; rfl, holds, .peek first peeking⟩
  cases operation with
  | empty => exact ⟨_, _, _, rfl, holds.empty, .empty⟩
  | queue item => exact holds.queueTurn thread item
  | queueNoHang item => exact holds.queueNoHangTurn thread item
  | push item => exact holds.pushTurn positive spares thread
  | dequeue => exact holds.whenNonEmpty nofun (dequeues (.inl rfl))
  | dequeueUntil time => exact holds.whenNonEmptyBefore (.inl rfl) (dequeues (.inr ⟨time, rfl⟩))
  | peek => exact holds.whenNonEmpty nofun (peeks (.inl rfl))
  | peekUntil time => exact holds.whenNonEmptyBefore (.inr rfl) (peeks (.inr ⟨time, rfl⟩))

end

/-- The condition on an event: the operation that is called is not a push on a full queue for one item. -/
def SparesEvent (s : System α) : Event α → Prop
  | .call _ operation _ => Spares s.queue operation
  | .wake _ _ => True

instance (s : System α) (event : Event α) : Decidable (SparesEvent s event) := by
  cases event <;> unfold SparesEvent <;> infer_instance

/-- The queue holds the items of the buffer after the completed operations, and no push waits. -/
structure Valid (max : Option ℕ) (s : System α) (b : Fifo α Thread) : Prop where
  holds : Holds max s.queue b
  replays : Replays max s.completed b
  suspended : ∀ p ∈ s.suspended, ∀ x, p.2 ≠ .push x

theorem valid_start (max : Option ℕ) : Valid max (start max : System α) .empty :=
  ⟨holds_start max, .nil, nofun⟩

theorem Valid.takeTurn (positive : ∀ m ∈ max, 1 ≤ m) (valid : Valid max s b) (spares : Spares s.queue operation)
    (thread : Thread) (now : ℕ) : ∃ s' b', takeTurn s thread operation now = some s' ∧ Valid max s' b' := by
  obtain ⟨queue', turned, b', took, holds, performs⟩ := turn_spec valid.holds positive spares thread now
  cases turned with
  | returns value =>
    refine ⟨{ s with queue := queue', completed := s.completed ++ [⟨thread, operation, value⟩] }, b', ?_, holds,
      .snoc valid.replays performs, valid.suspended⟩
    rw [ThreadQueues.takeTurn, took]
    rfl
  | suspends =>
    obtain ⟨rfl, waits⟩ := performs
    refine ⟨{ s with queue := queue', suspended := s.suspended ++ [(thread, operation)] }, b', ?_, holds,
      valid.replays, ?_⟩
    · rw [ThreadQueues.takeTurn, took]
      rfl
    · intro p member
      rcases List.mem_append.mp member with old | new
      · exact valid.suspended p old
      · rw [List.mem_singleton.mp new]
        exact waits

theorem Valid.step (positive : ∀ m ∈ max, 1 ≤ m) (valid : Valid max s b) {event : Event α} (spares : SparesEvent s event) :
    ∃ s' b', step s event = some s' ∧ Valid max s' b' := by
  cases event with
  | call thread operation now =>
    unfold ThreadQueues.step
    dsimp only
    split
    · exact ⟨s, b, rfl, valid⟩
    · exact valid.takeTurn positive spares thread now
  | wake thread now =>
    unfold ThreadQueues.step
    dsimp only
    split
    · rename_i p found
      have member := List.mem_of_find?_eq_some found
      have resumed : Valid max (s.resumed thread) b :=
        ⟨valid.holds, valid.replays, fun q kept => valid.suspended q (List.mem_filter.mp kept).1⟩
      apply resumed.takeTurn positive
      have waits := valid.suspended p member
      cases operation : p.2 with
      | push x => exact absurd operation (waits x)
      | _ => exact trivial
    · exact ⟨s, b, rfl, valid⟩

theorem valid_of_run (positive : ∀ m ∈ max, 1 ≤ m) {events : List (Event α)}
    (ran : run step SparesEvent (start max) events = some s) : ∃ b, Valid max s b := by
  apply run_invariant (fun s => ∃ b, Valid max s b) _ ⟨_, valid_start max⟩ ran
  rintro s event s' ⟨b, valid⟩ spares stepped
  obtain ⟨s'', b', stepped', valid'⟩ := valid.step positive spares
  cases stepped.symm.trans stepped'
  exact ⟨b', valid'⟩

def Signalled (mark : Thread → Notice) (notices : List Notice) : Prop :=
  ∀ (i : ℕ) (thread : Thread), notices[i]? = some (mark thread) → ∃ j, i < j ∧ notices[j]? = some (.signalled thread)

theorem Noted.signalled {mark : Thread → Notice} {notices : List Notice} (noted : Noted mark [] notices) :
    Signalled mark notices := by
  intro i thread held
  rcases noted i thread held with waits | signalled
  · cases waits
  · exact signalled

/-- Thread queues are bounded buffers under any interleaving without a push on a full queue for one item: the count is
the length of the list, what was completed is a history of the buffer, in which every item goes out at most once, no
operation signals an error, and no thread waits in vain. -/
theorem thread_queues (positive : ∀ m ∈ max, 1 ≤ m) {events : List (Event α)}
    (ran : run step SparesEvent (start max) events = some s) :
    ∃ nodes b, Listed s.queue nodes ∧ (∀ m ∈ max, s.queue.elementCount ≤ m) ∧
      Replays max s.completed b ∧ b.items = nodes.map Prod.snd ∧ (b.delivered.map Prod.fst).Nodup ∧
      (∀ event, SparesEvent s event → (step s event).isSome) ∧
      (nodes ≠ [] → Signalled .waitsToDequeue s.queue.notices) ∧
      ((∀ m ∈ max, nodes.length < m) → Signalled .waitsToQueue s.queue.notices) := by
  obtain ⟨b, valid⟩ := valid_of_run positive ran
  obtain ⟨nodes, listed, same⟩ := valid.holds.listed
  have informed := valid.holds.informed
  refine ⟨nodes, b, listed, valid.holds.bounded, valid.replays, same, ?_, ?_, ?_, ?_⟩
  · exact (List.nodup_append.mp valid.replays.sound.distinct).2.1
  · intro event spares
    obtain ⟨s', b', stepped, -⟩ := valid.step positive spares
    rw [stepped]
    rfl
  · intro present
    have none := informed.dequeuers (by rw [listed.count]; exact List.length_pos_of_ne_nil present)
    have noted := informed.dequeuersNoted
    rw [none] at noted
    exact noted.signalled
  · intro room
    have none := informed.queuers (by rwa [valid.holds.limit, listed.count])
    have noted := informed.queuersNoted
    rw [none] at noted
    exact noted.signalled

/-- Two threads at a queue for two items: one waits for an item, the other queues one and pushes two past it. -/
def mailbox : List (Event ℕ) :=
  [.call 0 .dequeue 0, .call 1 (.queue 7) 0, .call 1 (.push 8) 0, .call 1 (.push 9) 0, .wake 0 0]

theorem thread_queues_mailbox : ∃ s nodes b, run step SparesEvent (start (some 2)) mailbox = some s ∧
    s.completed.map Completed.value = [.item 7, .item 8, .item 9, .item 9] ∧
    Listed s.queue nodes ∧ s.queue.elementCount ≤ 2 ∧ Replays (some 2) s.completed b ∧ b.items = nodes.map Prod.snd ∧
    (nodes ≠ [] → Signalled .waitsToDequeue s.queue.notices) := by
  have values : (run step SparesEvent (start (some 2)) mailbox).map (fun s => s.completed.map Completed.value) =
      some [.item 7, .item 8, .item 9, .item 9] := by decide
  obtain ⟨s, ran, values⟩ := Option.map_eq_some_iff.mp values
  obtain ⟨nodes, b, listed, bounded, replays, same, -, -, informed, -⟩ := thread_queues (by decide) ran
  exact ⟨s, nodes, b, ran, values, listed, bounded 2 rfl, replays, same, informed⟩

theorem push_full_one_fails : ¬∀ (max : Option ℕ), (∀ m ∈ max, 1 ≤ m) → ∀ (events : List (Event ℕ)) (s : System ℕ),
    run step (fun _ _ => True) (start max) events = some s → ∀ event, (step s event).isSome := by
  intro never
  have signals := never (some 1) (by decide) [.call 0 (.queue 7) 0] _ rfl (.call 0 (.push 8) 0)
  revert signals
  decide

end MitScheme.Runtime.ThreadQueues
