import MitScheme.Runtime.StateSpace.Transitions

/-!
A step makes a space, adds a point, moves one root, or leaves the store as it is, and it calls at
most one thunk. The thunks of a new point come from a frame that waits to install it.
-/

namespace MitScheme.Runtime.StateSpaces

open Library Library.Rerooting List

variable {θ : Type} {s s' : System θ} {store : Store θ} {p requested : ℕ} {chain : List ℕ} {stack : List (Frame θ)}
  {P : θ → θ → Prop}

def Quiet (entries : List (Entry θ)) : Prop := ∀ thunk, .ran thunk ∉ entries

inductive Effect (P : θ → θ → Prop) (store : Store θ) : Store θ → List (Entry θ) → Prop where
  | still {entries : List (Entry θ)} (quiet : Quiet entries) : Effect P store store entries
  | space : Effect P store store.makeStateSpace []
  | added {space : ℕ} {before after : θ} {entries : List (Entry θ)} (isSpace : space < store.spaces) (allowed : P before after)
      (quiet : Quiet entries) : Effect P store (store.addPoint space (store.nearestPoint space) before after) entries
  | moved {space q : ℕ} {thunk : θ} (isSpace : space < store.spaces) (near : store.nearer q = some (store.nearestPoint space))
      (field : (store.points q).fromNearer = .thunk thunk) :
      Effect P store (store.moveRoot space (store.nearestPoint space) q) [.ran thunk]

def Installs (P : θ → θ → Prop) (stack : List (Frame θ)) : Prop := ∀ f ∈ stack, ∀ space oldRoot before after,
  f = .before space oldRoot before after ∨ f = .install space oldRoot before after → P before after

theorem Installs.tail {f : Frame θ} (installs : Installs P (f :: stack)) : Installs P stack :=
  fun f member => installs f (mem_cons_of_mem _ member)

theorem Installs.cons {f : Frame θ} (installs : Installs P stack)
    (head : ∀ space oldRoot before after, f = .before space oldRoot before after ∨ f = .install space oldRoot before after →
      P before after) : Installs P (f :: stack) :=
  forall_mem_cons.mpr ⟨head, installs⟩

structure Did (P : θ → θ → Prop) (s s' : System θ) (entries : List (Entry θ)) : Prop where
  effect : Effect P s.store s'.store entries
  log : s'.log = s.log ++ entries
  installs : Installs P s'.stack

theorem finish_effect (valid : Valid s stack) (installs : Installs P stack)
    (reached : ∀ space oldRoot before after rest, stack = .install space oldRoot before after :: rest →
      s.store.nearestPoint space = oldRoot)
    (finished : finish s stack = some s') : (∀ entries, Quiet entries → Effect P s.store s'.store entries) ∧
      s'.log = s.log ∧ Installs P s'.stack ∧ s'.captured = s.captured := by
  unfold finish at finished
  split at finished
  · obtain rfl := Option.some.inj finished
    exact ⟨fun _ quiet => .still quiet, rfl, installs.tail, rfl⟩
  · rename_i space oldRoot before after rest
    obtain rfl := Option.some.inj finished
    obtain ⟨inside, here⟩ := valid.stack.frames _ mem_cons_self
    have isSpace : space < s.store.spaces := here ▸ valid.tree.within oldRoot inside
    obtain rfl := reached space oldRoot before after rest rfl
    have allowed : P before after := installs _ mem_cons_self _ _ _ _ (.inr rfl)
    refine ⟨fun _ quiet => .added isSpace allowed quiet, rfl, ?_, rfl⟩
    apply installs.tail.cons
    rintro _ _ _ _ (same | same) <;> exact nomatch same
  · exact nomatch finished

theorem traverseChain_did (valid : Valid s stack) (installs : Installs P stack) (none : s.store.nearer p = none)
    (way : Way s.store p chain requested)
    (awaits : Awaits stack requested) (traversed : traverseChain s p chain requested stack = some s') :
    ∃ entries, Did P s s' entries ∧ s'.captured = s.captured := by
  have inside := way.inside p mem_cons_self
  have isRoot := valid.tree.eq_nearest inside none
  cases chain with
  | nil =>
    obtain rfl : p = requested := Option.some.inj way.last
    rw [traverseChain_nil valid.tree none inside] at traversed
    have quiet : Quiet [(.translated p p : Entry θ)] := by
      intro thunk member
      exact nomatch mem_singleton.mp member
    have valid' : Valid { s with log := s.log ++ [.translated p p] } stack := by
      refine valid.extends valid.tree (.refl _) valid.stack ?_
      intro requested nearest member
      obtain ⟨rfl, rfl⟩ := Entry.translated.inj (mem_singleton.mp member)
      rfl
    obtain ⟨effect, log, installs', captured⟩ := finish_effect valid' installs (by
      rintro space oldRoot before after rest rfl
      obtain rfl := awaits space oldRoot before after rest rfl
      obtain ⟨-, rfl⟩ := valid.stack.frames _ mem_cons_self
      exact isRoot) traversed
    exact ⟨_, ⟨effect _ quiet, log, installs'⟩, captured⟩
  | cons q chain =>
    obtain ⟨near, thunk, field, moved⟩ := @traverseChain_cons θ s p q requested chain stack valid.tree none way
    obtain rfl := Option.some.inj (moved.symm.trans traversed)
    have isSpace := valid.tree.within p inside
    have effect := @Effect.moved θ P s.store _ q thunk isSpace (near.trans (congrArg some isRoot.symm)) field
    rw [isRoot] at effect
    refine ⟨_, ⟨effect, rfl, installs.cons ?_⟩, rfl⟩
    rintro _ _ _ _ (same | same) <;> exact nomatch same

theorem findNearestThen_did (valid : Valid s stack) (installs : Installs P stack) (way : Way s.store p chain requested)
    (awaits : Awaits stack requested) (found : findNearestThen s p chain requested stack = some s') :
    ∃ entries, Did P s s' entries ∧ s'.captured = s.captured := by
  have inside := way.inside p mem_cons_self
  obtain ⟨path, climb, finds⟩ := findNearest_spec valid.tree inside
  rw [findNearestThen, finds chain] at found
  have none := valid.tree.root_none (valid.tree.within p inside)
  exact traverseChain_did valid installs none (way.climb valid.tree climb) awaits found

theorem findRoot_did (valid : Valid s stack) (installs : Installs P stack) (way : Way s.store p chain requested)
    (awaits : Awaits stack requested) (found : findRoot s requested stack (p :: chain) = some s') :
    ∃ entries, Did P s s' entries ∧ s'.captured = s.captured := by
  obtain ⟨p, chain, way, ⟨near, goes⟩ | goes⟩ := findRoot_cases valid way
  · exact traverseChain_did valid installs near way awaits (goes ▸ found)
  · exact findNearestThen_did valid installs way awaits (goes ▸ found)

theorem entered_did {space oldRoot : ℕ} {before after : θ} {rest : List (Frame θ)}
    (valid : Valid s (.before space oldRoot before after :: rest))
    (installs : Installs P (.before space oldRoot before after :: rest))
    (stepped : entered s space oldRoot before after rest = some s') :
    ∃ entries, Did P s s' entries ∧ s'.captured = s.captured := by
  obtain ⟨inside, here⟩ := valid.stack.frames _ mem_cons_self
  have installing : Valid s (.install space oldRoot before after :: rest) := valid.installing
  have installs' : Installs P (.install space oldRoot before after :: rest) := by
    apply installs.tail.cons
    rintro _ _ _ _ (same | same)
    · exact nomatch same
    · obtain ⟨rfl, rfl, rfl, rfl⟩ := Frame.install.inj same
      exact installs _ mem_cons_self _ _ _ _ (.inl rfl)
  unfold entered at stepped
  split at stepped
  · rename_i same
    obtain ⟨effect, log, kept, captured⟩ := finish_effect installing installs' (by
      rintro space' oldRoot' before' after' rest' equal
      obtain ⟨rfl, rfl, -, -⟩ := Frame.install.inj (cons.inj equal).1
      exact same.symm) stepped
    exact ⟨[], ⟨effect [] nofun, log.trans (append_nil _).symm, kept⟩, captured⟩
  · refine findNearestThen_did installing installs' (way_self inside) ?_ stepped
    rintro space' oldRoot' before' after' rest' equal
    exact (Frame.install.inj (cons.inj equal).1).2.1.symm

theorem step_did (valid : Valid s s.stack) (installs : Installs P s.stack) (captured : ∀ stack ∈ s.captured, Installs P stack)
    {event : Event θ} (stepped : step s event = some s') (calls : ∀ space before after, event ≠ .execute space before after) :
    ∃ entries, Did P s s' entries ∧ ∀ stack ∈ s'.captured, Installs P stack := by
  have same : (∃ entries, Did P s s' entries ∧ s'.captured = s.captured) →
      ∃ entries, Did P s s' entries ∧ ∀ stack ∈ s'.captured, Installs P stack := by
    rintro ⟨entries, did, kept⟩
    exact ⟨entries, did, kept ▸ captured⟩
  cases event with
  | makeSpace =>
    obtain rfl := Option.some.inj stepped
    exact ⟨[], ⟨.space, (append_nil _).symm, installs⟩, captured⟩
  | execute space before after => exact absurd rfl (calls space before after)
  | translate point =>
    obtain ⟨inside, translated⟩ := Option.ite_none_right_eq_some.mp stepped
    apply same
    refine findNearestThen_did valid.calling ?_ (way_self inside) (fun _ _ _ _ _ same => by cases same) translated
    apply installs.cons
    rintro _ _ _ _ (same | same) <;> cases same
  | returns =>
    rw [step] at stepped
    apply same
    split at stepped
    · rename_i space oldRoot before after rest top
      exact entered_did (top ▸ valid) (top ▸ installs) stepped
    · rename_i oldRoot rest top
      rw [top] at installs valid
      refine findNearestThen_did valid.tail installs.tail (way_self (valid.stack.frames _ mem_cons_self)) ?_ stepped
      rintro space' oldRoot' before' after' rest' rfl
      cases (isChain_cons_cons.mp valid.stack.follows).1
    · rename_i chain requested rest top
      rw [top] at installs valid
      obtain ⟨point, chain, rfl, way⟩ := valid.stack.frames _ mem_cons_self
      refine findRoot_did valid.tail installs.tail way ?_ stepped
      rintro space' oldRoot' before' after' rest' rfl
      exact (isChain_cons_cons.mp valid.stack.follows).1
    · cases stepped
  | capture =>
    obtain rfl := Option.some.inj stepped
    refine ⟨[], ⟨.still (fun _ member => absurd member not_mem_nil), (append_nil _).symm, installs⟩, ?_⟩
    intro stack member
    rcases mem_append.mp member with member | member
    · exact captured stack member
    · exact mem_singleton.mp member ▸ installs
  | escape stack =>
    obtain ⟨stack, taken, rfl⟩ := Option.map_eq_some_iff.mp stepped
    exact ⟨[], ⟨.still (fun _ member => absurd member not_mem_nil), (append_nil _).symm, captured stack (mem_of_getElem? taken)⟩, captured⟩

end MitScheme.Runtime.StateSpaces
