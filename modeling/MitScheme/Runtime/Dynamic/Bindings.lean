import MitScheme.Library.Rerooting
import MitScheme.Runtime.Dynamic.Values
import MitScheme.Runtime.StateSpace.Effects

/-!
Programs that make parameters, bind them, set them, leave bindings and enter them again are in the
scopes that they would be in without any swapping.
-/

namespace MitScheme.Runtime.Dynamic

open Library Library.Rerooting StateSpaces Option

variable {V : Type} {store : Store Thunk} {bindings : List ℕ} {temp : ℕ → List ℕ} {s s' : State V} {a : Scopes V}
  {fresh : ℕ → List ℕ} {space q t : ℕ} {before after thunk : Thunk}

def Thunk.key : Thunk → Option ℕ
  | .swap activation => some activation
  | .program _ => none

/-- The `parameterize*` that made a point. -/
def key (store : Store Thunk) (n : ℕ) : Option ℕ := (store.origin n).bind fun o => o.before.key

def env (a : Scopes V) (fresh : ℕ → List ℕ) (n : ℕ) : List ℕ := ((a.scopes n).getD []).flatMap fresh

inductive Paired : Thunk → Thunk → Prop where
  | swap (activation : ℕ) : Paired (.swap activation) (.swap activation)
  | program (enter leave : ℕ) : Paired (.program enter) (.program leave)

def Programs (before after : Thunk) : Prop := ∃ enter leave, before = .program enter ∧ after = .program leave

theorem Paired.key (paired : Paired before after) : after.key = before.key := by
  cases paired <;> rfl

/-- The bindings are those of the scope of the nearest point, and every `temp` has those on the other side of its point.
-/
structure Settled (store : Store Thunk) (bindings : List ℕ) (temp : ℕ → List ℕ) (a : Scopes V) (fresh : ℕ → List ℕ) :
    Prop where
  tree : Tree store
  isSpace : globalSpace < store.spaces
  swapped : Swapped store.nearer (parent store) (key store) (env a fresh) (store.nearestPoint globalSpace) bindings temp
  here : a.scopes (store.nearestPoint globalSpace) = some a.scope
  visited : ∀ n, (a.scopes n).isSome ↔ n < store.size ∧ store.spaceOf n = globalSpace
  active : ∀ n scope, a.scopes n = some scope → ∀ t ∈ scope, t < a.activations
  keys : ∀ n t, key store n = some t → t < a.activations ∧ store.spaceOf n = globalSpace
  paired : ∀ n o, store.origin n = some o → Paired o.before o.after
  adjacent : ∀ n p, parent store n = some p → Adjacent store.nearer p n

theorem Settled.current (settled : Settled s.wind.store s.bindings s.temp a fresh) (agrees : Agrees s a fresh) :
    Current s a fresh := by
  refine ⟨?_, ?_⟩
  · have value := settled.swapped.value
    rwa [env, settled.here] at value
  · rw [← agrees.activations]
    exact settled.active _ _ settled.here

theorem Settled.space_of_parent (settled : Settled store bindings temp a fresh) {n p : ℕ} (isParent : parent store n = some p) :
    store.spaceOf p = store.spaceOf n := by
  rcases settled.adjacent n p isParent with near | near
  · exact (settled.tree.near p n near).2.2.1.symm
  · exact (settled.tree.near n p near).2.2.1

theorem arrive_known {point : ℕ} {scope : List ℕ} (idle : a.entering = none) (known : a.scopes point = some scope) :
    a.arrive point = { a with scope := scope } := by
  unfold Scopes.arrive
  split
  · rename_i entering
    exact nomatch idle.symm.trans entering
  · rename_i found
    rw [some.inj (found.symm.trans known)]
  · rename_i unknown
    exact nomatch unknown.symm.trans known

theorem parent_moveRoot {r : ℕ} (different : r ≠ q) : parent (store.moveRoot space r q) = parent store := by
  funext n
  rw [parent, parent, (kept_moveRoot different n).2]

theorem key_moveRoot {r : ℕ} (different : r ≠ q) : key (store.moveRoot space r q) = key store := by
  funext n
  rw [key, key, (kept_moveRoot different n).2]

section
variable (settled : Settled store bindings temp a fresh)
include settled

theorem Settled.crossed {r : ℕ} (near : store.nearer q = some r)
    (field : (store.points q).fromNearer = .thunk thunk) :
    parent store q = some r ∧ thunk.key = key store q ∨ parent store r = some q ∧ thunk.key = key store r := by
  obtain ⟨-, -, -, before, after, ⟨made, -, field'⟩ | ⟨made, -, field'⟩⟩ := settled.tree.near q r near
  · obtain rfl := Field.thunk.inj (field.symm.trans field')
    left
    rw [parent, key, made]
    exact ⟨rfl, rfl⟩
  · obtain rfl := Field.thunk.inj (field.symm.trans field')
    right
    rw [parent, key, made]
    exact ⟨rfl, (settled.paired r _ made).key⟩

theorem Settled.acyclic {n p : ℕ} (isParent : parent store n = some p) : parent store p ≠ some n := by
  intro back
  obtain ⟨o, made, rfl⟩ := map_eq_some_iff.mp isParent
  obtain ⟨o', made', rfl⟩ := map_eq_some_iff.mp back
  exact lt_asymm (settled.tree.origins _ o made).1 (settled.tree.origins _ o' made').1

theorem Settled.moved (idle : a.entering = none) (isSpace : space < store.spaces)
    (near : store.nearer q = some (store.nearestPoint space)) (field : (store.points q).fromNearer = .thunk thunk) :
    Settled (store.moveRoot space (store.nearestPoint space) q) (exchange thunk.key bindings temp).1
      (exchange thunk.key bindings temp).2
      (a.arrive ((store.moveRoot space (store.nearestPoint space) q).nearestPoint globalSpace)) fresh := by
  have none := settled.tree.root_none isSpace
  have different := ne_of_near near none
  obtain ⟨tree, extend⟩ := settled.tree.moveRoot isSpace near
  obtain ⟨insideQ, -, sameSpace, -⟩ := settled.tree.near q _ near
  have atRoot := (settled.tree.roots space isSpace).2.1
  rw [atRoot] at sameSpace
  have kept := fun n => (@kept_moveRoot Thunk store q _ space different n).1
  have crossed := settled.crossed near field
  have adjacent : ∀ n p, parent store n = some p →
      Adjacent (store.moveRoot space (store.nearestPoint space) q).nearer p n := fun n p isParent =>
    extend.adjacent p n (settled.adjacent n p isParent)
  have nearest : (store.moveRoot space (store.nearestPoint space) q).nearestPoint globalSpace =
      if globalSpace = space then q else store.nearestPoint globalSpace := rfl
  have paired : ∀ n o, (store.moveRoot space (store.nearestPoint space) q).origin n = some o → Paired o.before o.after := by
    intro n o made
    rw [(kept_moveRoot different n).2] at made
    exact settled.paired n o made
  rw [nearest]
  by_cases isGlobal : globalSpace = space
  · subst isGlobal
    rw [if_pos rfl]
    obtain ⟨scope, known⟩ := isSome_iff_exists.mp ((settled.visited q).mpr ⟨insideQ, sameSpace.symm⟩)
    rw [arrive_known idle known]
    refine ⟨tree, settled.isSpace, ?_, ?_, ?_, settled.active, ?_, paired, ?_⟩
    · rw [nearer_moveRoot different, parent_moveRoot different, key_moveRoot different, nearest]
      rcases crossed with ⟨child, key⟩ | ⟨child, key⟩
      · rw [key]
        exact settled.swapped.cross near none child (.inl ⟨rfl, rfl⟩) (settled.acyclic child)
      · rw [key]
        exact settled.swapped.cross near none child (.inr ⟨rfl, rfl⟩) (settled.acyclic child)
    · exact known
    · intro n
      rw [kept n]
      exact settled.visited n
    · intro n t bound
      rw [key_moveRoot different] at bound
      rw [kept n]
      exact settled.keys n t bound
    · rw [parent_moveRoot different]
      exact adjacent
  · rw [if_neg isGlobal, arrive_known idle settled.here]
    have unbound : thunk.key = Option.none := by
      by_contra bound
      obtain ⟨t, bound⟩ := ne_none_iff_exists'.mp bound
      rcases crossed with ⟨-, key⟩ | ⟨-, key⟩
      · exact isGlobal ((settled.keys q t (key.symm.trans bound)).2.symm.trans sameSpace.symm)
      · exact isGlobal ((settled.keys _ t (key.symm.trans bound)).2.symm.trans atRoot)
    rw [unbound]
    refine ⟨tree, settled.isSpace, ?_, ?_, ?_, settled.active, ?_, paired, ?_⟩
    · rw [nearer_moveRoot different, parent_moveRoot different, key_moveRoot different, nearest, if_neg isGlobal]
      apply settled.swapped.move_elsewhere
      intro n p t isParent bound
      have there : store.spaceOf p = globalSpace := (settled.space_of_parent isParent).trans (settled.keys n t bound).2
      refine ⟨?_, ?_⟩
      · rintro rfl
        exact isGlobal (there.symm.trans sameSpace.symm)
      · rintro rfl
        exact isGlobal (there.symm.trans atRoot)
    · rw [nearest, if_neg isGlobal]
      exact settled.here
    · intro n
      rw [kept n]
      exact settled.visited n
    · intro n t bound
      rw [key_moveRoot different] at bound
      rw [kept n]
      exact settled.keys n t bound
    · rw [parent_moveRoot different]
      exact adjacent

end

theorem origin_addPoint {r : ℕ} (inside : r < store.size) (n : ℕ) : (store.addPoint space r before after).origin n =
    if n = store.size then some ⟨r, before, after⟩ else store.origin n := by
  unfold Store.origin
  rw [points_addPoint inside]
  by_cases isRoot : n = r
  · subst isRoot
    rw [if_pos rfl, if_neg (inside.ne)]
  · rw [if_neg isRoot]
    split <;> rfl

theorem spaceOf_addPoint {r : ℕ} (inside : r < store.size) (n : ℕ) :
    (store.addPoint space r before after).spaceOf n = if n = store.size then space else store.spaceOf n := by
  unfold Store.spaceOf
  rw [points_addPoint inside]
  by_cases isRoot : n = r
  · subst isRoot
    rw [if_pos rfl, if_neg (inside.ne)]
  · rw [if_neg isRoot]
    split <;> rfl

structure Grown (store : Store Thunk) (space : ℕ) (before after : Thunk) (store' : Store Thunk) : Prop where
  newParent : parent store' store.size = some (store.nearestPoint space)
  oldParent : ∀ n, n ≠ store.size → parent store' n = parent store n
  newKey : key store' store.size = before.key
  oldKey : ∀ n, n ≠ store.size → key store' n = key store n
  newSpace : store'.spaceOf store.size = space
  oldSpace : ∀ n, n ≠ store.size → store'.spaceOf n = store.spaceOf n
  size : store'.size = store.size + 1
  paired : ∀ n o, store'.origin n = some o → Paired o.before o.after
  adjacent : ∀ n p, parent store' n = some p → Adjacent store'.nearer p n

section
variable (settled : Settled store bindings temp a fresh)
include settled

theorem Settled.grown (isSpace : space < store.spaces) (paired : Paired before after) :
    Grown store space before after (store.addPoint space (store.nearestPoint space) before after) := by
  have inside := (settled.tree.roots space isSpace).1
  have origins := @origin_addPoint store space before after _ inside
  have spaces := @spaceOf_addPoint store space before after _ inside
  have extend := (settled.tree.addPoint isSpace before after).2
  have newParent : parent (store.addPoint space (store.nearestPoint space) before after) store.size =
      some (store.nearestPoint space) := by
    rw [parent, origins, if_pos rfl]
    rfl
  have oldParent : ∀ n, n ≠ store.size →
      parent (store.addPoint space (store.nearestPoint space) before after) n = parent store n := by
    intro n isOld
    rw [parent, origins, if_neg isOld]
    rfl
  refine ⟨newParent, oldParent, ?_, ?_, ?_, ?_, rfl, ?_, ?_⟩
  · rw [key, origins, if_pos rfl]
    rfl
  · intro n isOld
    rw [key, origins, if_neg isOld]
    rfl
  · rw [spaces, if_pos rfl]
  · intro n isOld
    rw [spaces, if_neg isOld]
  · intro n o made
    rw [origins] at made
    split at made
    · obtain rfl := some.inj made
      exact paired
    · exact settled.paired n o made
  · intro n p isParent
    by_cases isNew : n = store.size
    · subst isNew
      obtain rfl := some.inj (newParent.symm.trans isParent)
      left
      rw [nearer_addPoint settled.tree inside]
      exact grow_old
    · rw [oldParent n isNew] at isParent
      exact extend.adjacent p n (settled.adjacent n p isParent)

theorem Settled.childless (n : ℕ) : parent store n ≠ some store.size := by
  intro isParent
  obtain ⟨o, made, same⟩ := map_eq_some_iff.mp isParent
  have ordered := settled.tree.origins n o made
  omega

theorem Settled.unvisited : a.scopes store.size = none := by
  by_contra visited
  have known := (settled.visited store.size).mp (isSome_iff_ne_none.mpr visited)
  exact lt_irrefl _ known.1

theorem Settled.added (paired : Paired before after) {scope : List ℕ}
    (active : ∀ t ∈ scope, t < a.activations) (unused : ∀ n t, before.key = some t → key store n ≠ some t)
    (waits : ∀ t, before.key = some t → t < a.activations ∧ temp t = scope.flatMap fresh)
    (plain : before.key = none → scope = a.scope) {a' : Scopes V} (activations : a'.activations = a.activations)
    (arrived : a'.scope = scope) (scopes : ∀ n, a'.scopes n = if n = store.size then some scope else a.scopes n) :
    Settled (store.addPoint globalSpace (store.nearestPoint globalSpace) before after) (exchange before.key bindings temp).1
      (exchange before.key bindings temp).2 a' fresh := by
  have inside := (settled.tree.roots globalSpace settled.isSpace).1
  have different : store.size ≠ store.nearestPoint globalSpace := (inside.ne).symm
  have grown := settled.grown settled.isSpace paired
  have nearest : (store.addPoint globalSpace (store.nearestPoint globalSpace) before after).nearestPoint globalSpace =
      store.size := rfl
  have envNew : env a' fresh store.size = scope.flatMap fresh := by
    rw [env, scopes, if_pos rfl]
    rfl
  have oldEnv : ∀ n, n ≠ store.size → env a' fresh n = env a fresh n := by
    intro n isOld
    rw [env, scopes, if_neg isOld]
    rfl
  refine ⟨(settled.tree.addPoint settled.isSpace before after).1, settled.isSpace, ?_, ?_, ?_, ?_, ?_, grown.paired,
    grown.adjacent⟩
  · rw [nearer_addPoint settled.tree inside, ← grown.newKey]
    refine settled.swapped.grow (settled.tree.root_none settled.isSpace) different settled.childless grown.newParent
      grown.oldParent grown.oldKey oldEnv ?_ ?_ ?_
    · intro n t bound
      exact unused n t (grown.newKey ▸ bound)
    · intro t bound
      rw [envNew]
      exact (waits t (grown.newKey ▸ bound)).2
    · intro unbound
      rw [envNew, plain (grown.newKey ▸ unbound), env, settled.here]
      rfl
  · rw [nearest, scopes, if_pos rfl, arrived]
  · intro n
    rw [scopes, grown.size]
    by_cases isNew : n = store.size
    · rw [isNew, grown.newSpace]
      simp
    · rw [if_neg isNew, grown.oldSpace n isNew, settled.visited]
      have lt : n < store.size + 1 ↔ n < store.size := by omega
      rw [lt]
  · intro n scope' known
    rw [scopes] at known
    rw [activations]
    split at known
    · obtain rfl := some.inj known
      exact active
    · exact settled.active n scope' known
  · intro n t bound
    rw [activations]
    by_cases isNew : n = store.size
    · subst isNew
      exact ⟨(waits t (grown.newKey ▸ bound)).1, grown.newSpace⟩
    · rw [grown.oldKey n isNew] at bound
      rw [grown.oldSpace n isNew]
      exact settled.keys n t bound

theorem Settled.added_program (idle : a.entering = none)
    (isSpace : space < store.spaces) (programs : Programs before after) :
    Settled (store.addPoint space (store.nearestPoint space) before after) bindings temp
      (a.arrive ((store.addPoint space (store.nearestPoint space) before after).nearestPoint globalSpace)) fresh := by
  obtain ⟨enter, leave, rfl, rfl⟩ := programs
  have paired : Paired (.program enter) (.program leave) := .program enter leave
  have nearest : (store.addPoint space (store.nearestPoint space) (.program enter) (.program leave)).nearestPoint globalSpace =
      if globalSpace = space then store.size else store.nearestPoint globalSpace := rfl
  rw [nearest]
  by_cases isGlobal : globalSpace = space
  · subst isGlobal
    rw [if_pos rfl]
    have arrives : a.arrive store.size = { a with scopes := fun n => if n = store.size then some a.scope else a.scopes n } := by
      unfold Scopes.arrive
      split
      · rename_i entering
        exact nomatch idle.symm.trans entering
      · rename_i known
        exact nomatch settled.unvisited.symm.trans known
      · rfl
    rw [arrives]
    exact settled.added paired (settled.active _ _ settled.here) nofun nofun (fun _ => rfl) rfl rfl fun _ => rfl
  · rw [if_neg isGlobal, arrive_known idle settled.here]
    obtain ⟨inside, atRoot, -⟩ := settled.tree.roots space isSpace
    have grown := settled.grown isSpace paired
    refine ⟨(settled.tree.addPoint isSpace _ _).1, settled.isSpace, ?_, ?_, ?_, settled.active, ?_, grown.paired,
      grown.adjacent⟩
    · rw [nearer_addPoint settled.tree inside, nearest, if_neg isGlobal]
      refine settled.swapped.grow_elsewhere ?_ grown.newParent grown.oldParent grown.newKey grown.oldKey ?_
      · rintro n p t isParent bound rfl
        have there := (settled.space_of_parent isParent).trans (settled.keys n t bound).2
        exact isGlobal (there.symm.trans atRoot)
      · have unknown : a.scopes (store.nearestPoint space) = none := by
          by_contra known
          have there := ((settled.visited _).mp (isSome_iff_ne_none.mpr known)).2
          exact isGlobal (there.symm.trans atRoot)
        rw [env, env, settled.unvisited, unknown]
    · rw [nearest, if_neg isGlobal]
      exact settled.here
    · intro n
      rw [grown.size]
      by_cases isNew : n = store.size
      · subst isNew
        simp [settled.unvisited, grown.newSpace, Ne.symm isGlobal]
      · rw [grown.oldSpace n isNew, settled.visited]
        have lt : n < store.size + 1 ↔ n < store.size := by omega
        rw [lt]
    · intro n t bound
      by_cases isNew : n = store.size
      · subst isNew
        exact nomatch grown.newKey.symm.trans bound
      · rw [grown.oldKey n isNew] at bound
        rw [grown.oldSpace n isNew]
        exact settled.keys n t bound

theorem Settled.made_space (idle : a.entering = none) :
    Settled store.makeStateSpace bindings temp (a.arrive (store.makeStateSpace.nearestPoint globalSpace)) fresh := by
  obtain ⟨tree, extend⟩ := settled.tree.makeStateSpace
  have nearest : store.makeStateSpace.nearestPoint globalSpace = store.nearestPoint globalSpace :=
    if_neg (settled.isSpace.ne)
  have fresh' : store.origin store.size = none := by
    by_contra made
    obtain ⟨o, made⟩ := ne_none_iff_exists'.mp made
    exact lt_irrefl _ (settled.tree.origins _ o made).2
  have origins : store.makeStateSpace.origin = store.origin := by
    funext n
    by_cases isNew : n = store.size
    · rw [isNew, fresh']
      exact congrArg StatePoint.origin (if_pos rfl)
    · exact congrArg StatePoint.origin (if_neg isNew)
  have spaces : ∀ n, store.makeStateSpace.spaceOf n = if n = store.size then store.spaces else store.spaceOf n := by
    intro n
    by_cases isNew : n = store.size
    · rw [if_pos isNew]
      exact congrArg StatePoint.space (if_pos isNew)
    · rw [if_neg isNew]
      exact congrArg StatePoint.space (if_neg isNew)
  have parents : parent store.makeStateSpace = parent store := by
    funext n
    rw [parent, origins]
    rfl
  have keys : key store.makeStateSpace = key store := by
    funext n
    rw [key, origins]
    rfl
  rw [nearest, arrive_known idle settled.here]
  refine ⟨tree, Nat.lt_succ_of_lt settled.isSpace, ?_, ?_, ?_, settled.active, ?_, ?_, ?_⟩
  · rw [nearer_makeStateSpace settled.tree, parents, keys, nearest]
    exact settled.swapped
  · rw [nearest]
    exact settled.here
  · intro n
    rw [spaces]
    have size : store.makeStateSpace.size = store.size + 1 := rfl
    rw [size]
    by_cases isNew : n = store.size
    · have other : store.spaces ≠ globalSpace := (settled.isSpace.ne).symm
      simp [isNew, settled.unvisited, other]
    · rw [if_neg isNew, settled.visited]
      have lt : n < store.size + 1 ↔ n < store.size := by omega
      rw [lt]
  · intro n t bound
    rw [keys] at bound
    have known := settled.keys n t bound
    rw [spaces]
    split
    · rename_i isNew
      rw [isNew, key, fresh'] at bound
      cases bound
    · exact known
  · rw [origins]
    exact settled.paired
  · intro n p isParent
    rw [parents] at isParent
    exact extend.adjacent p n (settled.adjacent n p isParent)

end

end MitScheme.Runtime.Dynamic
