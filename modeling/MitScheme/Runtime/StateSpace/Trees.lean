import MitScheme.Library.Rerooting
import MitScheme.Runtime.StateSpace.Points

/-!
Every state space is a tree that points at its nearest point, and the fields of its links are the
thunks of the points that they lead out of or into.
-/

namespace MitScheme.Runtime.StateSpaces

open Library.Rerooting Nat Store

variable {θ : Type} {store store' : Store θ} {p q r space : ℕ} {before after : θ}

namespace Store

def spaceOf (store : Store θ) (point : ℕ) : ℕ := (store.points point).space

def origin (store : Store θ) (point : ℕ) : Option (Origin θ) := (store.points point).origin

end Store

/-- The thunks of a link are those of the point that is farther from where the space began. -/
def Link (store : Store θ) (p q : ℕ) : Prop := ∃ before after : θ,
  (store.origin p = some ⟨q, before, after⟩ ∧ (store.points p).toNearer = .thunk after ∧
    (store.points p).fromNearer = .thunk before) ∨
  store.origin q = some ⟨p, before, after⟩ ∧ (store.points p).toNearer = .thunk before ∧
    (store.points p).fromNearer = .thunk after

structure Tree (store : Store θ) : Prop where
  leads : ∀ p < store.size, Leads store.nearer p (store.nearestPoint (store.spaceOf p))
  within : ∀ p < store.size, store.spaceOf p < store.spaces
  roots : ∀ s < store.spaces, store.nearestPoint s < store.size ∧ store.spaceOf (store.nearestPoint s) = s ∧
    (store.points (store.nearestPoint s)).toNearer = .space s
  near : ∀ p q, store.nearer p = some q →
    p < store.size ∧ q < store.size ∧ store.spaceOf q = store.spaceOf p ∧ Link store p q
  origins : ∀ p o, store.origin p = some o → o.parent < p ∧ p < store.size

theorem tree_empty : Tree (emptyStore : Store θ) := ⟨nofun, nofun, nofun, nofun, nofun⟩

theorem Tree.root_none (tree : Tree store) {s : ℕ} (isSpace : s < store.spaces) : store.nearer (store.nearestPoint s) = none := by
  obtain ⟨inside, here, -⟩ := tree.roots s isSpace
  have leads := tree.leads _ inside
  rw [here] at leads
  exact leads.is_root

theorem Tree.eq_nearest (tree : Tree store) (inside : p < store.size) (none : store.nearer p = none) :
    store.nearestPoint (store.spaceOf p) = p :=
  (tree.leads p inside).of_root none

theorem Tree.one_way (tree : Tree store) (x y : ℕ) (near : store.nearer x = some y) : store.nearer y ≠ some x :=
  (tree.leads x (tree.near x y near).1).one_way near

structure Extends (store store' : Store θ) : Prop where
  size : store.size ≤ store'.size
  spaces : store.spaces ≤ store'.spaces
  spaceOf : ∀ p < store.size, store'.spaceOf p = store.spaceOf p
  origin : ∀ p < store.size, store'.origin p = store.origin p
  adjacent : ∀ p q, Adjacent store.nearer p q → Adjacent store'.nearer p q

theorem Extends.refl (store : Store θ) : Extends store store :=
  ⟨le_refl _, le_refl _, fun _ _ => rfl, fun _ _ => rfl, fun _ _ adjacent => adjacent⟩

theorem points_moveRoot (different : r ≠ q) (a : ℕ) :
    (store.moveRoot space r q).points a =
      if a = q then { store.points q with nearerPoint := none, toNearer := .space space, fromNearer := .nothing }
      else if a = r then { store.points r with
        nearerPoint := some q, toNearer := (store.points q).fromNearer, fromNearer := (store.points q).toNearer }
      else store.points a := by
  simp [moveRoot, setNearestPoint, setPoint, if_neg different.symm]

theorem nearer_moveRoot (different : r ≠ q) : (store.moveRoot space r q).nearer = move store.nearer r q := by
  funext a
  unfold nearer move
  rw [points_moveRoot different]
  split
  · rfl
  · split <;> rfl

theorem kept_moveRoot (different : r ≠ q) (a : ℕ) : (store.moveRoot space r q).spaceOf a = store.spaceOf a ∧
    (store.moveRoot space r q).origin a = store.origin a := by
  unfold spaceOf origin
  rw [points_moveRoot different]
  split
  · rename_i same
    exact ⟨same ▸ rfl, same ▸ rfl⟩
  · split
    · rename_i same
      exact ⟨same ▸ rfl, same ▸ rfl⟩
    · exact ⟨rfl, rfl⟩

theorem link_moveRoot (link : Link store q r) (different : r ≠ q) : Link (store.moveRoot space r q) r q := by
  obtain ⟨before, after, fields⟩ := link
  have atRoot : ((store.moveRoot space r q).points r).toNearer = (store.points q).fromNearer ∧
      ((store.moveRoot space r q).points r).fromNearer = (store.points q).toNearer := by
    rw [points_moveRoot different, if_neg different, if_pos rfl]
    exact ⟨rfl, rfl⟩
  refine ⟨before, after, ?_⟩
  rw [atRoot.1, atRoot.2, (kept_moveRoot different r).2, (kept_moveRoot different q).2]
  rcases fields with ⟨made, toNearer, fromNearer⟩ | ⟨made, toNearer, fromNearer⟩
  · exact .inr ⟨made, fromNearer, toNearer⟩
  · exact .inl ⟨made, fromNearer, toNearer⟩

theorem Tree.moveRoot (tree : Tree store) (isSpace : space < store.spaces) (near : store.nearer q = some (store.nearestPoint space)) :
    Tree (store.moveRoot space (store.nearestPoint space) q) ∧
      Extends store (store.moveRoot space (store.nearestPoint space) q) := by
  have none := tree.root_none isSpace
  have different := ne_of_near near none
  obtain ⟨inside, -, same, link⟩ := tree.near q _ near
  obtain ⟨insideRoot, atRoot, -⟩ := tree.roots space isSpace
  have kept := @kept_moveRoot θ store q _ space different
  have nearest : ∀ s, (store.moveRoot space (store.nearestPoint space) q).nearestPoint s =
      if s = space then q else store.nearestPoint s := fun _ => rfl
  refine ⟨⟨?_, ?_, ?_, ?_, ?_⟩, ⟨le_refl _, le_refl _, fun p _ => (kept p).1, fun p _ => (kept p).2, ?_⟩⟩
  · intro p insideP
    have leads := tree.leads p insideP
    rw [nearer_moveRoot different, nearest, (kept p).1]
    split
    · rename_i here
      rw [here] at leads
      exact leads.move near none
    · rename_i elsewhere
      apply leads.move_other near none
      intro isRoot
      have space' := (tree.roots _ (tree.within p insideP)).2.1
      rw [isRoot, atRoot] at space'
      exact elsewhere space'.symm
  · intro p insideP
    rw [(kept p).1]
    exact tree.within p insideP
  · intro s isSpace'
    rw [nearest]
    split
    · rename_i here
      refine ⟨inside, ?_, ?_⟩
      · rw [(kept q).1, here, ← same, atRoot]
      · rw [points_moveRoot different, if_pos rfl, here]
    · rename_i elsewhere
      obtain ⟨insideS, atS, field⟩ := tree.roots s isSpace'
      refine ⟨insideS, (kept _).1.trans atS, ?_⟩
      have notNew : store.nearestPoint s ≠ q := by
        rintro rfl
        exact elsewhere (atS.symm.trans (same.symm.trans atRoot))
      have notOld : store.nearestPoint s ≠ store.nearestPoint space := by
        intro equal
        rw [equal, atRoot] at atS
        exact elsewhere atS.symm
      rw [points_moveRoot different, if_neg notNew, if_neg notOld]
      exact field
  · intro a b near'
    rw [nearer_moveRoot different] at near'
    rw [(kept a).1, (kept b).1]
    by_cases isNew : a = q
    · rw [isNew, move_root] at near'
      exact nomatch near'
    · by_cases isOld : a = store.nearestPoint space
      · subst isOld
        rw [move_old different] at near'
        obtain rfl := Option.some.inj near'
        exact ⟨insideRoot, inside, same.symm, link_moveRoot link different⟩
      · rw [move_other isNew isOld] at near'
        obtain ⟨insideA, insideB, same', before, after, fields⟩ := tree.near a b near'
        refine ⟨insideA, insideB, same', before, after, ?_⟩
        rw [(kept a).2, (kept b).2, points_moveRoot different, if_neg isNew, if_neg isOld]
        exact fields
  · intro p o made
    rw [(kept p).2] at made
    exact tree.origins p o made
  · intro a b adjacent
    rw [nearer_moveRoot different]
    exact adjacent_move near none adjacent

theorem Tree.nearer_fresh (tree : Tree store) : store.nearer store.size = none := by
  by_contra some
  obtain ⟨q, near⟩ := Option.ne_none_iff_exists'.mp some
  exact lt_irrefl _ (tree.near _ _ near).1

theorem points_addPoint (inside : r < store.size) (a : ℕ) :
    (store.addPoint space r before after).points a =
      if a = r then { store.points r with
        nearerPoint := some store.size, toNearer := .thunk before, fromNearer := .thunk after }
      else if a = store.size then ⟨none, .space space, .nothing, space, some ⟨r, before, after⟩⟩
      else store.points a := by
  simp [addPoint, setNearestPoint, setPoint, if_neg (inside.ne)]

theorem nearer_addPoint (tree : Tree store) (inside : r < store.size) :
    (store.addPoint space r before after).nearer = grow store.nearer r store.size := by
  funext a
  have fresh := tree.nearer_fresh
  unfold nearer grow at *
  rw [points_addPoint inside]
  split
  · rfl
  · split
    · rename_i same
      exact (same ▸ fresh).symm
    · rfl

theorem kept_addPoint (inside : r < store.size) (insideP : p < store.size) :
    (store.addPoint space r before after).spaceOf p = store.spaceOf p ∧
      (store.addPoint space r before after).origin p = store.origin p := by
  unfold spaceOf origin
  rw [points_addPoint inside]
  split
  · rename_i same
    exact ⟨same ▸ rfl, same ▸ rfl⟩
  · rw [if_neg (insideP.ne)]
    exact ⟨rfl, rfl⟩

theorem Tree.addPoint (tree : Tree store) (isSpace : space < store.spaces) (before after : θ) :
    Tree (store.addPoint space (store.nearestPoint space) before after) ∧
      Extends store (store.addPoint space (store.nearestPoint space) before after) := by
  obtain ⟨inside, atRoot, -⟩ := tree.roots space isSpace
  have none := tree.root_none isSpace
  have different : store.size ≠ store.nearestPoint space := (inside.ne).symm
  have atNew : (store.addPoint space (store.nearestPoint space) before after).points store.size =
      ⟨Option.none, .space space, .nothing, space, some ⟨store.nearestPoint space, before, after⟩⟩ := by
    rw [points_addPoint inside, if_neg different, if_pos rfl]
  have newSpace : (store.addPoint space (store.nearestPoint space) before after).spaceOf store.size = space := by
    rw [spaceOf, atNew]
  have newOrigin : (store.addPoint space (store.nearestPoint space) before after).origin store.size =
      some ⟨store.nearestPoint space, before, after⟩ := by
    rw [origin, atNew]
  have kept := fun p => @kept_addPoint θ store p _ space before after inside
  have nearest : ∀ s, (store.addPoint space (store.nearestPoint space) before after).nearestPoint s =
      if s = space then store.size else store.nearestPoint s := fun _ => rfl
  have old : ∀ p < store.size + 1, p = store.size ∨ p < store.size := fun p insideP => by omega
  refine ⟨⟨?_, ?_, ?_, ?_, ?_⟩, ⟨le_succ _, le_refl _, fun p insideP => (kept p insideP).1,
    fun p insideP => (kept p insideP).2, ?_⟩⟩
  · intro p insideP
    rw [nearer_addPoint tree inside, nearest]
    rcases old p insideP with rfl | insideP
    · rw [newSpace, if_pos rfl]
      exact .root ((grow_other different).trans tree.nearer_fresh)
    · have leads := tree.leads p insideP
      rw [(kept p insideP).1]
      split
      · rename_i here
        rw [here] at leads
        exact leads.grow tree.nearer_fresh different
      · rename_i elsewhere
        apply leads.grow_other none
        intro isRoot
        have space' := (tree.roots _ (tree.within p insideP)).2.1
        rw [isRoot, atRoot] at space'
        exact elsewhere space'.symm
  · intro p insideP
    rcases old p insideP with rfl | insideP
    · rw [newSpace]
      exact isSpace
    · rw [(kept p insideP).1]
      exact tree.within p insideP
  · intro s isSpace'
    rw [nearest]
    split
    · rename_i here
      refine ⟨lt_succ_self _, newSpace.trans here.symm, ?_⟩
      rw [atNew, here]
    · rename_i elsewhere
      obtain ⟨insideS, atS, field⟩ := tree.roots s isSpace'
      refine ⟨lt_succ_of_lt insideS, (kept _ insideS).1.trans atS, ?_⟩
      have notOld : store.nearestPoint s ≠ store.nearestPoint space := by
        intro equal
        rw [equal, atRoot] at atS
        exact elsewhere atS.symm
      rw [points_addPoint inside, if_neg notOld, if_neg (insideS.ne)]
      exact field
  · intro a b near
    rw [nearer_addPoint tree inside] at near
    by_cases isOld : a = store.nearestPoint space
    · subst isOld
      rw [grow_old] at near
      obtain rfl := Option.some.inj near
      refine ⟨lt_succ_of_lt inside, lt_succ_self _, ?_, before, after, .inr ⟨newOrigin, ?_⟩⟩
      · rw [newSpace, (kept _ inside).1, atRoot]
      · rw [points_addPoint inside, if_pos rfl]
        exact ⟨rfl, rfl⟩
    · rw [grow_other isOld] at near
      obtain ⟨insideA, insideB, same, before', after', fields⟩ := tree.near a b near
      refine ⟨lt_succ_of_lt insideA, lt_succ_of_lt insideB, ?_, before', after', ?_⟩
      · rw [(kept a insideA).1, (kept b insideB).1]
        exact same
      · rw [(kept a insideA).2, (kept b insideB).2, points_addPoint inside, if_neg isOld, if_neg (insideA.ne)]
        exact fields
  · intro p o made
    by_cases isNew : p = store.size
    · rw [isNew, newOrigin] at made
      obtain rfl := Option.some.inj made
      exact ⟨isNew ▸ inside, isNew ▸ lt_succ_self _⟩
    · have before : store.origin p = some o := by
        by_cases isOld : p = store.nearestPoint space
        · rw [isOld, (kept _ inside).2] at made
          exact isOld ▸ made
        · rw [origin, points_addPoint inside, if_neg isOld, if_neg isNew] at made
          exact made
      obtain ⟨less, insideP⟩ := tree.origins p o before
      exact ⟨less, lt_succ_of_lt insideP⟩
  · intro a b adjacent
    rw [nearer_addPoint tree inside]
    exact adjacent_grow none adjacent

theorem nearer_makeStateSpace (tree : Tree store) : store.makeStateSpace.nearer = store.nearer := by
  funext a
  have fresh := tree.nearer_fresh
  unfold nearer makeStateSpace setPoint at *
  dsimp only
  split
  · rename_i same
    rw [same, fresh]
  · rfl

theorem points_makeStateSpace (inside : p < store.size) : store.makeStateSpace.points p = store.points p :=
  if_neg (inside.ne)

theorem Tree.makeStateSpace (tree : Tree store) : Tree store.makeStateSpace ∧ Extends store store.makeStateSpace := by
  have kept : ∀ p < store.size, store.makeStateSpace.spaceOf p = store.spaceOf p ∧
      store.makeStateSpace.origin p = store.origin p := by
    intro p inside
    unfold spaceOf origin
    rw [points_makeStateSpace inside]
    exact ⟨rfl, rfl⟩
  have atNew : store.makeStateSpace.points store.size = ⟨none, .space store.spaces, .nothing, store.spaces, none⟩ :=
    if_pos rfl
  have newSpace : store.makeStateSpace.spaceOf store.size = store.spaces := by rw [spaceOf, atNew]
  have nearest : ∀ s, store.makeStateSpace.nearestPoint s = if s = store.spaces then store.size else store.nearestPoint s :=
    fun _ => rfl
  have old : ∀ p < store.size + 1, p = store.size ∨ p < store.size := fun p inside => by omega
  refine ⟨⟨?_, ?_, ?_, ?_, ?_⟩, ⟨le_succ _, le_succ _, fun p inside => (kept p inside).1,
    fun p inside => (kept p inside).2, ?_⟩⟩
  · intro p inside
    rw [nearer_makeStateSpace tree, nearest]
    rcases old p inside with rfl | inside
    · rw [newSpace, if_pos rfl]
      exact .root tree.nearer_fresh
    · rw [(kept p inside).1, if_neg ((tree.within p inside).ne)]
      exact tree.leads p inside
  · intro p inside
    rcases old p inside with rfl | inside
    · rw [newSpace]
      exact lt_succ_self _
    · rw [(kept p inside).1]
      exact lt_succ_of_lt (tree.within p inside)
  · intro s isSpace
    rw [nearest]
    split
    · rename_i here
      refine ⟨lt_succ_self _, newSpace.trans here.symm, ?_⟩
      rw [atNew, here]
    · rename_i elsewhere
      have isOld : s < store.spaces := lt_of_le_of_ne (le_of_lt_succ isSpace) elsewhere
      obtain ⟨inside, atS, field⟩ := tree.roots s isOld
      refine ⟨lt_succ_of_lt inside, (kept _ inside).1.trans atS, ?_⟩
      rw [points_makeStateSpace inside]
      exact field
  · intro a b near
    rw [nearer_makeStateSpace tree] at near
    obtain ⟨insideA, insideB, same, before, after, fields⟩ := tree.near a b near
    refine ⟨lt_succ_of_lt insideA, lt_succ_of_lt insideB, ?_, before, after, ?_⟩
    · rw [(kept a insideA).1, (kept b insideB).1]
      exact same
    · rw [(kept a insideA).2, (kept b insideB).2, points_makeStateSpace insideA]
      exact fields
  · intro p o made
    have isOld : p ≠ store.size := by
      rintro rfl
      rw [origin, atNew] at made
      exact nomatch made
    have before : store.origin p = some o := by
      rw [← made]
      exact congrArg StatePoint.origin (if_neg isOld).symm
    obtain ⟨less, inside⟩ := tree.origins p o before
    exact ⟨less, lt_succ_of_lt inside⟩
  · intro a b adjacent
    rw [nearer_makeStateSpace tree]
    exact adjacent

end MitScheme.Runtime.StateSpaces
