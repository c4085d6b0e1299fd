import Mathlib.Data.List.Perm.Subperm
import MitScheme.Library.Run
import MitScheme.Runtime.StateSpace.Trees

/-!
Whatever programs do, in thunks or out of them, state spaces stay trees, and translations end where
they should. A translation whose thunks do nothing else runs those of the points on the way.
-/

namespace MitScheme.Runtime.StateSpaces

open Library Library.Rerooting List Option

variable {θ : Type} {store store' : Store θ} {s s' : System θ} {p q requested space : ℕ} {chain : List ℕ}
  {stack : List (Frame θ)} {before after : θ}

structure Way (store : Store θ) (point : ℕ) (chain : List ℕ) (requested : ℕ) : Prop where
  linked : (point :: chain).IsChain (Adjacent store.nearer)
  last : (point :: chain).getLast? = some requested
  inside : ∀ x ∈ point :: chain, x < store.size

def FrameOk (store : Store θ) : Frame θ → Prop
  | .caller => True
  | .before space oldRoot _ _ => oldRoot < store.size ∧ store.spaceOf oldRoot = space
  | .install space oldRoot _ _ => oldRoot < store.size ∧ store.spaceOf oldRoot = space
  | .during oldRoot => oldRoot < store.size
  | .traverse chain requested => ∃ point rest, chain = point :: rest ∧ Way store point rest requested

/-- What waits for what: a new point is made when its parent was reached, and entering a point was called. -/
def Follows : Frame θ → Frame θ → Prop
  | .caller, _ => True
  | .traverse _ requested, .install _ oldRoot _ _ => oldRoot = requested
  | .traverse _ _, _ => True
  | _, next => next = .caller

structure StackOk (store : Store θ) (stack : List (Frame θ)) : Prop where
  frames : ∀ f ∈ stack, FrameOk store f
  follows : stack.IsChain Follows

theorem Way.extends (way : Way store p chain requested) (extend : Extends store store') : Way store' p chain requested where
  linked := way.linked.imp extend.adjacent
  last := way.last
  inside := fun x member => (way.inside x member).trans_le extend.size

theorem StackOk.extends (ok : StackOk store stack) (extend : Extends store store') : StackOk store' stack := by
  refine ⟨?_, ok.follows⟩
  intro f member
  have here := ok.frames f member
  cases f with
  | caller => trivial
  | before space oldRoot => exact ⟨lt_of_lt_of_le here.1 extend.size, (extend.spaceOf _ here.1).trans here.2⟩
  | install space oldRoot => exact ⟨lt_of_lt_of_le here.1 extend.size, (extend.spaceOf _ here.1).trans here.2⟩
  | during oldRoot => exact here.trans_le extend.size
  | traverse chain requested =>
    obtain ⟨point, rest, rfl, way⟩ := here
    exact ⟨point, rest, rfl, way.extends extend⟩

theorem StackOk.tail {f : Frame θ} (ok : StackOk store (f :: stack)) : StackOk store stack :=
  ⟨(forall_mem_cons.mp ok.frames).2, ok.follows.tail⟩

/-- The invariant of a system where a translation or a program has the stack. -/
structure Valid (s : System θ) (stack : List (Frame θ)) : Prop where
  tree : Tree s.store
  stack : StackOk s.store stack
  captured : ∀ stack ∈ s.captured, StackOk s.store stack
  log : ∀ requested nearest, .translated requested nearest ∈ s.log → nearest = requested

theorem Valid.extends (valid : Valid s stack) (tree : Tree store') (extend : Extends s.store store')
    {stack' stack'' : List (Frame θ)} (ok : StackOk store' stack') {log : List (Entry θ)}
    (logged : ∀ requested nearest, .translated requested nearest ∈ log → nearest = requested) :
    Valid ⟨store', stack'', s.captured, s.log ++ log⟩ stack' where
  tree := tree
  stack := ok
  captured := fun stack member => (valid.captured stack member).extends extend
  log := by
    intro requested nearest member
    rcases mem_append.mp member with member | member
    · exact valid.log requested nearest member
    · exact logged requested nearest member

theorem Valid.tail {f : Frame θ} (valid : Valid s (f :: stack)) : Valid s stack :=
  ⟨valid.tree, valid.stack.tail, valid.captured, valid.log⟩

theorem Valid.calling (valid : Valid s stack) : Valid s (.caller :: stack) := by
  refine ⟨valid.tree, ⟨forall_mem_cons.mpr ⟨trivial, valid.stack.frames⟩, ?_⟩, valid.captured, valid.log⟩
  cases stack with
  | nil => exact .singleton _
  | cons f rest => exact .cons_cons trivial valid.stack.follows

theorem Valid.installing {oldRoot : ℕ} (valid : Valid s (.before space oldRoot before after :: stack)) :
    Valid s (.install space oldRoot before after :: stack) := by
  have here := valid.stack.frames _ mem_cons_self
  have follows := valid.stack.follows
  refine ⟨valid.tree, ⟨forall_mem_cons.mpr ⟨here, valid.tail.stack.frames⟩, ?_⟩, valid.captured, valid.log⟩
  cases stack with
  | nil => exact .singleton _
  | cons f rest => exact .cons_cons (isChain_cons_cons.mp follows).1 (isChain_cons_cons.mp follows).2

theorem findNearest_climb {root fuel : ℕ} {path : List ℕ} (climb : Climb store.nearer p path root)
    (none : store.nearer root = none) (enough : path.length < fuel) :
    store.findNearest fuel p chain = some (root, path.reverse ++ chain) := by
  induction climb generalizing fuel chain with
  | nil =>
    obtain ⟨fuel, rfl⟩ := Nat.exists_eq_add_one_of_ne_zero (enough.ne')
    rw [Store.findNearest, none]
    rfl
  | @cons p b root path near climb ih =>
    obtain ⟨fuel, rfl⟩ := Nat.exists_eq_add_one_of_ne_zero (((Nat.zero_le _).trans_lt enough).ne')
    rw [Store.findNearest, near]
    dsimp only
    rw [ih none (Nat.lt_of_succ_lt_succ enough), reverse_cons, append_assoc]
    rfl

theorem Way.climb {root : ℕ} {path : List ℕ} (tree : Tree store) (way : Way store p chain requested)
    (climb : Climb store.nearer p path root) : Way store root (path.reverse ++ chain) requested := by
  induction climb generalizing chain with
  | nil => exact way
  | @cons p b root path near climb ih =>
    have longer : Way store b (p :: chain) requested := by
      refine ⟨?_, ?_, ?_⟩
      · exact .cons_cons (.inr near) way.linked
      · exact way.last
      · exact forall_mem_cons.mpr ⟨(tree.near p b near).2.1, way.inside⟩
    rw [reverse_cons, append_assoc]
    exact ih longer

theorem findNearest_spec (tree : Tree store) (inside : p < store.size) : ∃ path,
    Climb store.nearer p path (store.nearestPoint (store.spaceOf p)) ∧
      ∀ chain, store.findNearest (store.size + 1) p chain =
        some (store.nearestPoint (store.spaceOf p), path.reverse ++ chain) := by
  have leads := tree.leads p inside
  obtain ⟨path, climb⟩ := leads.climb
  have short : path.length ≤ store.size := by
    have within : path ⊆ range store.size := by
      intro x member
      obtain ⟨y, near⟩ := climb.has_parent x member
      exact mem_range.mpr (tree.near x y near).1
    have bound := (Nodup.subperm (climb.nodup leads.is_root) within).length_le
    rwa [length_range] at bound
  exact ⟨path, climb, fun chain => findNearest_climb climb leads.is_root (Nat.lt_succ_of_le short)⟩

theorem finish_valid (valid : Valid s stack)
    (reached : ∀ space oldRoot before after rest, stack = .install space oldRoot before after :: rest →
      s.store.nearestPoint space = oldRoot)
    (finished : finish s stack = some s') : Valid s' s'.stack := by
  unfold finish at finished
  split at finished
  · obtain rfl := some.inj finished
    exact ⟨valid.tree, valid.stack.tail, valid.captured, valid.log⟩
  · rename_i space oldRoot before after rest
    obtain rfl := some.inj finished
    obtain ⟨inside, here⟩ := valid.stack.frames _ mem_cons_self
    have isSpace : space < s.store.spaces := here ▸ valid.tree.within oldRoot inside
    have same := reached space oldRoot before after rest rfl
    obtain ⟨tree, extend⟩ := valid.tree.addPoint isSpace before after
    rw [same] at tree extend
    have ok := valid.stack.extends extend
    refine ⟨tree, ⟨?_, ?_⟩, fun stack member => (valid.captured stack member).extends extend, valid.log⟩
    · refine forall_mem_cons.mpr ⟨?_, ok.tail.frames⟩
      exact inside.trans_le extend.size
    · have follows := ok.follows
      cases rest with
      | nil => exact .singleton _
      | cons f rest => exact .cons_cons (isChain_cons_cons.mp follows).1 (isChain_cons_cons.mp follows).2
  · exact nomatch finished

theorem Way.tail (way : Way store p (q :: chain) requested) : Way store q chain requested := by
  refine ⟨way.linked.tail, ?_, (forall_mem_cons.mp way.inside).2⟩
  exact way.last

theorem Tree.field_root (tree : Tree store) (inside : p < store.size) (none : store.nearer p = none) :
    (store.points p).toNearer = .space (store.spaceOf p) := by
  have field := (tree.roots _ (tree.within p inside)).2.2
  rwa [tree.eq_nearest inside none] at field

theorem traverseChain_nil (tree : Tree s.store) (none : s.store.nearer p = none) (inside : p < s.store.size) :
    traverseChain s p [] requested stack = finish { s with log := s.log ++ [.translated requested p] } stack := by
  rw [traverseChain, tree.field_root inside none]
  dsimp only
  rw [tree.eq_nearest inside none]

theorem traverseChain_cons (tree : Tree s.store) (none : s.store.nearer p = none)
    (way : Way s.store p (q :: chain) requested) : s.store.nearer q = some p ∧ ∃ thunk,
      (s.store.points q).fromNearer = .thunk thunk ∧
      traverseChain s p (q :: chain) requested stack = some { s with
        store := s.store.moveRoot (s.store.spaceOf p) p q, stack := .traverse (q :: chain) requested :: stack,
        log := s.log ++ [.ran thunk] } := by
  have near : s.store.nearer q = some p := by
    rcases (isChain_cons_cons.mp way.linked).1 with near | near
    · exact nomatch none.symm.trans near
    · exact near
  refine ⟨near, ?_⟩
  obtain ⟨-, -, -, before, after, fields⟩ := tree.near q p near
  rw [traverseChain, tree.field_root (way.inside p mem_cons_self) none]
  rcases fields with ⟨-, -, field⟩ | ⟨-, -, field⟩
  · exact ⟨before, field, by dsimp only; rw [field]⟩
  · exact ⟨after, field, by dsimp only; rw [field]⟩

/-- A frame on top of the stack that waits to install a point comes from the requested one. -/
def Awaits (stack : List (Frame θ)) (requested : ℕ) : Prop :=
  ∀ space oldRoot before after rest, stack = .install space oldRoot before after :: rest → oldRoot = requested

theorem traverseChain_valid (valid : Valid s stack) (none : s.store.nearer p = none) (way : Way s.store p chain requested)
    (awaits : Awaits stack requested) (traversed : traverseChain s p chain requested stack = some s') : Valid s' s'.stack := by
  have inside := way.inside p mem_cons_self
  have isRoot := valid.tree.eq_nearest inside none
  cases chain with
  | nil =>
    obtain rfl : p = requested := some.inj way.last
    rw [traverseChain_nil valid.tree none inside] at traversed
    refine finish_valid (valid.extends valid.tree (.refl _) valid.stack ?_) ?_ traversed
    · intro requested nearest member
      obtain ⟨rfl, rfl⟩ := Entry.translated.inj (mem_singleton.mp member)
      rfl
    · rintro space oldRoot before after rest rfl
      obtain rfl := awaits space oldRoot before after rest rfl
      obtain ⟨-, rfl⟩ := valid.stack.frames _ mem_cons_self
      exact isRoot
  | cons q chain =>
    obtain ⟨near, thunk, -, moved⟩ := @traverseChain_cons θ s p q requested chain stack valid.tree none way
    obtain rfl := some.inj (moved.symm.trans traversed)
    have isSpace := valid.tree.within p inside
    have moves := valid.tree.moveRoot isSpace (near.trans (congrArg some isRoot.symm))
    rw [isRoot] at moves
    obtain ⟨tree, extend⟩ := moves
    have ok := valid.stack.extends extend
    refine valid.extends tree extend ⟨?_, ?_⟩ ?_
    · exact forall_mem_cons.mpr ⟨⟨q, chain, rfl, way.tail.extends extend⟩, ok.frames⟩
    · cases stack with
      | nil => exact .singleton _
      | cons f rest =>
        refine .cons_cons ?_ ok.follows
        cases f with
        | install space oldRoot before after => exact awaits space oldRoot before after rest rfl
        | _ => trivial
    · intro requested nearest member
      exact nomatch mem_singleton.mp member

theorem findNearestThen_valid (valid : Valid s stack) (way : Way s.store p chain requested)
    (awaits : Awaits stack requested) (found : findNearestThen s p chain requested stack = some s') : Valid s' s'.stack := by
  have inside := way.inside p mem_cons_self
  obtain ⟨path, climb, finds⟩ := findNearest_spec valid.tree inside
  rw [findNearestThen, finds chain] at found
  have none := valid.tree.root_none (valid.tree.within p inside)
  exact traverseChain_valid valid none (way.climb valid.tree climb) awaits found

theorem way_self (inside : p < store.size) : Way store p [] p :=
  ⟨.singleton p, rfl, forall_mem_singleton.mpr inside⟩

theorem translateToStatePoint_valid (valid : Valid s stack) (inside : p < s.store.size)
    (awaits : Awaits stack p) (translated : translateToStatePoint s p stack = some s') : Valid s' s'.stack :=
  findNearestThen_valid valid (way_self inside) awaits translated

theorem findRoot_cases (valid : Valid s stack) (way : Way s.store p chain requested) : ∃ p' chain', Way s.store p' chain' requested ∧
    (s.store.nearer p' = none ∧ findRoot s requested stack (p :: chain) = traverseChain s p' chain' requested stack ∨
      findRoot s requested stack (p :: chain) = findNearestThen s p' chain' requested stack) := by
  have elsewhere : ∀ {p q chain}, Way s.store p chain requested → s.store.nearer p = some q →
      Way s.store q (p :: chain) requested := by
    intro p q chain way near
    refine ⟨.cons_cons (.inr near) way.linked, way.last, ?_⟩
    exact forall_mem_cons.mpr ⟨(valid.tree.near p q near).2.1, way.inside⟩
  induction chain generalizing p with
  | nil =>
    rw [findRoot]
    cases near : s.store.nearer p with
    | none => exact ⟨p, [], way, .inl ⟨near, rfl⟩⟩
    | some q => exact ⟨q, _, elsewhere way near, .inr rfl⟩
  | cons next chain ih =>
    rw [findRoot]
    cases near : s.store.nearer p with
    | none => exact ⟨p, _, way, .inl ⟨near, rfl⟩⟩
    | some q =>
      by_cases along : (next :: chain).head? = some q
      · dsimp only
        rw [if_pos along]
        exact ih way.tail
      · exact ⟨q, _, elsewhere way near, .inr (if_neg along)⟩

theorem findRoot_valid (valid : Valid s stack) (way : Way s.store p chain requested)
    (awaits : Awaits stack requested) (found : findRoot s requested stack (p :: chain) = some s') : Valid s' s'.stack := by
  obtain ⟨p, chain, way, ⟨near, goes⟩ | goes⟩ := findRoot_cases valid way
  · exact traverseChain_valid valid near way awaits (goes ▸ found)
  · exact findNearestThen_valid valid way awaits (goes ▸ found)

theorem step_valid (valid : Valid s s.stack) {event : Event θ} (stepped : step s event = some s') : Valid s' s'.stack := by
  cases event with
  | makeSpace =>
    obtain rfl := some.inj stepped
    obtain ⟨tree, extend⟩ := valid.tree.makeStateSpace
    exact ⟨tree, valid.stack.extends extend, fun stack member => (valid.captured stack member).extends extend, valid.log⟩
  | execute space before after =>
    obtain ⟨isSpace, same⟩ := ite_none_right_eq_some.mp stepped
    obtain rfl := some.inj same
    obtain ⟨inside, here, -⟩ := valid.tree.roots space isSpace
    refine valid.extends valid.tree (.refl _) ⟨?_, ?_⟩ ?_
    · exact forall_mem_cons.mpr ⟨⟨inside, here⟩, forall_mem_cons.mpr ⟨trivial, valid.stack.frames⟩⟩
    · refine .cons_cons rfl ?_
      have follows := valid.stack.follows
      cases same : s.stack with
      | nil => exact .singleton _
      | cons f rest => exact .cons_cons trivial (same ▸ follows)
    · intro requested nearest member
      exact nomatch mem_singleton.mp member
  | translate point =>
    obtain ⟨inside, translated⟩ := ite_none_right_eq_some.mp stepped
    exact translateToStatePoint_valid valid.calling inside nofun translated
  | returns =>
    rw [step] at stepped
    split at stepped
    · rename_i space oldRoot before after rest top
      rw [top] at valid
      obtain ⟨inside, here⟩ := valid.stack.frames _ mem_cons_self
      unfold entered at stepped
      split at stepped
      · rename_i same
        refine finish_valid valid.installing ?_ stepped
        rintro space' oldRoot' before' after' rest' equal
        obtain ⟨rfl, rfl, -, -⟩ := Frame.install.inj (cons.inj equal).1
        exact same.symm
      · refine translateToStatePoint_valid valid.installing inside ?_ stepped
        rintro space' oldRoot' before' after' rest' equal
        exact (Frame.install.inj (cons.inj equal).1).2.1.symm
    · rename_i oldRoot rest top
      rw [top] at valid
      refine translateToStatePoint_valid valid.tail (valid.stack.frames _ mem_cons_self) ?_ stepped
      rintro space' oldRoot' before' after' rest' rfl
      exact nomatch (isChain_cons_cons.mp valid.stack.follows).1
    · rename_i chain requested rest top
      rw [top] at valid
      obtain ⟨point, chain, rfl, way⟩ := valid.stack.frames _ mem_cons_self
      refine findRoot_valid valid.tail way ?_ stepped
      rintro space' oldRoot' before' after' rest' rfl
      exact (isChain_cons_cons.mp valid.stack.follows).1
    · exact nomatch stepped
  | capture =>
    obtain rfl := some.inj stepped
    refine ⟨valid.tree, valid.stack, ?_, valid.log⟩
    intro stack member
    rcases mem_append.mp member with member | member
    · exact valid.captured stack member
    · exact mem_singleton.mp member ▸ valid.stack
  | escape stack =>
    obtain ⟨stack, taken, rfl⟩ := map_eq_some_iff.mp stepped
    exact ⟨valid.tree, valid.captured stack (mem_of_getElem? taken), valid.captured, valid.log⟩

theorem valid_start : Valid (start : System θ) [] :=
  ⟨tree_empty, ⟨nofun, .nil⟩, nofun, nofun⟩

theorem valid_of_run {events : List (Event θ)} (ran : run step (fun _ _ => True) start events = some s) :
    Valid s s.stack :=
  run_invariant (fun s => Valid s s.stack) (fun valid _ stepped => step_valid valid stepped) valid_start ran

def crossed (store : Store θ) (point : ℕ) : Option θ :=
  match (store.points point).fromNearer with
  | .thunk thunk => some thunk
  | _ => none

theorem traverseChain_quiet (tree : Tree s.store) (none : s.store.nearer p = none) (way : Way s.store p chain requested)
    (distinct : (p :: chain).Nodup) : ∃ s₁ s', traverseChain s p chain requested (.caller :: stack) = some s₁ ∧
      run step (fun _ _ => True) s₁ (List.replicate chain.length .returns) = some s' ∧
      s'.log = s.log ++ (chain.filterMap (crossed s.store)).map Entry.ran ++ [.translated requested requested] ∧
      s'.stack = stack ∧ s'.store.nearestPoint (s.store.spaceOf requested) = requested := by
  induction chain generalizing p s with
  | nil =>
    have inside := way.inside p mem_cons_self
    obtain rfl : p = requested := some.inj way.last
    refine ⟨_, _, traverseChain_nil tree none inside, rfl, ?_, rfl, tree.eq_nearest inside none⟩
    simp
  | cons q chain ih =>
    have inside := way.inside p mem_cons_self
    have isRoot := tree.eq_nearest inside none
    obtain ⟨near, thunk, field, moved⟩ := @traverseChain_cons θ s p q requested chain (.caller :: stack) tree none way
    have different := ne_of_near near none
    have moves := tree.moveRoot (tree.within p inside) (near.trans (congrArg some isRoot.symm))
    rw [isRoot] at moves
    obtain ⟨tree', extend⟩ := moves
    have none' : (s.store.moveRoot (s.store.spaceOf p) p q).nearer q = Option.none := by
      rw [nearer_moveRoot different]
      exact move_root
    obtain ⟨notFirst, distinct'⟩ := nodup_cons.mp distinct
    obtain ⟨notSecond, -⟩ := nodup_cons.mp distinct'
    -- The system in which the thunk of `q` runs.
    obtain ⟨s₁, s', traversed, ran, log, same, reached⟩ := @ih ⟨s.store.moveRoot (s.store.spaceOf p) p q,
      .traverse (q :: chain) requested :: .caller :: stack, s.captured, s.log ++ [.ran thunk]⟩ q tree' none'
      (way.tail.extends extend) distinct'
    refine ⟨_, s', moved, ?_, ?_, same, ?_⟩
    · refine run_cons.mpr ⟨trivial, s₁, ?_, ran⟩
      change findRoot _ requested (.caller :: stack) (q :: chain) = some s₁
      rw [findRoot, none']
      exact traversed
    · have kept : chain.filterMap (crossed (s.store.moveRoot (s.store.spaceOf p) p q)) = chain.filterMap (crossed s.store) := by
        apply filterMap_congr
        intro x member
        have notOld : x ≠ p := fun same => notFirst (mem_cons_of_mem q (same ▸ member))
        have notNew : x ≠ q := fun same => notSecond (same ▸ member)
        unfold crossed
        rw [points_moveRoot different, if_neg notNew, if_neg notOld]
      have first : crossed s.store q = some thunk := by rw [crossed, field]
      rw [log, kept, filterMap_cons, first]
      simp
    · have inside' : requested < s.store.size := way.inside requested (mem_of_getLast? way.last)
      rwa [extend.spaceOf requested inside'] at reached

def parent (store : Store θ) (point : ℕ) : Option ℕ := (store.origin point).map Origin.parent

def enterThunk (store : Store θ) (point : ℕ) : Option θ := (store.origin point).map Origin.before

def leaveThunk (store : Store θ) (point : ℕ) : Option θ := (store.origin point).map Origin.after

theorem Tree.links (tree : Tree store) (x y : ℕ) (near : store.nearer x = some y) : parent store x = some y ∧
    crossed store x = enterThunk store x ∨ parent store y = some x ∧ crossed store x = leaveThunk store y := by
  obtain ⟨-, -, -, before, after, ⟨made, -, field⟩ | ⟨made, -, field⟩⟩ := tree.near x y near
  · left
    rw [parent, crossed, enterThunk, made, field]
    exact ⟨rfl, rfl⟩
  · right
    rw [parent, crossed, leaveThunk, made, field]
    exact ⟨rfl, rfl⟩

/-- A translation whose thunks return at once leaves the points from the current one up to the lowest common ancestor,
and then enters those down to the point that was requested. -/
theorem translate_quiet (valid : Valid s s.stack) {t : ℕ} (inside : t < s.store.size) : ∃ l ups downs s',
    Climb (parent s.store) (s.store.nearestPoint (s.store.spaceOf t)) ups l ∧ Climb (parent s.store) t downs l ∧
      (ups ++ downs).Nodup ∧ LowestCommon (parent s.store) (s.store.nearestPoint (s.store.spaceOf t)) t l ∧
      run step (fun _ _ => True) s (.translate t :: List.replicate (ups.length + downs.length) .returns) = some s' ∧
      s'.log = s.log ++ (ups.filterMap (leaveThunk s.store) ++ downs.reverse.filterMap (enterThunk s.store)).map Entry.ran ++
        [.translated t t] ∧
      s'.stack = s.stack ∧ s'.store.nearestPoint (s.store.spaceOf t) = t := by
  have none := valid.tree.root_none (valid.tree.within t inside)
  obtain ⟨path, climb, finds⟩ := findNearest_spec valid.tree inside
  have way := (way_self inside).climb valid.tree climb
  rw [append_nil] at way
  have apart : s.store.nearestPoint (s.store.spaceOf t) ∉ path := by
    intro member
    obtain ⟨y, near⟩ := climb.has_parent _ member
    exact nomatch none.symm.trans near
  have distinct : (s.store.nearestPoint (s.store.spaceOf t) :: path.reverse).Nodup :=
    nodup_cons.mpr ⟨fun member => apart (mem_reverse.mp member), (reverse_perm path).nodup_iff.mpr (climb.nodup none)⟩
  obtain ⟨s₁, s', traversed, ran, log, same, reached⟩ :=
    @traverseChain_quiet θ s _ t path.reverse s.stack valid.tree none way distinct
  obtain ⟨l, ups, downs, climbUps, climbDowns, down, up, crosses⟩ := way_meets valid.tree.one_way valid.tree.links climb
  have lengths := congrArg length crosses
  simp only [length_append, length_map] at lengths
  have thunks : path.reverse.filterMap (crossed s.store) =
      ups.filterMap (leaveThunk s.store) ++ downs.reverse.filterMap (enterThunk s.store) := by
    have collected := congrArg (filterMap id) crosses
    rw [filterMap_append] at collected
    simp only [filterMap_map, Function.id_comp] at collected
    exact collected
  have smaller : ∀ a b, parent s.store a = some b → b < a := by
    intro a b isParent
    obtain ⟨o, made, rfl⟩ := map_eq_some_iff.mp isParent
    exact (valid.tree.origins a o made).1
  have once : (ups ++ downs).Nodup := by
    have distinctUps := (@Climb.nodup_of_rank ℕ _ _ _ _ id smaller climbUps).1
    have distinctDowns := (@Climb.nodup_of_rank ℕ _ _ _ _ id smaller climbDowns).1
    refine nodup_append.mpr ⟨distinctUps, distinctDowns, ?_⟩
    rintro x inUps x' inDowns rfl
    obtain ⟨y, isParent⟩ := climbUps.has_parent x inUps
    exact valid.tree.one_way x y ((down x inDowns).trans isParent) (up x inUps y isParent)
  refine ⟨l, ups, downs, s', climbUps, climbDowns, once, lowest_of_meets valid.tree.one_way climbUps climbDowns down up,
    ?_, ?_, same, reached⟩
  · refine run_cons.mpr ⟨trivial, s₁, ?_, ?_⟩
    · rw [step, if_pos inside, translateToStatePoint, findNearestThen, finds [], append_nil]
      exact traversed
    · rw [lengths, length_reverse] at ran
      exact ran
  · rw [log, thunks]

/-- Transitions follow the tree, whatever programs and their thunks did before: the links lead from every point to the
nearest one, a translation leaves the requested point nearest, and it runs the thunks on the way once each. -/
theorem transitions_follow_tree {events : List (Event θ)} (ran : run step (fun _ _ => True) start events = some s) :
    (∀ p < s.store.size, Leads s.store.nearer p (s.store.nearestPoint (s.store.spaceOf p)) ∧
      (s.store.nearer p = none ↔ p = s.store.nearestPoint (s.store.spaceOf p))) ∧
    (∀ requested nearest, .translated requested nearest ∈ s.log → nearest = requested) ∧
    ∀ t < s.store.size, ∃ l ups downs s',
      Climb (parent s.store) (s.store.nearestPoint (s.store.spaceOf t)) ups l ∧ Climb (parent s.store) t downs l ∧
      (ups ++ downs).Nodup ∧ LowestCommon (parent s.store) (s.store.nearestPoint (s.store.spaceOf t)) t l ∧
      run step (fun _ _ => True) s (.translate t :: List.replicate (ups.length + downs.length) .returns) = some s' ∧
      s'.log = s.log ++ (ups.filterMap (leaveThunk s.store) ++ downs.reverse.filterMap (enterThunk s.store)).map Entry.ran ++
        [.translated t t] ∧
      s'.stack = s.stack ∧ s'.store.nearestPoint (s.store.spaceOf t) = t := by
  have valid := valid_of_run ran
  refine ⟨?_, valid.log, fun t => translate_quiet valid⟩
  intro p inside
  refine ⟨valid.tree.leads p inside, fun none => (valid.tree.eq_nearest inside none).symm, ?_⟩
  intro nearest
  rw [nearest]
  exact valid.tree.root_none (valid.tree.within p inside)

/-- The thunk that leaves point 2 translates back to it, before the translation to point 0 goes on. -/
def detour : List (Event ℕ) :=
  [.makeSpace, .execute 0 1 2, .returns, .execute 0 3 4, .returns, .translate 0, .translate 2, .returns, .returns, .returns,
    .returns]

theorem transitions_follow_tree_detour : ∃ s, run step (fun _ _ => True) start detour = some s ∧
    s.log = [.ran 1, .ran 3, .ran 4, .ran 3, .translated 2 2, .ran 4, .ran 2, .translated 0 0] ∧
    ∀ p < s.store.size, Leads s.store.nearer p (s.store.nearestPoint (s.store.spaceOf p)) := by
  have log : (run step (fun _ _ => True) start detour).map (fun s => s.log) =
      some [.ran 1, .ran 3, .ran 4, .ran 3, .translated 2 2, .ran 4, .ran 2, .translated 0 0] := by decide
  obtain ⟨s, ran, log⟩ := map_eq_some_iff.mp log
  exact ⟨s, ran, log, fun p inside => ((transitions_follow_tree ran).1 p inside).1⟩

end MitScheme.Runtime.StateSpaces
