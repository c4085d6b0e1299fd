import Mathlib.Data.List.Chain

/-!
The nodes of a tree have links to the next node on the way to its root. The root moves to a neighbour
by reversing one link; the tree grows by a node that becomes the root.
-/

namespace MitScheme.Library.Rerooting

open List Option

variable {α β : Type} {nearer : α → Option α} {a b c q r s : α}

/-- Following the links from a node ends at a root. -/
inductive Leads (nearer : α → Option α) : α → α → Prop where
  | root {r : α} (none : nearer r = none) : Leads nearer r r
  | link {a b r : α} (near : nearer a = some b) (leads : Leads nearer b r) : Leads nearer a r

def Adjacent (nearer : α → Option α) (a b : α) : Prop := nearer a = some b ∨ nearer b = some a

theorem Adjacent.symm (adjacent : Adjacent nearer a b) : Adjacent nearer b a := Or.symm adjacent

section
variable (leads : Leads nearer a r)
include leads

theorem Leads.is_root : nearer r = none := by
  induction leads with
  | root none => exact none
  | link _ _ ih => exact ih

theorem Leads.unique (leads' : Leads nearer a s) : r = s := by
  induction leads with
  | root none =>
    cases leads' with
    | root => rfl
    | link near => exact nomatch none.symm.trans near
  | link near _ ih =>
    cases leads' with
    | root none => exact nomatch none.symm.trans near
    | link near' leads' =>
      obtain rfl := some.inj (near.symm.trans near')
      exact ih leads'

theorem Leads.of_root (none : nearer a = none) : r = a :=
  leads.unique (.root none)

theorem Leads.one_way (near : nearer a = some b) : nearer b ≠ some a := by
  induction leads generalizing b with
  | root none => exact nomatch none.symm.trans near
  | @link a b' r near' leads ih =>
    obtain rfl := some.inj (near'.symm.trans near)
    intro back
    exact ih back near'

end

/-- The nodes from one up to an ancestor, without the ancestor. -/
inductive Climb (parent : α → Option α) : α → List α → α → Prop where
  | nil {a : α} : Climb parent a [] a
  | cons {a b l : α} {path : List α} (up : parent a = some b) (climb : Climb parent b path l) : Climb parent a (a :: path) l

variable {parent : α → Option α} {path path' : List α} {l m t : α}

theorem Climb.append (climb : Climb parent a path b) (climb' : Climb parent b path' l) : Climb parent a (path ++ path') l := by
  induction climb with
  | nil => exact climb'
  | cons up _ ih => exact .cons up (ih climb')

theorem Climb.has_parent (climb : Climb parent a path l) : ∀ x ∈ path, ∃ y, parent x = some y := by
  induction climb with
  | nil => exact nofun
  | cons up _ ih => exact forall_mem_cons.mpr ⟨⟨_, up⟩, ih⟩

theorem Leads.climb (leads : Leads nearer a r) : ∃ path, Climb nearer a path r := by
  induction leads with
  | root => exact ⟨[], .nil⟩
  | link near _ ih =>
    obtain ⟨path, climb⟩ := ih
    exact ⟨_, .cons near climb⟩

theorem Climb.eq_of_root (none : parent l = none) (climb : Climb parent a path l) (climb' : Climb parent a path' l) :
    path = path' := by
  induction climb generalizing path' with
  | nil =>
    cases climb' with
    | nil => rfl
    | cons up _ => exact nomatch none.symm.trans up
  | cons up _ ih =>
    cases climb' with
    | nil => exact nomatch none.symm.trans up
    | cons up' climb' =>
      obtain rfl := some.inj (up.symm.trans up')
      rw [ih none climb']

theorem Climb.from_mem (climb : Climb parent a path l) : ∀ x ∈ path, ∃ front back,
    path = front ++ x :: back ∧ Climb parent x (x :: back) l := by
  induction climb with
  | nil => exact nofun
  | @cons a b l path up climb ih =>
    refine forall_mem_cons.mpr ⟨⟨[], path, rfl, .cons up climb⟩, ?_⟩
    intro x member
    obtain ⟨front, back, split, climb'⟩ := ih x member
    exact ⟨a :: front, back, congrArg (a :: ·) split, climb'⟩

theorem Climb.nodup (none : parent l = none) (climb : Climb parent a path l) : path.Nodup := by
  induction climb with
  | nil => exact nodup_nil
  | @cons a b l path up climb ih =>
    refine nodup_cons.mpr ⟨?_, ih none⟩
    intro member
    obtain ⟨front, back, split, climb'⟩ := climb.from_mem a member
    have same := Climb.eq_of_root none (.cons up climb) climb'
    have length := congrArg length split
    have length' := congrArg List.length same
    simp only [length_append, length_cons] at length length'
    omega

theorem Climb.nodup_of_rank {rank : α → ℕ} (smaller : ∀ a b, parent a = some b → rank b < rank a)
    (climb : Climb parent a path l) : path.Nodup ∧ ∀ x ∈ path, rank x ≤ rank a := by
  induction climb with
  | nil => exact ⟨nodup_nil, nofun⟩
  | @cons a b l path up climb ih =>
    obtain ⟨distinct, below⟩ := ih
    have less := smaller a b up
    refine ⟨nodup_cons.mpr ⟨?_, distinct⟩, forall_mem_cons.mpr ⟨le_refl _, ?_⟩⟩
    · intro member
      exact less.not_ge (below a member)
    · intro x member
      exact (below x member).trans (less.le)

theorem Climb.passes (climb : Climb parent a path l) (climb' : Climb parent a path' m) :
    m ∈ path ∨ ∃ rest, Climb parent l rest m := by
  induction climb generalizing path' with
  | nil => exact .inr ⟨path', climb'⟩
  | cons up _ ih =>
    cases climb' with
    | nil => exact .inl mem_cons_self
    | cons up' climb' =>
      obtain rfl := some.inj (up.symm.trans up')
      exact (ih climb').imp (mem_cons_of_mem _) id

/-- The last ancestor that two nodes have in common. -/
structure LowestCommon (parent : α → Option α) (a b l : α) : Prop where
  left : ∃ path, Climb parent a path l
  right : ∃ path, Climb parent b path l
  lowest : ∀ m path path', Climb parent a path m → Climb parent b path' m → ∃ rest, Climb parent l rest m

/-- The root is moved along the way to it by leaving the nodes up to the lowest common ancestor, and then entering those
down to where the way starts. -/
theorem way_meets {enter leave crossed : α → β} (oneWay : ∀ x y, nearer x = some y → nearer y ≠ some x)
    (links : ∀ x y, nearer x = some y → parent x = some y ∧ crossed x = enter x ∨ parent y = some x ∧ crossed x = leave y)
    (way : Climb nearer t path c) : ∃ l ups downs, Climb parent c ups l ∧
    Climb parent t downs l ∧ (∀ x ∈ downs, nearer x = parent x) ∧ (∀ x ∈ ups, ∀ y, parent x = some y → nearer y = some x) ∧
    path.reverse.map crossed = ups.map leave ++ downs.reverse.map enter := by
  induction way with
  | @nil c => exact ⟨c, [], [], .nil, .nil, nofun, nofun, rfl⟩
  | @cons t p path c near _ ih =>
    obtain ⟨l, ups, downs, climbUps, climbDowns, down, up, crosses⟩ := ih
    rw [reverse_cons, map_append, crosses]
    rcases links t p near with ⟨isParent, entered⟩ | ⟨isChild, left⟩
    · refine ⟨l, ups, t :: downs, climbUps, .cons isParent climbDowns, ?_, up, ?_⟩
      · exact forall_mem_cons.mpr ⟨near.trans isParent.symm, down⟩
      · rw [reverse_cons, map_append, append_assoc, map_singleton, map_singleton, entered]
    · -- The way goes down from `t`, and so it does from `p`.
      cases climbDowns with
      | cons _ _ =>
        have back := down p mem_cons_self
        exact absurd (back.trans isChild) (oneWay t p near)
      | nil =>
        refine ⟨t, ups ++ [p], [], climbUps.append (.cons isChild .nil), .nil, nofun, ?_, ?_⟩
        · intro x member y isParent
          rcases mem_append.mp member with member | member
          · exact up x member y isParent
          · rw [mem_singleton.mp member] at isParent ⊢
            obtain rfl := some.inj (isParent.symm.trans isChild)
            exact near
        · rw [map_append, map_singleton, left]
          simp

theorem lowest_of_meets (oneWay : ∀ x y, nearer x = some y → nearer y ≠ some x) {ups downs : List α}
    (climbUps : Climb parent c ups l) (climbDowns : Climb parent t downs l) (down : ∀ x ∈ downs, nearer x = parent x)
    (up : ∀ x ∈ ups, ∀ y, parent x = some y → nearer y = some x) : LowestCommon parent c t l := by
  refine ⟨⟨ups, climbUps⟩, ⟨downs, climbDowns⟩, ?_⟩
  intro m path path' climb climb'
  rcases climbUps.passes climb with inUps | later
  · rcases climbDowns.passes climb' with inDowns | later
    · obtain ⟨y, isParent⟩ := climbUps.has_parent m inUps
      exact absurd (up m inUps y isParent) (oneWay m y ((down m inDowns).trans isParent))
    · exact later
  · exact later

theorem ne_of_near (near : nearer q = some r) (none : nearer r = none) : r ≠ q := by
  rintro rfl
  exact nomatch none.symm.trans near

variable [DecidableEq α]

/-- The root `r` gives way to its neighbour `q`. -/
def move (nearer : α → Option α) (r q : α) : α → Option α :=
  fun a => if a = q then none else if a = r then some q else nearer a

theorem move_root : move nearer r q q = none := if_pos rfl

theorem move_old (different : r ≠ q) : move nearer r q r = some q := (if_neg different).trans (if_pos rfl)

theorem move_other (notNew : a ≠ q) (notOld : a ≠ r) : move nearer r q a = nearer a := (if_neg notNew).trans (if_neg notOld)

theorem Leads.move (near : nearer q = some r) (none : nearer r = none) (leads : Leads nearer a r) :
    Leads (move nearer r q) a q := by
  have different := ne_of_near near none
  have atOld : Leads (Rerooting.move nearer r q) r q := .link (move_old different) (.root move_root)
  generalize same : r = r' at leads
  induction leads with
  | root => exact same ▸ atOld
  | @link a b r' near' _ ih =>
    subst same
    by_cases isNew : a = q
    · exact isNew ▸ .root move_root
    · have notOld : a ≠ r := by
        rintro rfl
        exact nomatch none.symm.trans near'
      exact .link ((move_other isNew notOld).trans near') (ih rfl)

theorem Leads.move_other (near : nearer q = some r) (none : nearer r = none) (leads : Leads nearer a s) (other : s ≠ r) :
    Leads (Rerooting.move nearer r q) a s := by
  induction leads with
  | @root s none' =>
    have notNew : s ≠ q := by
      rintro rfl
      exact nomatch none'.symm.trans near
    exact .root ((Rerooting.move_other notNew other).trans none')
  | @link a b s near' leads ih =>
    have notNew : a ≠ q := by
      rintro rfl
      obtain rfl := some.inj (near.symm.trans near')
      exact other (leads.of_root none)
    have notOld : a ≠ r := by
      rintro rfl
      exact nomatch none.symm.trans near'
    exact .link ((Rerooting.move_other notNew notOld).trans near') (ih other)

theorem adjacent_move (near : nearer q = some r) (none : nearer r = none) (adjacent : Adjacent nearer a b) :
    Adjacent (move nearer r q) a b := by
  have different := ne_of_near near none
  have kept : ∀ a b, nearer a = some b → Adjacent (move nearer r q) a b := by
    intro a b near'
    have notOld : a ≠ r := by
      rintro rfl
      exact nomatch none.symm.trans near'
    by_cases isNew : a = q
    · subst isNew
      obtain rfl := some.inj (near.symm.trans near')
      exact .inr (move_old different)
    · exact .inl ((Rerooting.move_other isNew notOld).trans near')
  rcases adjacent with near' | near'
  · exact kept a b near'
  · exact (kept b a near').symm

def grow (nearer : α → Option α) (r new : α) : α → Option α := fun a => if a = r then some new else nearer a

theorem grow_old {new : α} : grow nearer r new r = some new := if_pos rfl

theorem grow_other {new : α} (other : a ≠ r) : grow nearer r new a = nearer a := if_neg other

theorem Leads.grow {new : α} (fresh : nearer new = none) (different : new ≠ r) (leads : Leads nearer a r) :
    Leads (grow nearer r new) a new := by
  have atNew : Leads (Rerooting.grow nearer r new) new new := .root ((grow_other different).trans fresh)
  generalize same : r = r' at leads
  induction leads with
  | root =>
    subst same
    exact .link grow_old atNew
  | @link a b r' near _ ih =>
    subst same
    by_cases isOld : a = r
    · subst isOld
      exact .link grow_old atNew
    · exact .link ((grow_other isOld).trans near) (ih rfl)

theorem Leads.grow_other {new : α} (none : nearer r = none) (leads : Leads nearer a s) (other : s ≠ r) :
    Leads (Rerooting.grow nearer r new) a s := by
  induction leads with
  | root none' => exact .root ((Rerooting.grow_other other).trans none')
  | @link a b s near _ ih =>
    have notOld : a ≠ r := by
      rintro rfl
      exact nomatch none.symm.trans near
    exact .link ((Rerooting.grow_other notOld).trans near) (ih other)

theorem adjacent_grow {new : α} (none : nearer r = none) (adjacent : Adjacent nearer a b) :
    Adjacent (grow nearer r new) a b := by
  have kept : ∀ a b, nearer a = some b → grow nearer r new a = some b := by
    intro a b near
    refine (grow_other ?_).trans near
    rintro rfl
    exact nomatch none.symm.trans near
  exact adjacent.imp (kept a b) (kept b a)

variable {α κ E : Type} [DecidableEq α] {nearer parent parent' : α → Option α} {key key' : α → Option κ}
  {env env' : α → E} {r q s new : α} {value : E} {temp : κ → E} {t : κ}

/-- The variable has its value at the root; a cell has the value on the side of its link where the root is not. -/
structure Swapped (nearer parent : α → Option α) (key : α → Option κ) (env : α → E) (root : α) (value : E) (temp : κ → E) :
    Prop where
  value : value = env root
  temps : ∀ n p t, parent n = some p → key n = some t → temp t = if nearer p = some n then env p else env n
  same : ∀ n p, parent n = some p → key n = none → env n = env p
  once : ∀ n n' t, key n = some t → key n' = some t → n = n'

theorem Swapped.move_elsewhere (swapped : Swapped nearer parent key env s value temp)
    (apart : ∀ n p t, parent n = some p → key n = some t → p ≠ q ∧ p ≠ r) :
    Swapped (move nearer r q) parent key env s value temp := by
  refine ⟨swapped.value, ?_, swapped.same, swapped.once⟩
  intro n p t isParent bound
  obtain ⟨notNew, notOld⟩ := apart n p t isParent bound
  rw [move_other notNew notOld]
  exact swapped.temps n p t isParent bound

theorem Swapped.grow_elsewhere (swapped : Swapped nearer parent key env s value temp)
    (apart : ∀ n p t, parent n = some p → key n = some t → p ≠ r) (newParent : parent' new = some r)
    (oldParent : ∀ n, n ≠ new → parent' n = parent n) (newKey : key' new = none) (oldKey : ∀ n, n ≠ new → key' n = key n)
    (keeps : env new = env r) : Swapped (grow nearer r new) parent' key' env s value temp := by
  refine ⟨swapped.value, ?_, ?_, ?_⟩
  · intro n p t isParent bound
    have isOld : n ≠ new := by
      rintro rfl
      exact nomatch newKey.symm.trans bound
    rw [oldParent n isOld] at isParent
    rw [oldKey n isOld] at bound
    rw [grow_other (apart n p t isParent bound)]
    exact swapped.temps n p t isParent bound
  · intro n p isParent plain
    by_cases isNew : n = new
    · subst isNew
      obtain rfl := some.inj (newParent.symm.trans isParent)
      exact keeps
    · rw [oldParent n isNew] at isParent
      rw [oldKey n isNew] at plain
      exact swapped.same n p isParent plain
  · intro n n' t bound bound'
    have isOld : ∀ n, key' n = some t → n ≠ new := by
      rintro n bound rfl
      exact nomatch newKey.symm.trans bound
    rw [oldKey n (isOld n bound)] at bound
    rw [oldKey n' (isOld n' bound')] at bound'
    exact swapped.once n n' t bound bound'

variable [DecidableEq κ]

def exchange (key : Option κ) (value : E) (temp : κ → E) : E × (κ → E) :=
  match key with
  | some t => (temp t, fun t' => if t' = t then value else temp t')
  | none => (value, temp)

theorem exchange_value_self {temp : κ → E} : (exchange (some t) value temp).2 t = value := if_pos rfl

theorem exchange_other {k : Option κ} (other : k ≠ some t) : (exchange k value temp).2 t = temp t := by
  cases k with
  | none => rfl
  | some t' =>
    apply if_neg
    rintro rfl
    exact other rfl

theorem move_side {p n : α} (near : nearer q = some r) (none : nearer r = none) (notNew : ¬(p = r ∧ n = q))
    (notOld : ¬(p = q ∧ n = r)) : move nearer r q p = some n ↔ nearer p = some n := by
  by_cases isNew : p = q
  · subst isNew
    rw [move_root, near]
    exact ⟨nofun, fun same => absurd ⟨rfl, (some.inj same).symm⟩ notOld⟩
  · by_cases isOld : p = r
    · subst isOld
      rw [move_old (ne_of_near near none), none]
      exact ⟨fun same => absurd ⟨rfl, (some.inj same).symm⟩ notNew, nofun⟩
    · rw [move_other isNew isOld]

/-- The root moves along an edge, the child of which exchanges its binding. -/
theorem Swapped.cross {c d : α} (swapped : Swapped nearer parent key env r value temp) (near : nearer q = some r)
    (none : nearer r = none) (child : parent c = some d) (edge : c = q ∧ d = r ∨ c = r ∧ d = q) (acyclic : parent d ≠ some c) :
    Swapped (move nearer r q) parent key env q (exchange (key c) value temp).1 (exchange (key c) value temp).2 := by
  refine ⟨?_, ?_, swapped.same, swapped.once⟩
  · cases bound : key c with
    | none =>
      have same := swapped.same c d child bound
      rcases edge with ⟨rfl, rfl⟩ | ⟨rfl, rfl⟩
      · exact swapped.value.trans same.symm
      · exact swapped.value.trans same
    | some t =>
      have held := swapped.temps c d t child bound
      rcases edge with ⟨rfl, rfl⟩ | ⟨rfl, rfl⟩
      · rwa [none] at held
      · rwa [near, if_pos rfl] at held
  · intro n p t isParent bound
    by_cases here : n = c
    · subst here
      obtain rfl := some.inj (child.symm.trans isParent)
      rw [bound, exchange_value_self]
      rcases edge with ⟨rfl, rfl⟩ | ⟨rfl, rfl⟩
      · rw [move_old (ne_of_near near none), if_pos rfl]
        exact swapped.value
      · rw [move_root]
        exact swapped.value
    · have other : key c ≠ some t := fun same => here (swapped.once n c t bound same)
      have side : move nearer r q p = some n ↔ nearer p = some n := by
        rcases edge with ⟨rfl, rfl⟩ | ⟨rfl, rfl⟩
        · apply move_side near none (fun same => here same.2)
          rintro ⟨rfl, rfl⟩
          exact acyclic isParent
        · refine move_side near none ?_ (fun same => here same.2)
          rintro ⟨rfl, rfl⟩
          exact acyclic isParent
      rw [exchange_other other, swapped.temps n p t isParent bound]
      simp [side]

theorem Swapped.grow (swapped : Swapped nearer parent key env r value temp) (none : nearer r = none) (different : new ≠ r)
    (childless : ∀ n, parent n ≠ some new) (newParent : parent' new = some r)
    (oldParent : ∀ n, n ≠ new → parent' n = parent n) (oldKey : ∀ n, n ≠ new → key' n = key n)
    (oldEnv : ∀ n, n ≠ new → env' n = env n) (fresh : ∀ n t, key' new = some t → key n ≠ some t)
    (waits : ∀ t, key' new = some t → temp t = env' new) (plain : key' new = Option.none → env' new = env r) :
    Swapped (grow nearer r new) parent' key' env' new (exchange (key' new) value temp).1 (exchange (key' new) value temp).2 := by
  have envRoot : env' r = env r := oldEnv r different.symm
  refine ⟨?_, ?_, ?_, ?_⟩
  · cases bound : key' new with
    | none => exact swapped.value.trans (plain bound).symm
    | some t => exact waits t bound
  · intro n p t isParent bound
    by_cases isNew : n = new
    · subst isNew
      obtain rfl := some.inj (newParent.symm.trans isParent)
      rw [bound, exchange_value_self, grow_old, if_pos rfl, envRoot]
      exact swapped.value
    · have isOld := isParent
      rw [oldParent n isNew] at isOld
      have notNew : p ≠ new := by
        rintro rfl
        exact childless n isOld
      have held := bound
      rw [oldKey n isNew] at held
      have side : Rerooting.grow nearer r new p = some n ↔ nearer p = some n := by
        by_cases isRoot : p = r
        · subst isRoot
          rw [grow_old, none]
          exact ⟨fun same => absurd (some.inj same).symm isNew, nofun⟩
        · rw [grow_other isRoot]
      rw [exchange_other (fun same => fresh n t same held), swapped.temps n p t isOld held, oldEnv n isNew, oldEnv p notNew]
      simp [side]
  · intro n p isParent plain'
    by_cases isNew : n = new
    · subst isNew
      obtain rfl := some.inj (newParent.symm.trans isParent)
      rw [plain plain', envRoot]
    · rw [oldParent n isNew] at isParent
      rw [oldKey n isNew] at plain'
      have notNew : p ≠ new := by
        rintro rfl
        exact childless n isParent
      rw [oldEnv n isNew, oldEnv p notNew]
      exact swapped.same n p isParent plain'
  · intro n n' t bound bound'
    by_cases isNew : n = new
    · by_cases isNew' : n' = new
      · exact isNew.trans isNew'.symm
      · rw [oldKey n' isNew'] at bound'
        exact absurd bound' (fresh n' t (isNew ▸ bound))
    · rw [oldKey n isNew] at bound
      by_cases isNew' : n' = new
      · exact absurd bound (fresh n t (isNew' ▸ bound'))
      · rw [oldKey n' isNew'] at bound'
        exact swapped.once n n' t bound bound'

end MitScheme.Library.Rerooting
