import MitScheme.Runtime.RbTree.Deletion

namespace MitScheme.Runtime.RbTrees

open MitScheme.Library Shape

variable {K V A : Type} {tree : Tree K V} {d : Direction} {i fuel : ℕ} {k : K} {v : V} {t : Shape K V}

theorem traversal_right : traversal .right t = t.inorder.reverse := rfl

theorem foldLoop_eq (kons : K → V → A → A) {pre post : List (ℕ × K × V)} (laid : Represents tree t)
    (order : traversal d t = pre ++ post) (enough : post.length < fuel) (acc : A) :
    foldLoop tree d.negate kons fuel (post.head?.map Prod.fst) acc =
      .ok ((associations post).foldl (fun acc p => kons p.1 p.2 acc) acc) := by
  induction post generalizing pre fuel acc with
  | nil =>
    cases fuel with
    | zero => exact absurd enough (Nat.not_lt_zero _)
    | succ fuel => rfl
  | cons p post ih =>
    cases fuel with
    | zero => exact absurd enough (Nat.not_lt_zero _)
    | succ fuel =>
      obtain ⟨i, k, v⟩ := p
      obtain ⟨p, record, rfl, rfl⟩ := laid.record order
      have step := laid.stepNode order
      have later : traversal d t = (pre ++ [(i, p.key, p.datum)]) ++ post := by
        rw [order, List.append_assoc]
        rfl
      have rest := ih later (Nat.lt_of_succ_lt_succ enough) (kons p.key p.datum acc)
      unfold foldLoop
      rw [show ((i, p.key, p.datum) :: post).head?.map Prod.fst = some i from rfl, record, ok_bind, step, ok_bind, rest]
      rfl

variable [LinearOrder K] {es : List (K × V)} {key : K}

section
variable (valid : Valid tree es t)
include valid

theorem Valid.foldRight (kons : K → V → A → A) (knil : A) :
    rbTreeFoldRight kons knil tree = .ok (es.foldr (fun p acc => kons p.1 p.2 acc) knil) := by
  have run := @foldLoop_eq K V A tree .right tree.fuel t kons [] t.inorder.reverse valid.laid rfl
    (by rw [List.length_reverse]; exact valid.laid.size_lt) knil
  unfold rbTreeFoldRight maxNode
  rw [valid.laid.extremeNode, ← valid.entries]
  refine run.trans ?_
  rw [associations, List.map_reverse, List.foldl_reverse]
  rfl

theorem Valid.toAlist : rbTreeToAlist tree = .ok es := by
  unfold rbTreeToAlist
  rw [valid.foldRight]
  simp

theorem Valid.keyList : rbTreeKeyList tree = .ok (es.map Prod.fst) := by
  unfold rbTreeKeyList
  rw [valid.foldRight, List.map_eq_foldr]

theorem Valid.datumList : rbTreeDatumList tree = .ok (es.map Prod.snd) := by
  unfold rbTreeDatumList
  rw [valid.foldRight]
  simp

end

section
variable (valid : Valid tree es t)
include valid

theorem Valid.record {pre post : List (ℕ × K × V)}
    (order : t.inorder = pre ++ (i, k, v) :: post) : ∃ p, tree.node (some i) = .ok p ∧ p.key = k ∧ p.datum = v :=
  Represents.record (d := .left) valid.laid order

theorem Valid.find (key : K) : (RbTrees.findNode tree key = .ok none ∧ lookup key es = none) ∨
    ∃ i p, RbTrees.findNode tree key = .ok (some i) ∧ tree.node (some i) = .ok p ∧ lookup key es = some p.datum := by
  rcases valid.findNode key with absent | ⟨i, v, pre, post, found, order⟩
  · exact .inl absent
  · obtain ⟨p, record, -, rfl⟩ := valid.record order
    exact .inr ⟨i, p, found, record, valid.lookup_place order⟩

theorem Valid.lookup (key : K) (default : V) :
    rbTreeLookup tree key default = .ok ((Library.lookup key es).getD default) := by
  unfold rbTreeLookup
  rcases valid.find key with ⟨found, absent⟩ | ⟨i, p, found, record, present⟩
  · rw [found, absent]
    rfl
  · rw [found, ok_bind, record, present]
    rfl

theorem Valid.contains (key : K) : rbTreeContains tree key = .ok (Library.lookup key es).isSome := by
  unfold rbTreeContains
  rcases valid.find key with ⟨found, absent⟩ | ⟨i, p, found, record, present⟩
  · rw [found, absent]
    rfl
  · rw [found, present]
    rfl

theorem Valid.ref (key : K) (fail : Option (Unit → V)) (succeed : Option (V → V)) :
    rbTreeRef tree key fail succeed = (Library.lookup key es).elim
      (fail.elim (.error .badRangeArgument) fun fail => .ok (fail ())) fun datum => .ok (applySucceed succeed datum) := by
  unfold rbTreeRef
  rcases valid.find key with ⟨found, absent⟩ | ⟨i, p, found, record, present⟩
  · rw [found, ok_bind, absent]
    cases fail <;> rfl
  · rw [found, ok_bind, record, present]
    rfl

end

def endOf (d : Direction) (es : List (K × V)) : Option (K × V) := if d = .left then es.head? else es.getLast?

omit [LinearOrder K] in
theorem head_traversal (d : Direction) (t : Shape K V) : (traversal d t).head?.map Prod.snd = endOf d t.entries := by
  cases d with
  | left => exact (List.head?_map ..).symm
  | right =>
    rw [traversal_right, List.head?_reverse]
    exact (List.getLast?_map ..).symm

theorem Valid.extremePair (valid : Valid tree es t) (d : Direction) : extremePair tree d = .ok (endOf d es) := by
  have ends := head_traversal d t
  rw [valid.entries] at ends
  unfold RbTrees.extremePair
  rw [valid.laid.extremeNode, ok_bind, ← ends]
  cases order : traversal d t with
  | nil => rfl
  | cons p rest =>
    obtain ⟨i, k, v⟩ := p
    obtain ⟨p, record, rfl, rfl⟩ := @Represents.record K V tree d i k v t [] rest valid.laid order
    rw [List.head?_cons, Option.map_some, record]
    rfl

def withoutEnd (d : Direction) (es : List (K × V)) : List (K × V) := if d = .left then es.tail else es.dropLast

theorem Valid.deleteExtremePair (valid : Valid tree es t) (d : Direction) :
    ∃ tree' t', deleteExtremePair tree d = .ok (tree', endOf d es) ∧ Valid tree' (withoutEnd d es) t' := by
  have ends := head_traversal d t
  rw [valid.entries] at ends
  unfold RbTrees.deleteExtremePair
  rw [valid.laid.extremeNode, ok_bind]
  cases order : traversal d t with
  | nil =>
    rw [order, List.head?_nil] at ends
    refine ⟨tree, t, by rw [← ends]; rfl, ?_⟩
    have empty : es = [] := by
      have none_left : t.inorder = [] := by
        cases d with
        | left => exact order
        | right => exact List.reverse_eq_nil_iff.mp order
      rw [← valid.entries, Shape.entries, none_left]
      rfl
    rw [empty] at valid ⊢
    cases d <;> exact valid
  | cons p rest =>
    obtain ⟨i, k, v⟩ := p
    obtain ⟨p, record, rfl, rfl⟩ := @Represents.record K V tree d i k v t [] rest valid.laid order
    rw [order, List.head?_cons] at ends
    rw [List.head?_cons, Option.map_some, record, ← ends]
    cases d with
    | left =>
      have order : t.inorder = [] ++ (i, p.key, p.datum) :: rest := order
      obtain ⟨tree', t', ran, valid'⟩ := valid.deleteNode order
      have entries := valid.entries
      rw [Shape.entries, order] at entries
      rw [ran, ← entries]
      exact ⟨tree', t', rfl, valid'⟩
    | right =>
      have order : t.inorder = rest.reverse ++ (i, p.key, p.datum) :: [] := by
        rw [← List.reverse_reverse t.inorder, ← traversal_right, order, List.reverse_cons]
      obtain ⟨tree', t', ran, valid'⟩ := valid.deleteNode order
      have entries := valid.entries
      rw [Shape.entries, order] at entries
      rw [ran, ← entries]
      refine ⟨tree', t', rfl, ?_⟩
      simpa [withoutEnd, associations] using valid'

theorem Valid.update (valid : Valid tree es t) (key : K) (updater : V → V) (fail : Option (Unit → V))
    (succeed : Option (V → V)) :
    (Library.lookup key es = none ∧ rbTreeUpdate tree key updater fail succeed = .error .wrongNumberOfArguments) ∨
    ∃ tree' t' datum, Library.lookup key es = some datum ∧ rbTreeUpdate tree key updater fail succeed = .ok tree' ∧
      Valid tree' (insertEntry key (updater (applySucceed succeed datum)) es) t' := by
  unfold rbTreeUpdate
  rcases valid.findNode key with ⟨found, absent⟩ | ⟨i, v, pre, post, found, order⟩
  · left
    rw [found, ok_bind]
    cases fail <;> exact ⟨absent, rfl⟩
  · right
    obtain ⟨p, record, -, rfl⟩ := valid.record order
    obtain ⟨tree', t', ran, valid', -⟩ := valid.setDatum order (updater (applySucceed succeed p.datum))
    rw [found, ok_bind, record]
    refine ⟨tree', t', p.datum, valid.lookup_place order, ran, ?_⟩
    have entries := valid.entries
    rw [Shape.entries, order, associations_place] at entries
    have sorted := valid.sorted
    rw [← entries, sorted_node] at sorted
    rw [← entries, insertEntry_present sorted.2.2.1 sorted.2.2.2]
    exact valid'

theorem Valid.intern (valid : Valid tree es t) (key : K) (fail : Unit → V) :
    ∃ tree' t', rbTreeIntern tree key fail = .ok (tree', (Library.lookup key es).getD (fail ())) ∧
      Valid tree' (if (Library.lookup key es).isSome then es else insertEntry key (fail ()) es) t' := by
  unfold rbTreeIntern
  rcases valid.find key with ⟨found, absent⟩ | ⟨i, p, found, record, present⟩
  · obtain ⟨tree', t', ran, valid'⟩ := valid.insert key (fail ())
    rw [found, ok_bind, ran, absent]
    exact ⟨tree', t', rfl, valid'⟩
  · rw [found, ok_bind, record, present]
    exact ⟨tree, t, rfl, valid⟩

theorem valid_clear (tree : Tree K V) : Valid (rbTreeClear tree) [] .leaf where
  laid := ⟨rfl, .empty⟩
  balanced := ⟨0, .leaf⟩
  entries := rfl
  sorted := List.Pairwise.nil

theorem mapLoop_valid (procedure : K → V → V) {pre post : List (ℕ × K × V)} (valid : Valid tree es t)
    (order : t.inorder = pre ++ post) (enough : post.length < fuel) :
    ∃ tree' t', mapLoop procedure fuel tree (post.head?.map Prod.fst) = .ok tree' ∧
      Valid tree' (associations pre ++ (associations post).map fun p => (p.1, procedure p.1 p.2)) t' := by
  induction post generalizing pre fuel tree t es with
  | nil =>
    cases fuel with
    | zero => exact absurd enough (Nat.not_lt_zero _)
    | succ fuel =>
      have entries := valid.entries
      rw [Shape.entries, order, List.append_nil] at entries
      refine ⟨tree, t, rfl, ?_⟩
      rw [entries]
      simpa [associations] using valid
  | cons p post ih =>
    cases fuel with
    | zero => exact absurd enough (Nat.not_lt_zero _)
    | succ fuel =>
      obtain ⟨i, k, v⟩ := p
      obtain ⟨p, record, rfl, rfl⟩ := valid.record order
      obtain ⟨tree1, t1, ran1, valid1, order1⟩ := valid.setDatum order (procedure p.key p.datum)
      have step : nextNode tree1 (some i) = .ok (post.head?.map Prod.fst) :=
        Represents.stepNode (d := .left) valid1.laid order1
      have later : t1.inorder = (pre ++ [(i, p.key, procedure p.key p.datum)]) ++ post := by
        rw [order1, List.append_assoc]
        rfl
      obtain ⟨tree2, t2, ran2, valid2⟩ := ih valid1 later (Nat.lt_of_succ_lt_succ enough)
      unfold mapLoop
      rw [show ((i, p.key, p.datum) :: post).head?.map Prod.fst = some i from rfl, record, ok_bind, ran1, ok_bind, step]
      refine ⟨tree2, t2, ran2, ?_⟩
      simpa [associations] using valid2

theorem Valid.map (valid : Valid tree es t) (procedure : K → V → V) :
    ∃ tree' t', rbTreeMap procedure tree = .ok tree' ∧ Valid tree' (es.map fun p => (p.1, procedure p.1 p.2)) t' := by
  have order : t.inorder = [] ++ t.inorder := rfl
  obtain ⟨tree', t', ran, valid'⟩ := mapLoop_valid procedure valid order valid.laid.size_lt
  unfold rbTreeMap minNode
  rw [valid.laid.extremeNode, ← valid.entries]
  exact ⟨tree', t', ran, valid'⟩

def Agree (datumEq : V → V → Bool) (es fs : List (K × V)) : Prop :=
  List.Forall₂ (fun p q => p.1 = q.1 ∧ datumEq p.2 q.2) es fs

instance (datumEq : V → V → Bool) (es fs : List (K × V)) : Decidable (Agree datumEq es fs) :=
  inferInstanceAs (Decidable (List.Forall₂ _ es fs))

theorem equalLoop_eq {x y : Tree K V} {tx ty : Shape K V} {es fs : List (K × V)} (datumEq : V → V → Bool)
    {pre post pre' post' : List (ℕ × K × V)} (validx : Valid x es tx) (validy : Valid y fs ty)
    (orderx : tx.inorder = pre ++ post) (ordery : ty.inorder = pre' ++ post') (enough : post.length < fuel) :
    equalLoop x y datumEq fuel (post.head?.map Prod.fst) (post'.head?.map Prod.fst) =
      .ok (decide (Agree datumEq (associations post) (associations post'))) := by
  induction post generalizing pre pre' post' fuel with
  | nil =>
    cases fuel with
    | zero => exact absurd enough (Nat.not_lt_zero _)
    | succ fuel => cases post' <;> simp [equalLoop, Agree, associations, pure, Except.pure]
  | cons p post ih =>
    cases fuel with
    | zero => exact absurd enough (Nat.not_lt_zero _)
    | succ fuel =>
      cases post' with
      | nil => simp [equalLoop, Agree, associations, pure, Except.pure]
      | cons q post' =>
        obtain ⟨i, k, v⟩ := p
        obtain ⟨j, k', v'⟩ := q
        obtain ⟨p, record, rfl, rfl⟩ := validx.record orderx
        obtain ⟨q, record', rfl, rfl⟩ := validy.record ordery
        have step : nextNode x (some i) = .ok (post.head?.map Prod.fst) :=
          Represents.stepNode (d := .left) validx.laid orderx
        have step' : nextNode y (some j) = .ok (post'.head?.map Prod.fst) :=
          Represents.stepNode (d := .left) validy.laid ordery
        have later : tx.inorder = (pre ++ [(i, p.key, p.datum)]) ++ post := by
          rw [orderx, List.append_assoc]
          rfl
        have later' : ty.inorder = (pre' ++ [(j, q.key, q.datum)]) ++ post' := by
          rw [ordery, List.append_assoc]
          rfl
        have rest := ih later later' (Nat.lt_of_succ_lt_succ enough)
        have unfolded : Agree datumEq (associations ((i, p.key, p.datum) :: post))
            (associations ((j, q.key, q.datum) :: post')) ↔
            (p.key = q.key ∧ datumEq p.datum q.datum) ∧ Agree datumEq (associations post) (associations post') :=
          List.forall₂_cons
        rw [List.head?_cons, List.head?_cons, Option.map_some, Option.map_some, equalLoop, record, ok_bind, record', ok_bind]
        by_cases same : p.key = q.key ∧ datumEq p.datum q.datum
        · rw [if_pos same, step, ok_bind, step', ok_bind, rest]
          exact congrArg Except.ok (decide_eq_decide.mpr (unfolded.trans (and_iff_right same)).symm)
        · rw [if_neg same]
          exact congrArg Except.ok (decide_eq_false fun agree => same (unfolded.mp agree).1).symm

theorem Valid.equal {x y : RbTree K V} {tx ty : Shape K V} {es fs : List (K × V)} (validx : Valid x.tree es tx)
    (validy : Valid y.tree fs ty) (same : x.keyEq = y.keyEq) (datumEq : V → V → Bool) :
    rbTreeEqual x y datumEq = .ok (decide (Agree datumEq es fs)) := by
  have run := @equalLoop_eq K V _ _ x.tree y.tree tx ty es fs datumEq [] tx.inorder [] ty.inorder validx validy rfl rfl
    validx.laid.size_lt
  unfold rbTreeEqual minNode
  rw [if_pos same, validx.laid.extremeNode, validy.laid.extremeNode, ← validx.entries, ← validy.entries]
  exact run

omit [LinearOrder K] in
theorem measures_eq {path : List (Frame K V)} (laid : Represents tree (plug path t)) (enough : t.inorder.length < fuel) :
    heightLoop tree fuel t.root = .ok t.height ∧ sizeLoop tree fuel t.root = .ok t.inorder.length := by
  induction t generalizing path fuel with
  | leaf =>
    cases fuel with
    | zero => exact absurd enough (Nat.not_lt_zero _)
    | succ fuel => exact ⟨rfl, rfl⟩
  | node i c l k v r ihl ihr =>
    cases fuel with
    | zero => exact absurd enough (Nat.not_lt_zero _)
    | succ fuel =>
      have here : Represents tree (plug path (.make .left i c l k v r)) := laid
      rw [inorder, List.length_append, List.length_cons] at enough
      obtain ⟨heightl, sizel⟩ := @ihl fuel (⟨.left, i, c, k, v, r⟩ :: path) laid (by omega)
      obtain ⟨heightr, sizer⟩ := @ihr fuel (⟨.right, i, c, k, v, l⟩ :: path) laid (by omega)
      unfold heightLoop sizeLoop
      rw [root, if_neg (by simp), if_neg (by simp), here.node, ok_bind, ok_bind, left_make, right_make, heightl, heightr, sizel, sizer,
        inorder, List.length_append, List.length_cons]
      exact ⟨rfl, congrArg Except.ok (by omega)⟩

end MitScheme.Runtime.RbTrees
