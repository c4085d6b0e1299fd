import MitScheme.Runtime.RbTree.Search

/-!
The fix-up keeps a subtree that lacks one black node as the only fault of the tree, and moves it
towards the root until a rotation or a red node supplies the black node.
-/

namespace MitScheme.Runtime.RbTrees

open MitScheme.Library Shape

variable {K V : Type} {tree : Tree K V} {d : Direction} {i u w n m fuel : ℕ} {c cu cw : Color} {k ku kw : K} {v vu vw : V}
  {f : Frame K V} {path : List (Frame K V)} {t a b p q r s : Shape K V}

theorem plug_minus : plug (⟨d.negate, i, c, k, v, a⟩ :: path) b = plug path (.make d i c a k v b) :=
  congrArg (plug path) make_negate

theorem Shape.Balanced.root_ne_none (balanced : t.Balanced c (n + 1)) : t.root ≠ none := by
  intro empty
  cases t with
  | leaf => cases balanced
  | node _ _ _ _ _ _ => cases empty

theorem PathBalanced.sibling (around : PathBalanced (⟨d, u, cu, ku, vu, s⟩ :: path) .black n) :
    s.Balanced .black n ∨ s.Balanced .red n ∧ cu = .black ∧ PathBalanced path .black (n + 1) := by
  cases around with
  | red sibling around => exact .inl sibling
  | @black _ _ _ _ cs _ _ _ _ sibling around =>
    cases cs with
    | black => exact .inl sibling
    | red => exact .inr ⟨sibling, rfl, around⟩

theorem Represents.deleteCase4 (laid : Represents tree (plug path (.make d u cu t ku vu (.make d w cw p kw vw q))))
    (far : q.Balanced .red n) : ∃ tree', deleteCase4 tree (some u) (some w) d = .ok tree' ∧
    Represents tree' (plug path (.make d w cu (.make d u .black t ku vu p) kw vw q.blacken)).blacken := by
  obtain ⟨x, a, kx, vx, b, rfl, -, -⟩ := far.exists_red .left
  unfold RbTrees.deleteCase4
  rw [laid.node, ok_bind, color_make]
  -- the colors
  rw [← plug_minus] at laid
  obtain ⟨tree1, ran, laid⟩ := laid.setNode ({ · with color := some cu }) fun _ _ _ => rfl
  rw [ran, ok_bind]
  rw [plug_minus] at laid
  obtain ⟨tree2, ran, laid⟩ := laid.setColor .black
  rw [ran, ok_bind]
  rw [← plug_minus] at laid
  rw [laid.node, ok_bind, getLinkMinus_make, root_make]
  rw [← plug_minus] at laid
  obtain ⟨tree3, ran, laid⟩ := laid.setColor .black
  rw [ran, ok_bind]
  rw [plug_minus, plug_minus] at laid
  -- the rotation
  obtain ⟨tree4, ran, laid⟩ := laid.rotatePlus
  rw [ran]
  refine laid.blackenRoot ?_
  rw [inorder_plug, inorder_make]
  cases d <;> simp

theorem Represents.deleteCase3 (laid : Represents tree (plug path (.make d u cu t ku vu (.make d w .black p kw vw q))))
    (near : p.Balanced .red n) (far : q.Balanced .black n) :
    ∃ tree' y p1 ky vy p2, p = .make d y .red p1 ky vy p2 ∧
      deleteCase3 tree (some u) (some w) p.root d = .ok tree' ∧
      Represents tree' (plug path
        (.make d y cu (.make d u .black t ku vu p1) ky vy (.make d w .black p2 kw vw q))).blacken := by
  obtain ⟨y, p1, ky, vy, p2, rfl, left, right⟩ := near.exists_red d
  unfold RbTrees.deleteCase3
  rw [← plug_minus] at laid
  have child : Represents tree (plug (⟨d, w, .black, kw, vw, q⟩ :: ⟨d.negate, u, cu, ku, vu, t⟩ :: path)
    (.make d y .red p1 ky vy p2)) := laid
  obtain ⟨tree1, ran, child⟩ := child.setColor .black
  rw [root_make, ran, ok_bind]
  have laid : Represents tree1 (plug (⟨d.negate, u, cu, ku, vu, t⟩ :: path)
    (.make d w .black (.make d y .black p1 ky vy p2) kw vw q)) := child
  obtain ⟨tree2, ran, laid⟩ := laid.setColor .red
  rw [ran, ok_bind]
  obtain ⟨tree3, ran, laid⟩ := laid.rotateMinus
  rw [plug_minus] at laid
  rw [ran, ok_bind, laid.node, ok_bind, getLinkMinus_make, root_make]
  obtain ⟨tree4, ran, laid⟩ := laid.deleteCase4 (.make_red right far)
  rw [blacken_make] at laid
  exact ⟨tree4, y, p1, ky, vy, p2, rfl, ran, laid⟩

theorem Represents.deleteCase1 (laid : Represents tree (plug (⟨d, u, cu, ku, vu, s⟩ :: path) t))
    (around : PathBalanced (⟨d, u, cu, ku, vu, s⟩ :: path) .black (n + 1)) :
    ∃ tree' cu' s' path', deleteCase1 tree (some u) d = .ok (tree', s'.root) ∧
      Represents tree' (plug (⟨d, u, cu', ku, vu, s'⟩ :: path') t) ∧ s'.Balanced .black (n + 1) ∧
      PathBalanced (⟨d, u, cu', ku, vu, s'⟩ :: path') .black (n + 1) ∧
      (plug (⟨d, u, cu', ku, vu, s'⟩ :: path') t).inorder = (plug (⟨d, u, cu, ku, vu, s⟩ :: path) t).inorder ∧
      (path' = path ∨ cu' = .red) := by
  have record := laid.frame
  have turned := laid
  rw [plug_turn] at turned
  unfold RbTrees.deleteCase1
  rw [record, ok_bind, getLinkMinus_make]
  dsimp only
  rcases around.sibling with sibling | ⟨sibling, rfl, above⟩
  · obtain ⟨w, a, kw, vw, b, ca, cb, rfl, -, -⟩ := sibling.exists_black d
    rw [root_make, turned.node, ok_bind]
    exact ⟨tree, cu, .make d w .black a kw vw b, path, by rw [root_make]; rfl, laid, sibling, around, rfl, .inl rfl⟩
  · obtain ⟨w, p, kw, vw, q, rfl, left, right⟩ := sibling.exists_red d
    rw [root_make, turned.node, ok_bind, color_make]
    obtain ⟨tree1, ran, turned⟩ := turned.setColor .black
    rw [ran, ok_bind]
    rw [plug_minus] at turned
    obtain ⟨tree2, ran, turned⟩ := turned.setColor .red
    rw [ran, ok_bind]
    obtain ⟨tree3, ran, laid⟩ := turned.rotatePlus
    have laid : Represents tree3 (plug (⟨d, u, .red, ku, vu, p⟩ :: ⟨d, w, .black, kw, vw, q⟩ :: path) t) := laid
    have record := laid.frame
    rw [ran, ok_bind, record, ok_bind, getLinkMinus_make]
    refine ⟨tree3, .red, p, _, rfl, laid, left, .red left (.black right above), ?_, .inr rfl⟩
    exact inorder_plug_congr inorder_rotate

def Lacks (path : List (Frame K V)) (t : Shape K V) : Prop :=
  ∃ n, PathBalanced path .black (n + 1) ∧
    (t.Balanced .black n ∨ t.color = .red ∧ t.blacken.Balanced .black (n + 1))

theorem rebuilt_blacken {nodes : List (ℕ × K × V)} (laid : Represents tree t.blacken) (balanced : t.Balanced .black m)
    (order : t.inorder = nodes) : Rebuilt tree nodes t := by
  rw [balanced.blacken_eq] at laid
  exact ⟨laid, ⟨m, balanced⟩, order⟩

theorem PathBalanced.close {w : Shape K V} {c : Color} {x y : ℕ} {kx ky : K} {vx vy : V}
    (around : PathBalanced (⟨d, u, cu, ku, vu, s⟩ :: path) .black (n + 1)) (hole : t.Balanced .black n)
    (near : p.Balanced c n) (far : w.Balanced .black (n + 1)) :
    ∃ m, (plug path (.make d x cu (.make d y .black t kx vx p) ky vy w)).Balanced .black m := by
  have full : (Shape.make d y .black t kx vx p).Balanced .black (n + 1) := .make_black hole near
  cases around with
  | red sibling around => exact around.fill (.make_red full far)
  | black sibling around => exact around.fill (.make_black full far)

theorem Represents.deleteCases (loop : Tree K V → Option ℕ → Option ℕ → Except Error (Tree K V))
    (laid : Represents tree (plug (⟨d, u, cu, ku, vu, s⟩ :: path) t)) (hole : t.Balanced .black n)
    (sibling : s.Balanced .black (n + 1)) (around : PathBalanced (⟨d, u, cu, ku, vu, s⟩ :: path) .black (n + 1)) :
    (∃ tree' t', deleteCases loop tree (some u) s.root d = .ok tree' ∧
      Rebuilt tree' (plug (⟨d, u, cu, ku, vu, s⟩ :: path) t).inorder t') ∨
    ∃ tree' t', deleteCases loop tree (some u) s.root d = loop tree' (some u) (upOf path) ∧
      Represents tree' (plug path t') ∧ Lacks path t' ∧ t'.root = some u ∧ t'.color = cu ∧
      (plug path t').inorder = (plug (⟨d, u, cu, ku, vu, s⟩ :: path) t).inorder := by
  obtain ⟨w, p, kw, vw, q, cp, cq, rfl, near, far⟩ := sibling.exists_black d
  have parent : Represents tree (plug path (.make d u cu t ku vu (.make d w .black p kw vw q))) := laid
  have turned := parent
  rw [← plug_minus] at turned
  have last : Represents tree (plug (⟨d.negate, w, .black, kw, vw, p⟩ :: ⟨d.negate, u, cu, ku, vu, t⟩ :: path) q) := by
    rw [plug_minus]
    exact turned
  have first : Represents tree (plug (⟨d, w, .black, kw, vw, q⟩ :: ⟨d.negate, u, cu, ku, vu, t⟩ :: path) p) := turned
  unfold RbTrees.deleteCases
  rw [root_make, turned.node, ok_bind, getLinkMinus_make, getLinkPlus_make, last.isRed, ok_bind, far.color_eq]
  cases cq with
  | red =>
    left
    obtain ⟨tree', ran, laid⟩ := parent.deleteCase4 far
    obtain ⟨m, full⟩ := around.close hole near far.blacken_red
    refine ⟨tree', _, ran, rebuilt_blacken laid full (inorder_plug_congr ?_)⟩
    cases d <;> simp [Frame.fill, inorder_make, inorder_blacken]
  | black =>
    rw [if_neg (by simp), first.isBlack, ok_bind, near.color_eq]
    cases cp with
    | red =>
      left
      obtain ⟨tree', y, p1, ky, vy, p2, rfl, ran, laid⟩ := parent.deleteCase3 near far
      obtain ⟨-, left, right⟩ := near.of_make_red
      obtain ⟨m, full⟩ := around.close hole left (.make_black right far)
      refine ⟨tree', _, ran, rebuilt_blacken laid full (inorder_plug_congr ?_)⟩
      cases d <;> simp [Frame.fill, inorder_make]
    | black =>
      -- case 2
      right
      obtain ⟨tree', ran, turned⟩ := turned.setColor .red
      rw [plug_minus] at turned
      rw [ran, ok_bind, turned.node, ok_bind]
      refine ⟨tree', _, rfl, turned, ?_, root_make, color_shape, inorder_plug_congr ?_⟩
      · have red : (Shape.make d w .red p kw vw q).Balanced .red n := .make_red near far
        cases around with
        | red sibling around =>
          refine ⟨n, around.toBlack, .inr ⟨color_shape, ?_⟩⟩
          rw [blacken_make]
          exact .make_black hole red
        | black sibling around => exact ⟨n + 1, around, .inl (.make_black hole red)⟩
      · simp [Frame.fill, inorder_make]

theorem deleteFixupLoop_rebuilt (laid : Represents tree (plug path t)) (lacks : Lacks path t)
    (enough : path.length < fuel ∨ t.color = .red ∧ 0 < fuel) :
    ∃ tree' t', deleteFixupLoop fuel tree t.root (upOf path) = .ok tree' ∧ Rebuilt tree' (plug path t).inorder t' := by
  induction fuel generalizing tree path t with
  | zero => omega
  | succ fuel ih =>
    unfold deleteFixupLoop
    rw [laid.isRed, ok_bind]
    obtain ⟨n, around, kind⟩ := lacks
    -- the loop ends at a red node or at the root
    have ends : (∃ m, (plug path t.blacken).Balanced .black m) →
        ∃ tree' t', (if t.root.isSome then tree.setNode t.root (·.setColor .black) else pure tree) = .ok tree' ∧
          Rebuilt tree' (plug path t).inorder t' := by
      rintro ⟨m, full⟩
      rcases t.eq_make .left with rfl | ⟨i, c, a, k, v, b, rfl⟩
      · exact ⟨tree, _, rfl, laid, ⟨m, full⟩, rfl⟩
      · obtain ⟨tree', ran, laid⟩ := laid.setColor .black
        exact ⟨tree', _, ran, laid, ⟨m, full⟩, inorder_plug_congr (by rw [inorder_make, inorder_make])⟩
    rcases kind with hole | ⟨red, full⟩
    · cases path with
      | nil =>
        exact ends ⟨n, hole.blacken_eq.symm ▸ hole⟩
      | cons f path =>
        obtain ⟨d, u, cu, ku, vu, s⟩ := f
        have different : t.root ≠ s.root := by
          rcases t.eq_make .left with rfl | ⟨i, c, a, k, v, b, rfl⟩
          · rcases around.sibling with sibling | ⟨sibling, -, -⟩
            · exact sibling.root_ne_none.symm
            · exact sibling.root_ne_none.symm
          · exact (laid.apart root_make).symm
        have record := laid.frame
        rw [hole.color_eq, upOf, record, ok_bind]
        dsimp only
        rw [side_eq different]
        obtain ⟨tree1, cu', s', path', ran, laid1, sibling, around1, order, further⟩ := laid.deleteCase1 around
        rw [ran]
        rcases laid1.deleteCases (deleteFixupLoop fuel) hole sibling around1 with
          ⟨tree2, t2, ran, rebuilt⟩ | ⟨tree2, t2, ran, laid2, lacks, root, color, order2⟩
        · exact ⟨tree2, t2, ran, order ▸ rebuilt⟩
        · have enough2 : path'.length < fuel ∨ t2.color = .red ∧ 0 < fuel := by
            rw [hole.color_eq, List.length_cons] at enough
            rcases further with rfl | rfl
            · exact .inl (by simpa using enough)
            · exact .inr ⟨color, by simp only [reduceCtorEq, false_and, or_false] at enough; omega⟩
          obtain ⟨tree3, t3, ran3, rebuilt⟩ := ih laid2 lacks enough2
          rw [root] at ran3
          rw [order2, order] at rebuilt
          exact ⟨tree3, t3, ran.trans ran3, rebuilt⟩
    · rw [red, decide_eq_true rfl, Bool.or_true]
      exact ends (around.fill full)

theorem Represents.unlink_rebuilt (laid : Represents tree (plug path (.make d i c t k v .leaf)))
    (balanced : (plug path (.make d i c t k v .leaf)).Balanced .black m) :
    ∃ tree' t', RbTrees.unlink tree (some i) = .ok tree' ∧ Rebuilt tree' (plug path t).inorder t' := by
  obtain ⟨tree1, laid1, ran⟩ := laid.unlink
  obtain ⟨c0, n, around, inside⟩ := balanced.zoom
  cases c with
  | red =>
    obtain ⟨rfl, child, -⟩ := inside.of_make_red
    exact ⟨tree1, _, ran, laid1, (around.weaken .black).fill child, rfl⟩
  | black =>
    obtain ⟨rfl, m, ct, cl, rfl, child, -⟩ := inside.of_make_black
    have lacks : Lacks path t := by
      cases ct with
      | red => exact ⟨m, around, .inr ⟨child.color_eq, child.blacken_red⟩⟩
      | black => exact ⟨m, around, .inl child⟩
    obtain ⟨tree2, t2, fixed, rebuilt⟩ := deleteFixupLoop_rebuilt laid1 lacks (.inl laid1.length_lt)
    exact ⟨tree2, t2, ran.trans fixed, rebuilt⟩

theorem plug_append (path path' : List (Frame K V)) : plug (path ++ path') t = plug path' (plug path t) := by
  induction path generalizing t with
  | nil => rfl
  | cons f path ih => exact ih

theorem before_append (path path' : List (Frame K V)) : before (path ++ path') = before path' ++ before path := by
  induction path with
  | nil => rw [List.nil_append, before, List.append_nil]
  | cons f path ih =>
    obtain ⟨d, i, c, k, v, s⟩ := f
    cases d with
    | left => rw [List.cons_append, before_left, before_left, ih]
    | right => rw [List.cons_append, before_right, before_right, ih, List.append_assoc, List.append_assoc,
        List.append_assoc]

theorem after_append (path path' : List (Frame K V)) : after (path ++ path') = after path ++ after path' := by
  induction path with
  | nil => rfl
  | cons f path ih =>
    obtain ⟨d, i, c, k, v, s⟩ := f
    cases d with
    | left => rw [List.cons_append, after_left, after_left, ih, List.cons_append, List.append_assoc]
    | right => rw [List.cons_append, after_right, after_right, ih]

theorem exists_first (nonempty : t ≠ .leaf) :
    ∃ path i c k v r, t = plug path (.node i c .leaf k v r) ∧ before path = [] := by
  induction t with
  | leaf => exact absurd rfl nonempty
  | node i c l k v r ih _ =>
    by_cases leaf : l = .leaf
    · subst leaf
      exact ⟨[], i, c, k, v, r, rfl, rfl⟩
    · obtain ⟨path, i', c', k', v', r', same, first⟩ := ih leaf
      refine ⟨path ++ [⟨.left, i, c, k, v, r⟩], i', c', k', v', r', ?_, ?_⟩
      · rw [plug_append, ← same]
        rfl
      · rw [before_append, first]
        rfl

theorem Represents.deleteNode {pre post : List (ℕ × K × V)} (laid : Represents tree t) (balanced : t.Balanced .black m)
    (order : t.inorder = pre ++ (i, k, v) :: post) : ∃ tree' t' nodes, deleteNode tree (some i) = .ok tree' ∧
    Rebuilt tree' nodes t' ∧ associations nodes = associations pre ++ associations post := by
  obtain ⟨path, c, l, r, same, left, right⟩ := exists_place order []
  subst same
  rw [before, List.nil_append] at left
  rw [after, List.append_nil] at right
  have here : Represents tree (plug path (.make .left i c l k v r)) := laid
  unfold RbTrees.deleteNode takeNext
  rw [here.node, ok_bind]
  by_cases both : l.root.isSome && r.root.isSome
  · -- the next node is removed, once its contents are in the place of the node
    have nonempty : r ≠ .leaf := by
      rintro rfl
      simp at both
    obtain ⟨path', y, cy, ky, vy, ry, rfl, first⟩ := exists_first nonempty
    have next : nextNode tree (some i) = .ok (some y) := by
      have step := @Represents.stepNode K V tree .left i k v _ pre post laid order
      rw [← right, inorder_plug, first] at step
      exact step
    have refocus : ∀ k v, plug path (.make .left i c l k v (plug path' (.node y cy .leaf ky vy ry))) =
        plug (path' ++ ⟨.right, i, c, k, v, l⟩ :: path) (.make .right y cy ry ky vy .leaf) := by
      intro k v
      rw [plug_append]
      rfl
    have record : ∀ {tree' k v}, Represents tree' (plug path (.make .left i c l k v
        (plug path' (.node y cy .leaf ky vy ry)))) →
        ∃ q, tree'.node (some y) = .ok q ∧ q.key = ky ∧ q.datum = vy := by
      intro tree' k v laid
      rw [refocus] at laid
      exact ⟨_, laid.node, rfl, rfl⟩
    obtain ⟨q, read, key, -⟩ := record here
    obtain ⟨tree1, ran1, here1⟩ := here.setNode (·.setKey ky) fun _ _ _ => rfl
    obtain ⟨q', read', -, datum⟩ := record here1
    obtain ⟨tree2, ran2, here2⟩ := here1.setNode (·.setDatum vy) fun _ _ _ => rfl
    rw [left_make, right_make, if_pos both, next, ok_bind, read, ok_bind, key, ran1, ok_bind, read', ok_bind, datum, ran2]
    rw [refocus] at here2
    obtain ⟨_, _, around, inside⟩ := balanced.zoom
    obtain ⟨m', full⟩ := around.fill (@.contents K V i _ c _ k v l _ ky vy inside)
    have full := (refocus ky vy) ▸ full
    obtain ⟨tree3, t3, ran3, rebuilt⟩ := here2.unlink_rebuilt full
    refine ⟨tree3, t3, _, ran3, rebuilt, ?_⟩
    rw [← left, ← right, inorder_plug, inorder_plug, before_append, after_append, first]
    simp [associations, inorder]
  · have result : ∀ {d e}, .make d i c e k v .leaf = Shape.node i c l k v r → l.inorder ++ r.inorder = e.inorder →
        ∃ tree' t' nodes, RbTrees.unlink tree (some i) = .ok tree' ∧ Rebuilt tree' nodes t' ∧
          associations nodes = associations pre ++ associations post := by
      intro d e same order
      rw [← same] at laid balanced
      obtain ⟨tree', t', ran, rebuilt⟩ := laid.unlink_rebuilt balanced
      refine ⟨tree', t', _, ran, rebuilt, ?_⟩
      rw [← left, ← right, inorder_plug, ← order]
      simp [associations_append]
    rcases l.eq_make .left with rfl | ⟨j, c', a, k', v', b, rfl⟩
    · exact result (d := .right) rfl rfl
    · rcases r.eq_make .left with rfl | ⟨j', c'', a', k'', v'', b', rfl⟩
      · exact result (d := .left) rfl (List.append_nil _)
      · simp at both

section
variable [LinearOrder K] {key : K} {es : List (K × V)}

theorem deleteLoop_eq (laid : Represents tree (plug path t)) (enough : t.inorder.length < fuel) :
    deleteLoop tree key fuel t.root =
      if (zoom key t path).2.root.isNone then pure (tree, false)
      else RbTrees.deleteNode tree (zoom key t path).2.root >>= fun tree => pure (tree, true) := by
  have descends : Descends tree key (fun fuel x _ _ => deleteLoop tree key fuel x) (fun _ _ => pure (tree, false))
      fun x => RbTrees.deleteNode tree x >>= fun tree => pure (tree, true) := ⟨fun _ _ _ => rfl, fun _ _ _ _ => rfl⟩
  exact descends.eq laid enough

theorem Valid.deleteNode {pre post : List (ℕ × K × V)} (valid : Valid tree es t)
    (order : t.inorder = pre ++ (i, k, v) :: post) : ∃ tree' t', RbTrees.deleteNode tree (some i) = .ok tree' ∧
    Valid tree' (associations pre ++ associations post) t' := by
  obtain ⟨m, balanced⟩ := valid.balanced
  obtain ⟨tree', t', nodes, ran, rebuilt, same⟩ := valid.laid.deleteNode balanced order
  have entries := valid.entries
  rw [Shape.entries, order, associations_place] at entries
  have sorted := valid.sorted
  rw [← entries, sorted_append, sorted_cons] at sorted
  obtain ⟨sorted_pre, ⟨-, sorted_post⟩, between⟩ := sorted
  refine ⟨tree', t', ran, rebuilt.laid, rebuilt.balanced, ?_, sorted_append.mpr ⟨sorted_pre, sorted_post, ?_⟩⟩
  · rw [Shape.entries, rebuilt.inorder, same]
  · exact fun p member q member' => between p member q (List.mem_cons_of_mem _ member')

theorem Valid.delete (valid : Valid tree es t) (key : K) :
    ∃ tree' t', rbTreeDelete tree key = .ok (tree', (lookup key es).isSome) ∧ Valid tree' (deleteEntry key es) t' := by
  obtain ⟨path, t', c, n, ends, laid, around, balanced, same, ⟨small, large⟩, split, kind⟩ := valid.zoom key
  have ran := @deleteLoop_eq K V tree tree.fuel [] t _ key valid.laid valid.laid.size_lt
  unfold rbTreeDelete
  rw [valid.laid.root, ran, ends]
  rcases kind with rfl | ⟨i, c', l, v, r, rfl⟩
  · have entries : es = associations (before path) ++ associations (after path) := by
      rw [split]
      simp [Shape.entries, inorder, associations]
    refine ⟨tree, t, ?_, ?_⟩
    · rw [entries, lookup_absent small large]
      rfl
    · rw [entries, deleteEntry_append small large, ← entries]
      exact valid
  · rw [root]
    subst same
    obtain ⟨tree', t', ran, valid'⟩ := valid.deleteNode inorder_node
    have entries := valid.entries
    rw [Shape.entries, inorder_node, associations_place] at entries
    have sorted := valid.sorted
    rw [← entries, sorted_node] at sorted
    rw [ran, ← entries, lookup_present sorted.2.2.1, deleteEntry_present sorted.2.2.1 sorted.2.2.2]
    exact ⟨tree', t', rfl, valid'⟩

end

end MitScheme.Runtime.RbTrees
