import Linux318.Source.Rbtree.EraseColor

/-!
`__rb_erase_augmented` takes a node out of the tree, and the rebalancing makes it `eraseAt`.
-/
namespace Linux318.Source.Rbtree
open Option (bind_eq_bind bind_some)
open Lib.RedBlack Lib.RedBlack.RbTree Function

variable {fuel a sc : Nat} {c : Color} {f : Frame Nat} {r l : RbTree Nat}

/-- The nodes of a path below `top`, with a child at its lower end. -/
def HoldsPath (node : Nat → RbNode) (top : Nat) : Nat → List (Frame Nat) → Prop
  | _, [] => True
  | child, f :: path =>
    node f.key = record f.side (word (if path = [] then top else topKey path) f.color) child
        (ptr f.sib) ∧
      Holds node f.key f.sib ∧ HoldsPath node top f.key path

section Path

variable {node node' : Nat → RbNode} {top child : Nat} {path k : List (Frame Nat)} {t : RbTree Nat}

theorem holds_plug : Holds node top (plug path t) ↔
      Holds node (if path = [] then top else topKey path) t ∧ HoldsPath node top (ptr t) path := by
  induction path generalizing t with
  | nil => simp [plug, HoldsPath]
  | cons f path ih =>
    rw [plug, ih, holds_make, ptr_make, HoldsPath]
    tauto

theorem holdsAbove_append : HoldsAbove node child (path ++ k) ↔
      HoldsPath node (topKey k) child path ∧ HoldsAbove node (rootKey child path) k := by
  induction path generalizing child with
  | nil => simp [HoldsPath, rootKey]
  | cons f path ih =>
    have next : topKey (path ++ k) = if path = [] then topKey k else topKey path := by
      cases path <;> simp
    rw [List.cons_append, HoldsAbove, ih, HoldsPath, next]
    tauto

theorem HoldsPath.congr (holds : HoldsPath node top child path)
    (same : ∀ a ∈ around path, node' a = node a) : HoldsPath node' top child path := by
  induction path generalizing child with
  | nil => trivial
  | cons f path ih =>
    obtain ⟨here, sib, above⟩ := holds
    simp only [mem_around_cons] at same
    exact ⟨(same _ (.inl rfl)).trans here, sib.congr fun a mem => same a (.inr (.inl mem)),
      ih above fun a mem => same a (.inr (.inr mem))⟩

theorem HoldsPath.climbs (holds : HoldsPath node top child path) (nodes : Nodes (around path))
    (aligned : top % 4 = 0) : Climbs node top child path := by
  induction path generalizing child with
  | nil => trivial
  | cons f path ih =>
    obtain ⟨here, _, above⟩ := holds
    have inner := ((nodes_perm (perm_around f path)).mp nodes).tail.right
    refine ⟨by rw [here, child_record], by rw [here, child_other_record], ?_, ih above inner⟩
    rw [here, parentColor_record, rbParent_word]
    split
    · exact aligned
    · exact topKey_aligned inner

theorem HoldsPath.relink (holds : HoldsPath node top child (f :: path))
    (nodes : Nodes (around (f :: path))) (child' : Nat) :
    HoldsPath (update node f.key ((node f.key).withChild f.side child')) top child'
      (f :: path) := by
  obtain ⟨here, sib, above⟩ := holds
  have apart := (List.nodup_cons.mp ((nodes_perm (perm_around f path)).mp nodes).distinct).1
  refine ⟨?_, sib.congr fun a mem => ?_, above.congr fun a mem => ?_⟩
  · rw [update_self, here, withChild_record]
  · exact update_of_ne (fun same => apart (by simp [← same, mem])) _ _
  · exact update_of_ne (fun same => apart (by simp [← same, mem])) _ _

theorem rootKey_mem (child : Nat) : rootKey child (f :: path) ∈ around (f :: path) := by
  induction path generalizing f child with
  | nil => exact mem_around_cons.mpr (.inl rfl)
  | cons g path ih => exact mem_around_cons.mpr (.inr (.inr (ih f.key)))

theorem HoldsPath.adopt (holds : HoldsPath node top child (f :: path))
    (nodes : Nodes (around (f :: path))) (aligned : top % 4 = 0) (top' : Nat) :
    HoldsPath (adopt node (rootKey child (f :: path)) top') top' child (f :: path) := by
  induction path generalizing f child with
  | nil =>
    obtain ⟨here, sib, _⟩ := holds
    obtain ⟨fresh, _⟩ := List.nodup_cons.mp ((nodes_perm (perm_around f [])).mp nodes).distinct
    have some := (nodes.address f.key (mem_around_cons.mpr (.inl rfl))).1
    refine ⟨?_, sib.congr fun a mem => ?_, trivial⟩
    · simp only [if_true] at here ⊢
      rw [rootKey, rootKey, Rbtree.adopt, setWord_self some, here, parentColor_record,
        rbColor_word aligned, withWord_record, Nat.or_comm]
      rfl
    · exact setWord_of_ne (ne_of_mem_of_not_mem mem fun here =>
        fresh (List.mem_append_left _ here)) _
  | cons g path ih =>
    obtain ⟨here, sib, above⟩ := holds
    obtain ⟨fresh, _⟩ := List.nodup_cons.mp ((nodes_perm (perm_around f _)).mp nodes).distinct
    have inner := ((nodes_perm (perm_around f _)).mp nodes).tail
    have mem : rootKey f.key (g :: path) ∈ around (g :: path) := rootKey_mem f.key
    refine ⟨?_, sib.congr fun a sibling => ?_, ih above inner.right⟩
    · simp only [List.cons_ne_nil, if_false] at here ⊢
      rw [← here]
      exact setWord_of_ne (ne_of_mem_of_not_mem mem fun here =>
        fresh (List.mem_append_right _ here)).symm _
    · exact setWord_of_ne (ne_of_mem_of_not_mem sibling (inner.apart mem)) _

/-- The memory after the successor `sc` has left its place at the lower end of a path: `child` is
there now, and the top of the path is the right child of `sc`. -/
def detached (node : Nat → RbNode) (f : Frame Nat) (path : List (Frame Nat)) (sc child : Nat) :
    Nat → RbNode :=
  adopt (update (update node f.key ((node f.key).withChild f.side child)) sc
    ((node sc).withChild .right (rootKey sc (f :: path)))) (rootKey sc (f :: path)) sc

theorem detached_of_ne {x : Nat} (out : x ∉ around (f :: path)) (ne : x ≠ sc) :
    detached node f path sc child x = node x := by
  have key : x ≠ f.key := fun same => out (mem_around_cons.mpr (.inl same))
  rw [detached, adopt, setWord_of_ne (ne_of_mem_of_not_mem (rootKey_mem sc) out).symm,
    update_of_ne ne, update_of_ne key]

theorem detached_self (out : sc ∉ around (f :: path)) :
    detached node f path sc child sc = (node sc).withChild .right (rootKey sc (f :: path)) := by
  rw [detached, adopt, setWord_of_ne (ne_of_mem_of_not_mem (rootKey_mem sc) out).symm, update_self]

/-- The path hangs below the successor then. -/
theorem HoldsPath.detach (holds : HoldsPath node top a (f :: path))
    (nodes : Nodes (around (f :: path))) (aligned : top % 4 = 0) (out : sc ∉ around (f :: path))
    (child : Nat) : HoldsPath (detached node f path sc child) sc child (f :: path) := by
  have linked := holds.relink nodes child
  exact (linked.congr fun x mem => update_of_ne (ne_of_mem_of_not_mem mem out) _ _).adopt nodes
    aligned sc

end Path

theorem HoldsAbove.climbs {node : Nat → RbNode} {child : Nat} {k : List (Frame Nat)}
    (holds : HoldsAbove node child k) (nodes : Nodes (around k)) : Climbs node 0 child k := by
  have path := (@holdsAbove_append node child k []).mp (by rwa [List.append_nil])
  exact path.1.climbs nodes rfl

section Erase

variable {α : Type} {augment : RbAugmentCallbacks α} {E : (Nat → α) → RbTree Nat → Prop}
  {A : (Nat → α) → List (Frame Nat) → Prop} {s s1 : RbState α} {k : List (Frame Nat)}

/-- The child of a node without another child has got its place, and the values above follow. -/
theorem propagate_dropped (tracks : Tracks augment E A) {side : Side} {c : Color} {a : Nat}
    {t : RbTree Nat} {fuel : Nat} (enough : k.length < fuel)
    (tracked : Tracked E s k (make side c nil a t)) (focus : Holds s1.node (topKey k) (t.paint c))
    (above : HoldsAbove s1.node (ptr t) k) (root : s1.root = rootKey (ptr t) k)
    (same : s1.augmented = s.augmented) :
    ∃ s', augmentPropagate augment fuel s1 (topKey k) 0 = some s' ∧
      Tracked E s' k (t.paint c) := by
  have nodes : Nodes (t.toList ++ around k) := by
    refine tracked.shows.nodes.sublist (List.Sublist.append_right ?_ _)
    cases side <;> simp [make, toList]
  have fits := tracked.fits
  rw [← same] at fits
  obtain ⟨fitsT, fitsK⟩ := tracks.drop fits
  obtain ⟨augmented, run, fits', _⟩ := @Tracks.propagate _ _ _ _ tracks fuel s1.node s1.augmented
    k [] t fitsT fitsK (tracks.whole _) (by rwa [List.append_nil]) (above.climbs nodes.right) enough
  rw [List.append_nil] at run
  refine ⟨{ s1 with augmented := augmented }, ?_, ⟨focus, ?_, ?_, ?_⟩, ?_⟩
  · have run : augment.propagate fuel s1.node s1.augmented (topKey k) 0 = some augmented := run
    rw [augmentPropagate, run]
    rfl
  · rwa [ptr_paint]
  · rwa [ptr_paint]
  · rwa [toList_paint]
  · exact tracks.recolor (bare_plug_congr (bare_paint c t).symm) fits'

theorem rbEraseAugmented_left (tracks : Tracks augment E A) (enough : k.length < fuel)
    (tracked : Tracked E s k (.node c nil a r)) : ∃ s', rbEraseAugmented augment fuel s a =
        some (if r = nil ∧ c = .black then topKey k else 0, s') ∧
      Tracked E s' k (r.paint c) := by
  have hangs : Hangs s k a := tracked.shows.hangs (by simp)
  obtain ⟨⟨atA, _, holdsR⟩, _, _, nodes⟩ := tracked.shows
  have aligned := topKey_aligned nodes.right
  obtain ⟨s1, run, above, root, augmented, same⟩ := rbChangeChild_above hangs (ptr r)
  have apart : ∀ b ∈ r.toList, b ∉ around k := fun b mem other =>
    nodes.swap.apart (by simp [toList, mem]) other
  have nodesR : Nodes r.toList := nodes.left.sublist (by simp [toList])
  have holdsR' : Holds s1.node a r := holdsR.congr fun b mem => same b (apart b mem)
  have nodesR' : Nodes (r.toList ++ around k) := nodes.sublist (by simp [toList])
  simp only [rbEraseAugmented, load_eq hangs.some, bind_eq_bind, bind_some, atA, ptr_nil,
    if_true, rbParent_word aligned, run]
  by_cases none : r = nil
  · subst none
    obtain ⟨s', run', tracked'⟩ := @propagate_dropped _ augment E A s s1 k tracks .left c a nil fuel
      enough tracked trivial above root augmented
    refine ⟨s', ?_, tracked'⟩
    simp only [run', rbIsBlack, rbColor_word aligned]
    cases c <;> simp [colorBit, rbRed, rbBlack]
  have someR := (ptr_eq_zero nodesR).not.mpr none
  have notAround : ptr r ∉ around k := ptr_notMem nodesR'.swap fun _ mem => mem
  obtain ⟨s', run', tracked'⟩ := @propagate_dropped _ augment E A s
    { s1 with node := setWord s1.node (ptr r) (word (topKey k) c) } k tracks .left c a r fuel
    enough tracked (holdsR'.setWord nodesR (topKey k) c)
    (above.congr fun b mem => setWord_of_ne (ne_of_mem_of_not_mem mem notAround) _) root augmented
  refine ⟨s', ?_, tracked'⟩
  rw [setWord, if_neg someR] at run'
  rw [if_pos someR, load_eq someR, bind_some, store_eq someR, if_neg (fun both => none both.1)]
  exact congrArg (bind · _) run'

theorem rbEraseAugmented_right (tracks : Tracks augment E A) (some : l ≠ nil)
    (enough : k.length < fuel) (tracked : Tracked E s k (.node c l a nil)) :
    ∃ s', rbEraseAugmented augment fuel s a = .some (0, s') ∧ Tracked E s' k (l.paint c) := by
  have hangs : Hangs s k a := tracked.shows.hangs (by simp)
  obtain ⟨⟨atA, holdsL, _⟩, _, _, nodes⟩ := tracked.shows
  have nodesL : Nodes (l.toList ++ around k) :=
    nodes.sublist (List.Sublist.append_right (by simp [toList]) _)
  have someL := (ptr_eq_zero nodesL.left).not.mpr some
  have notAround : ptr l ∉ around k := ptr_notMem nodesL.swap fun _ mem => mem
  have hangs' : Hangs { s with node := setWord s.node (ptr l) (word (topKey k) c) } k a :=
    hangs.congr fun b mem => setWord_of_ne (ne_of_mem_of_not_mem mem notAround) _
  obtain ⟨s1, run, above, root, augmented, same⟩ := rbChangeChild_above hangs' (ptr l)
  obtain ⟨s', run', tracked'⟩ := @propagate_dropped _ augment E A s s1 k tracks .right c a l fuel
    enough tracked ((holdsL.setWord nodesL.left (topKey k) c).congr fun b mem => same b fun other =>
      nodesL.apart other (by simpa using mem)) above root augmented
  refine ⟨s', ?_, tracked'⟩
  rw [setWord, if_neg someL] at run
  simp only [rbEraseAugmented, load_eq hangs.some, load_eq someL, store_eq someL, bind_eq_bind,
    bind_some, atA, ptr_nil, if_neg someL, if_true, rbParent_word (topKey_aligned nodes.right)]
  simp only [RbNode.withWord] at run
  rw [run, bind_some, run', bind_some]

/-- The successor in memory is the first node of the tree. -/
theorem successorLoop_eq {top : Nat} {b : Nat} (some : l ≠ nil)
    (holds : Holds s.node top (.node c l b r)) (nodes : Nodes (RbTree.node c l b r).toList)
    {path path' : List (Frame Nat)} {c' : Color} {r' : RbTree Nat}
    (found : firstPlace (.node c l b r) path = .some (path', c', sc, r'))
    (enough : l.toList.length < fuel) :
    successorLoop s fuel b (ptr l) = .some (topKey path', sc) := by
  obtain ⟨fuel, rfl⟩ : ∃ m, fuel = m + 1 := ⟨fuel - 1, by omega⟩
  induction l generalizing c b r path top fuel with
  | nil => exact absurd rfl some
  | node cl ll al rl ih =>
    obtain ⟨_, holdsL, _⟩ := holds
    have nodesL : Nodes (RbTree.node cl ll al rl).toList := nodes.sublist (by simp [toList])
    have someL := (nodesL.address al (by simp [toList])).1
    simp only [successorLoop, ptr_node, load_eq someL, bind_eq_bind, bind_some, holdsL.1]
    have nodesLL : Nodes ll.toList := nodesL.sublist (by simp [toList])
    by_cases none : ll = nil
    · subst none
      cases found
      simp
    have somePtr := (ptr_eq_zero nodesLL).not.mpr none
    rw [if_pos somePtr]
    obtain ⟨fuel, rfl⟩ : ∃ m, fuel = m + 1 := ⟨fuel - 1, by simp [toList] at enough; omega⟩
    exact ih none holdsL nodesL found fuel (by simp [toList] at enough; omega)

/-- The successor takes the place of the node, on the level of records. -/
theorem eraseReplace_run {fuel : Nat} {a sc parent child2 left : Nat} (hangs : Hangs s k a)
    (nodes : Nodes (sc :: a :: around k)) (leftA : (s.node a).left = left) (someL : left ≠ 0)
    (freshL : left ∉ sc :: a :: around k) (fresh2 : child2 ∉ sc :: a :: around k)
    (up : rbParent (s.node a).parentColor = topKey k) :
    ∃ s1, eraseReplace augment fuel s a sc parent child2 =
        (do
          let s' ← augmentPropagate augment fuel s1 sc 0
          some (if child2 ≠ 0 then 0 else if rbIsBlack (s.node sc) then parent else 0, s')) ∧
      Hangs s1 k sc ∧ s1.augmented = s.augmented ∧
      s1.node sc = ((s.node sc).withChild .left left).withWord (s.node a).parentColor ∧
      ∀ x, x ∉ sc :: a :: around k →
        s1.node x = setWord (adopt s.node left sc) child2 (word parent .black) x := by
  have someA := hangs.some
  have someSc := (nodes.address sc (List.mem_cons_self ..)).1
  obtain ⟨freshSc, _⟩ := List.nodup_cons.mp nodes.distinct
  simp only [List.mem_cons, not_or] at freshSc freshL fresh2
  obtain ⟨ne, freshSc⟩ := freshSc
  obtain ⟨leftSc, leftNotA, freshL⟩ := freshL
  obtain ⟨childSc, _, fresh2⟩ := fresh2
  obtain ⟨node, hnode⟩ : ∃ node, node = adopt (update s.node sc
    ((s.node sc).withChild .left left)) left sc := ⟨_, rfl⟩
  have same : ∀ x, x ≠ sc → node x = adopt s.node left sc x := fun x notSc => by
    rw [hnode]
    exact adopt_congr (update_of_ne notSc _ _) _
  have atSc : node sc = (s.node sc).withChild .left left := by
    rw [hnode, adopt, setWord_of_ne (Ne.symm leftSc), update_self]
  have atA : node a = s.node a := by
    rw [same a (Ne.symm ne), adopt, setWord_of_ne (Ne.symm leftNotA)]
  have hangs' : Hangs { s with node := node } k a := hangs.congr fun b mem => by
    rw [same b (ne_of_mem_of_not_mem mem freshSc), adopt,
      setWord_of_ne (ne_of_mem_of_not_mem mem freshL)]
  obtain ⟨s1, run, above, root, augmented, same1⟩ := rbChangeChild_above hangs' sc
  have midSc : s1.node sc = (s.node sc).withChild .left left := (same1 sc freshSc).trans atSc
  have nodes' : Nodes (sc :: around k) := nodes.sublist
    (List.Sublist.cons_cons sc (List.sublist_cons_self ..))
  obtain ⟨node2, hnode2⟩ : ∃ node2, node2 = setWord (update s1.node sc
    ((s1.node sc).withWord (s.node a).parentColor)) child2 (word parent .black) := ⟨_, rfl⟩
  have same2 : ∀ b, b ≠ sc → node2 b = setWord s1.node child2 (word parent .black) b :=
    fun b notSc => by
      rw [hnode2]
      exact setWord_congr (update_of_ne notSc _ _) _
  refine ⟨{ s1 with node := node2 }, ?_, ⟨above.congr fun b mem => ?_, root, nodes'⟩, augmented,
    ?_, fun x out => ?_⟩
  · have moved := ite_rbSetParent
      { s with node := (update s.node sc ((s.node sc).withChild .left left)) } left sc
    rw [if_pos someL] at moved
    simp only [← hnode] at moved
    have color : rbIsBlack (s1.node sc) = rbIsBlack (s.node sc) := by
      rw [midSc]
      rfl
    simp only [eraseReplace, load_eq someA, leftA, setChild_eq someSc, moved, atA, up, run,
      load_eq someSc, color, store_eq someSc, bind_eq_bind, bind_some]
    split
    · rename_i some2
      simp [rbSetParentColor_eq some2, hnode2, setWord, if_neg some2, word,
        colorBit, RbNode.withWord]
    · rename_i none
      simp only [hnode2, setWord, if_pos (not_not.mp none), RbNode.withWord]
  · exact (same2 b (ne_of_mem_of_not_mem mem freshSc)).trans
      (setWord_of_ne (ne_of_mem_of_not_mem mem fresh2) _)
  · show node2 sc = _
    rw [hnode2, setWord_of_ne (Ne.symm childSc), update_self, midSc]
  · simp only [List.mem_cons, not_or] at out
    show node2 x = _
    rw [same2 x out.1]
    exact setWord_congr ((same1 x out.2.2).trans (same x out.1)) _

theorem ptr_plug (path : List (Frame Nat)) (t : RbTree Nat) : ptr (plug path t) =
    rootKey (ptr t) path := by
  induction path generalizing t with
  | nil => rfl
  | cons f path ih => rw [plug, ih, ptr_make, rootKey]

theorem rootKey_append (child : Nat) (path k : List (Frame Nat)) :
    rootKey child (path ++ k) = rootKey (rootKey child path) k := by
  induction path generalizing child with
  | nil => rfl
  | cons f path ih => exact ih f.key

theorem perm_around_append (path k : List (Frame Nat)) :
    (around (path ++ k)).Perm (around path ++ around k) := by
  induction path with
  | nil => rfl
  | cons f path ih =>
    refine (perm_around f (path ++ k)).trans ?_
    refine List.Perm.trans ?_ ((perm_around f path).append_right (around k)).symm
    simpa using ih.append_left f.sib.toList

theorem perm_plug (path : List (Frame Nat)) (t : RbTree Nat) :
    (plug path t).toList.Perm (t.toList ++ around path) := by
  induction path generalizing t with
  | nil => simp [plug, around, before, behind]
  | cons f path ih => exact (ih _).trans (perm_around_cons f path t).symm

theorem length_le_around (k : List (Frame Nat)) : k.length ≤ (around k).length := by
  induction k with
  | nil => exact Nat.zero_le _
  | cons f k ih =>
    rw [(perm_around f k).length_eq]
    simp only [List.length_cons, List.length_append]
    omega

/-- The nodes when the successor `sc` has replaced `a`. -/
theorem nodes_successor {path : List (Frame Nat)}
    (nodes : Nodes ((sc :: a :: around k) ++ (l.toList ++ (r.toList ++ around path)))) :
    Nodes (r.toList ++ around (path ++ ⟨.right, c, sc, l⟩ :: k)) := by
  have without : Nodes ((sc :: around k) ++ (l.toList ++ (r.toList ++ around path))) :=
    nodes.sublist (List.Sublist.append_right
      (List.Sublist.cons_cons sc (List.sublist_cons_self ..)) _)
  refine (nodes_perm ?_).mp without
  rw [List.perm_iff_count]
  intro b
  have inner := (perm_around_append path (⟨.right, c, sc, l⟩ :: k)).count_eq b
  have outer := (perm_around ⟨.right, c, sc, l⟩ k).count_eq b
  simp only [List.count_append, List.count_cons] at inner outer ⊢
  omega

/-- The successor is out of its own place and takes that of the node. -/
theorem eraseReplace_tracked (tracks : Tracks augment E A) {c c' : Color} {l r : RbTree Nat}
    {a sc : Nat} {path : List (Frame Nat)} {fuel : Nat} (enough : k.length + 1 < fuel)
    (hangs : Hangs s k a)
    (nodes : Nodes ((sc :: a :: around k) ++ (l.toList ++ (r.toList ++ around path))))
    (some : l ≠ nil) (leftA : (s.node a).left = ptr l)
    (wordA : (s.node a).parentColor = word (topKey k) c) (holdsL : Holds s.node a l)
    (holdsR : Holds s.node sc r) (rightSc : (s.node sc).right = rootKey (ptr r) path)
    (colorSc : rbIsBlack (s.node sc) = true ↔ c' = .black)
      (holdsPath : HoldsPath s.node sc (ptr r) path)
    (fits : E s.augmented (plug path r)) (above : A s.augmented (⟨.right, c, sc, l⟩ :: k)) :
    ∃ s', eraseReplace augment fuel s a sc (topKey (path ++ ⟨.right, c, sc, l⟩ :: k)) (ptr r) =
        .some (if r = nil ∧ c' = .black then topKey (path ++ ⟨.right, c, sc, l⟩ :: k) else 0, s') ∧
      Tracked E s' (path ++ ⟨.right, c, sc, l⟩ :: k) (r.paint .black) := by
  have off : ∀ x ∈ l.toList ++ (r.toList ++ around path), x ∉ sc :: a :: around k := fun _ =>
    nodes.apart
  have someL := (ptr_eq_zero nodes.right.left).not.mpr some
  have alignedTop : topKey k % 4 = 0 := topKey_aligned nodes.left.tail.tail
  obtain ⟨s1, run, hangs1, augmented, newSc, same⟩ := @eraseReplace_run _ augment s k fuel a sc
    (topKey (path ++ ⟨.right, c, sc, l⟩ :: k)) (ptr r) (ptr l) hangs nodes.left leftA someL
    (ptr_notMem nodes fun x mem => by simp [mem]) (ptr_notMem nodes fun x mem => by simp [mem])
    (by rw [wordA, rbParent_word alignedTop])
  have newSc : s1.node sc = record .right (word (topKey k) c) (rootKey (ptr r) path) (ptr l) := by
    rw [newSc, wordA, ← rightSc]
    rfl
  have rest := nodes.right
  have framePath : ∀ x ∈ around path, s1.node x = s.node x := fun x mem => by
    rw [same x (off x (by simp [mem])), setWord_apart rest.right mem, adopt,
      setWord_apart rest (by simp [mem])]
  have newL : Holds s1.node sc l := by
    refine (holdsL.adopt (nodes.address a (by simp)).2 rest.left).congr fun x mem => ?_
    rw [same x (off x (by simp [mem])), setWord_apart (rest.sublist (by simp)).swap mem]
  have newAbove : HoldsAbove s1.node (rootKey (ptr r) path) (⟨.right, c, sc, l⟩ :: k) :=
    ⟨newSc, newL, hangs1.above⟩
  have newPlace : HoldsAbove s1.node (ptr r) (path ++ ⟨.right, c, sc, l⟩ :: k) :=
    holdsAbove_append.mpr ⟨holdsPath.congr framePath, newAbove⟩
  have nodesPlace := nodes_successor (c := c) nodes
  -- the values from the successor upwards
  rw [← augmented] at fits above
  have nodesPropagate : Nodes ((plug path r).toList ++ around (⟨.right, c, sc, l⟩ :: k)) := by
    refine (nodes_perm ?_).mp nodesPlace
    refine ((perm_around_append path _).append_left r.toList).trans ?_
    rw [← List.append_assoc]
    exact (perm_plug path r).symm.append_right _
  obtain ⟨augmented', run', fits', _⟩ := @Tracks.propagate _ _ _ _ tracks fuel s1.node s1.augmented
    (⟨.right, c, sc, l⟩ :: k) [] (plug path r) fits above (tracks.whole _)
    (by rwa [List.append_nil]) (by rw [ptr_plug]; exact newAbove.climbs nodesPropagate.right)
    (by simpa using enough)
  have run' : augment.propagate fuel s1.node s1.augmented sc 0 = .some augmented' := run'
  refine ⟨{ s1 with augmented := augmented' }, ?_, ⟨?_, ?_, ?_, ?_⟩, ?_⟩
  · simp [run, augmentPropagate, run', colorSc, ptr_eq_zero rest.right.left, ite_and]
  · refine (holdsR.setWord rest.right.left _ .black).congr fun x mem => ?_
    rw [toList_paint] at mem
    rw [same x (off x (by simp [mem]))]
    exact setWord_congr (by rw [adopt, setWord_apart rest (by simp [mem])]) _
  · rwa [ptr_paint]
  · rw [rootKey_append]
    exact hangs1.root
  · rwa [toList_paint]
  · rw [← plug_append] at fits'
    exact tracks.recolor (bare_plug_congr (bare_paint .black r).symm) fits'

theorem firstPlace_path {t : RbTree Nat} {path : List (Frame Nat)}
    (found : firstPlace t [] = some (path, c, sc, r)) :
    (∀ f ∈ path, f.side = .left) ∧ t = plug path (.node c nil sc r) := by
  obtain ⟨path', same, left, whole⟩ := firstPlace_spec found
  rw [List.append_nil] at same
  subst same
  exact ⟨left, whole⟩

/-- The nodes around the place of the successor -/
theorem nodes_below {c' : Color} {t : RbTree Nat} {path : List (Frame Nat)}
    (whole : t = plug (f :: path) (.node c' nil sc r))
    (nodes : Nodes ((RbTree.node c l a t).toList ++ around k)) :
    Nodes ((sc :: a :: around k) ++ (l.toList ++ (r.toList ++ around (f :: path)))) := by
  refine (nodes_perm ?_).mp nodes
  rw [List.perm_iff_count]
  intro b
  have inner := (perm_plug (f :: path) (.node c' nil sc r)).count_eq b
  rw [← whole] at inner
  simp only [List.count_append, List.count_cons, toList, List.count_nil] at inner ⊢
  omega

/-- Case 3 up to the replacement: the successor is found and detached, and gets its values. -/
theorem rbEraseAugmented_detach {c' : Color} {t : RbTree Nat} {path : List (Frame Nat)}
    (some : l ≠ nil) (found : firstPlace t [] = .some (f :: path, c', sc, r))
    (enough : t.toList.length < fuel) (shows : Shows s k (.node c l a t))
    {augmented augmented' : Nat → α}
    (copied : augment.copy (detached s.node f path sc (ptr r)) s.augmented a sc = .some augmented)
    (propagated : augment.propagate fuel (detached s.node f path sc (ptr r)) augmented f.key sc =
      .some augmented') : rbEraseAugmented augment fuel s a =
      eraseReplace augment fuel ⟨detached s.node f path sc (ptr r), s.root, augmented'⟩ a sc f.key
        (ptr r) := by
  have hangs : Hangs s k a := shows.hangs (by simp)
  have someA := hangs.some
  obtain ⟨⟨atA, _, holdsT⟩, _, _, nodes⟩ := shows
  obtain ⟨left, whole⟩ := firstPlace_path found
  have flat := nodes_below whole nodes
  have someL := (ptr_eq_zero flat.right.left).not.mpr some
  have someSc := (flat.address sc (by simp)).1
  have atSc := holdsT
  rw [whole, holds_plug] at atSc
  have atSc := atSc.1.1
  simp only [List.cons_ne_nil, if_false, topKey_cons] at atSc
  have keyMem : f.key ∈ around (f :: path) := mem_around_cons.mpr (.inl rfl)
  have outSc : sc ∉ around (f :: path) := fun mem => 
    flat.apart (show sc ∈ _ by simp [mem]) (by simp)
  have someKey := (flat.address f.key (by simp [keyMem])).1
  have someRoot := (flat.address _ (List.mem_append_right _ (List.mem_append_right _
    (List.mem_append_right _ (rootKey_mem sc))))).1
  have child : ptr t = rootKey sc (f :: path) := by rw [whole, ptr_plug, ptr_node]
  generalize hnode : detached s.node f path sc (ptr r) = node at *
  cases t with
  | nil => cases found
  | node ct lt b rt =>
    have someLt : lt ≠ nil := by
      rintro rfl
      cases found
    have nodesT : Nodes (RbTree.node ct lt b rt).toList := nodes.left.sublist (by simp [toList])
    have somePtr := (ptr_eq_zero (nodesT.sublist (by simp [toList]))).not.mpr someLt
    have loop := successorLoop_eq someLt holdsT nodesT found
      (show lt.toList.length < fuel by simp [toList] at enough; omega)
    rw [topKey_cons] at loop
    have side : f.side = .left := left f (List.mem_cons_self ..)
    rw [ptr_node] at child
    have someB : b ≠ 0 := child ▸ someRoot
    have moved := ite_rbSetParent { s with node := update (update s.node f.key
      ((s.node f.key).withChild f.side (ptr r))) sc ((s.node sc).withChild .right b) } b sc
    rw [if_pos someB] at moved
    rw [detached, ← child, adopt] at hnode
    simp only [adopt, hnode] at moved
    rw [side] at moved
    simp only [rbEraseAugmented, load_eq someA, atA, ptr_node, if_neg someL, if_neg someB,
      load_eq someB, holdsT.1, if_neg somePtr, loop, load_eq someSc, atSc, bind_eq_bind, bind_some]
    simp only [setChild_eq someKey, setChild_eq someSc, bind_some, moved, augmentCopy, copied,
      update_of_ne (ne_of_mem_of_not_mem keyMem outSc).symm, augmentPropagate, propagated,
      bind_eq_bind]

section
variable (tracks : Tracks augment E A)
include tracks

theorem rbEraseAugmented_child {c' : Color} (some : l ≠ nil) (enough : k.length + 1 < fuel)
    (tracked : Tracked E s k (.node c l a (.node c' nil sc r))) :
    ∃ s', rbEraseAugmented augment fuel s a =
        .some (if r = nil ∧ c' = .black then topKey (⟨.right, c, sc, l⟩ :: k) else 0, s') ∧
      Tracked E s' (⟨.right, c, sc, l⟩ :: k) (r.paint .black) := by
  have hangs : Hangs s k a := tracked.shows.hangs (by simp)
  obtain ⟨⟨atA, holdsL, atSc, _, holdsR⟩, _, _, nodes⟩ := tracked.shows
  have someA := hangs.some
  have flat : Nodes ((sc :: a :: around k) ++ (l.toList ++ (r.toList ++ around []))) := by
    refine (nodes_perm ?_).mp nodes
    rw [List.perm_iff_count]
    simp only [List.count_append, List.count_cons, toList, around, before, behind, List.count_nil]
    omega
  obtain ⟨someSc, _⟩ := flat.address sc (by simp)
  have alignedA := (flat.address a (by simp)).2
  have someL := (ptr_eq_zero flat.right.left).not.mpr some
  obtain ⟨augmented, copied, fitsR, _, above⟩ := @Tracks.copy _ _ _ _ tracks s.augmented k c l a []
    c' sc r s.node nodes tracked.fits
  obtain ⟨s', run, tracked'⟩ := @eraseReplace_tracked _ augment E A
    { s with augmented := augmented } k tracks c c' l r a sc [] fuel enough
    (hangs.congr fun _ _ => rfl) flat some (by rw [atA]) (by rw [atA]) holdsL holdsR (by rw [atSc]; rfl)
    (by rw [atSc]; simp only [rbIsBlack, rbColor_word alignedA]; cases c' <;>
      simp [colorBit, rbRed, rbBlack]) trivial fitsR above
  refine ⟨s', ?_, tracked'⟩
  simp only [rbEraseAugmented, load_eq someA, atA, ptr_node, if_neg someL, if_neg someSc,
    load_eq someSc, atSc, augmentCopy, copied, bind_eq_bind, bind_some]
  exact run

/-- The node's successor is the first node of its right subtree, below its right child. -/
theorem rbEraseAugmented_below {c' : Color} {t : RbTree Nat} {path : List (Frame Nat)}
    (some : l ≠ nil) (found : firstPlace t [] = .some (f :: path, c', sc, r))
    (enough : t.toList.length + k.length + 1 < fuel) (tracked : Tracked E s k (.node c l a t)) :
    ∃ s', rbEraseAugmented augment fuel s a =
        .some (if r = nil ∧ c' = .black then topKey (f :: path ++ ⟨.right, c, sc, l⟩ :: k) else 0, s') ∧
      Tracked E s' (f :: path ++ ⟨.right, c, sc, l⟩ :: k) (r.paint .black) := by
  have hangs : Hangs s k a := tracked.shows.hangs (by simp)
  obtain ⟨⟨atA, holdsL, holdsT⟩, _, _, nodes⟩ := tracked.shows
  obtain ⟨_, whole⟩ := firstPlace_path found
  have flat := nodes_below whole nodes
  have alignedSc := (flat.address sc (by simp)).2
  have off : ∀ x ∈ l.toList ++ (r.toList ++ around (f :: path)), x ∉ sc :: a :: around k := fun _ =>
    flat.apart
  have atSc := holdsT
  rw [whole, holds_plug] at atSc
  obtain ⟨⟨atSc, _, holdsR⟩, holdsPath⟩ := atSc
  simp only [List.cons_ne_nil, if_false, topKey_cons] at atSc holdsPath
  have keyMem : f.key ∈ around (f :: path) := mem_around_cons.mpr (.inl rfl)
  have outSc : sc ∉ around (f :: path) := fun mem => off sc (by simp [mem]) (by simp)
  have outA : a ∉ around (f :: path) := fun mem => off a (by simp [mem]) (by simp)
  obtain ⟨node, hnode⟩ : ∃ node, node = detached s.node f path sc (ptr r) := ⟨_, rfl⟩
  have frame : ∀ x, x ∉ around (f :: path) → x ≠ sc → node x = s.node x := fun x out ne => by
    rw [hnode, detached_of_ne out ne]
  have stays : ∀ x ∈ l.toList ++ r.toList, node x = s.node x := fun x mem => by
    have rest : Nodes ((l.toList ++ r.toList) ++ around (f :: path)) := by
      rw [List.append_assoc]
      exact flat.right
    refine frame x (fun other => rest.apart other mem) fun same => off x ?_ (by simp [same])
    rw [← List.append_assoc]
    exact List.mem_append_left _ mem
  have newSc : node sc = (s.node sc).withChild .right (rootKey sc (f :: path)) := by
    rw [hnode, detached_self outSc]
  have newPath : HoldsPath node sc (ptr r) (f :: path) := by
    rw [hnode]
    exact holdsPath.detach flat.right.right.right (flat.address a (by simp)).2 outSc (ptr r)
  have neA : a ≠ sc := fun same => (List.nodup_cons.mp flat.distinct).1 (by simp [same])
  have short : (f :: path).length < fuel := by
    have total := (perm_plug (f :: path) (.node c' nil sc r)).length_eq
    rw [← whole, List.length_append] at total
    have := length_le_around (f :: path)
    omega
  -- the values of the successor and of the nodes on the path
  have fits := tracked.fits
  rw [whole] at nodes fits
  obtain ⟨augmented, copied, fitsR, fitsPath, above⟩ := @Tracks.copy _ _ _ _ tracks s.augmented k c l
    a (f :: path) c' sc r node nodes fits
  obtain ⟨augmented', propagated, fits', above'⟩ := @Tracks.propagate _ _ _ _ tracks fuel node
    augmented (f :: path) (⟨.right, c, sc, l⟩ :: k) r fitsR fitsPath above (nodes_successor flat)
    (newPath.climbs flat.right.right.right alignedSc) short
  have hangs' : Hangs { s with node := node, augmented := augmented' } k a :=
    hangs.congr fun x mem => frame x (fun other => off x (by simp [other]) (by simp [mem]))
      fun same => (List.nodup_cons.mp flat.distinct).1 (by simp [← same, mem])
  obtain ⟨s', run, tracked'⟩ := @eraseReplace_tracked _ augment E A
    { s with node := node, augmented := augmented' } k tracks c c' l r a sc (f :: path) fuel
    (by omega) hangs' flat some (by
      show (node a).left = _
      rw [frame a outA neA, atA])
    (by
      show (node a).parentColor = _
      rw [frame a outA neA, atA])
    (holdsL.congr fun x mem => stays x (by simp [mem]))
    (holdsR.congr fun x mem => stays x (by simp [mem]))
    (by
      show (node sc).right = _
      rw [newSc]
      rfl)
    (by
      show rbIsBlack (node sc) = true ↔ _
      rw [newSc, atSc]
      simp only [rbIsBlack, RbNode.withChild,
        rbColor_word (flat.address f.key (by simp [keyMem])).2]
      cases c' <;> simp [colorBit, rbRed, rbBlack])
    newPath fits' above'
  refine ⟨s', ?_, tracked'⟩
  subst hnode
  exact (rbEraseAugmented_detach some found (by omega) tracked.shows copied propagated).trans run

/-- The rebalancing after a node with at most one child has left its place. -/
theorem rebalance_tracked {side : Side} {c : Color} {a n : Nat}
    {child : RbTree Nat} (place : PlaceOk k n) (balanced : (make side c nil a child).Balanced n)
    {fuel : Nat} (enough : k.length ≤ fuel) (tracked : Tracked E s k (child.paint .black)) :
    ∃ s', (if (if child = nil ∧ c = .black then topKey k else 0) ≠ 0 then
        rbEraseColor augment fuel s (if child = nil ∧ c = .black then topKey k else 0)
        else some s) = some s' ∧
      Tracked E s' [] (dropNode k c child) := by
  cases child with
  | node c' l x r =>
    refine ⟨s, ?_, tracked_plug.mp tracked⟩
    simp
  | nil =>
    cases c with
    | red =>
      refine ⟨s, ?_, tracked_plug.mp tracked⟩
      simp
    | black =>
      simp only [true_and, if_true]
      cases k with
      | nil => exact ⟨s, rfl, tracked⟩
      | cons f k =>
        obtain ⟨m, rfl, none, _⟩ := balanced_make.mp balanced
        have someF := (tracked.shows.nodes.address f.key (by simp [mem_around_cons])).1
        rw [topKey_cons, if_pos someF]
        exact eraseColorLoop_tracked tracks place (by simp at enough; omega) tracked

/-- `rb_erase_augmented` -/
theorem rbEraseWith_tracked (tree : IsRedBlack (plug k (.node c l a r)))
    (enough : (plug k (.node c l a r)).toList.length < fuel)
    (tracked : Tracked E s k (.node c l a r)) :
    ∃ s', rbEraseWith augment fuel s a = some s' ∧ Tracked E s' [] (eraseAt k c l r) := by
  obtain ⟨n, place, balanced, colors, _⟩ := placeOk_of_isRedBlack tree
  have size := (perm_plug k (.node c l a r)).length_eq
  have depth := length_le_around k
  simp only [List.length_append, toList, List.length_cons] at size
  -- all cases end with the rebalancing of a place where a node has at most one child
  have finish : ∀ {rb : Nat} {s1 : RbState α} {k' : List (Frame Nat)} {c' : Color} {child : RbTree Nat}
      {side : Side} {b m : Nat}, rbEraseAugmented augment fuel s a = some (rb, s1) →
      rb = (if child = nil ∧ c' = .black then topKey k' else 0) → PlaceOk k' m →
      (make side c' nil b child).Balanced m → k'.length ≤ fuel →
      Tracked E s1 k' (child.paint .black) →
      ∃ s', rbEraseWith augment fuel s a = some s' ∧ Tracked E s' [] (dropNode k' c' child) := by
    intro rb s1 k' c' child side b m run hrb place' balanced' short tracked1
    obtain ⟨s2, run2, tracked2⟩ := @rebalance_tracked _ augment E A s1 k' tracks side c' b m child
      place' balanced' fuel short tracked1
    refine ⟨s2, ?_, tracked2⟩
    simp only [rbEraseWith, run]
    rwa [hrb]
  have painted : ∀ {side : Side} {child : RbTree Nat}, (make side c nil a child).Balanced n →
      (make side c nil a child).RedOk → child.paint c = child.paint .black := by
    intro side child balanced' colors'
    by_cases leaf : child = nil
    · rw [leaf]
      rfl
    · rw [(single_child leaf balanced' colors').2]
  cases l with
  | nil =>
    obtain ⟨s1, run, tracked1⟩ := rbEraseAugmented_left tracks (show k.length < fuel by omega) tracked
    rw [@painted .left r balanced colors] at tracked1
    exact @finish _ _ _ _ _ .left a n run rfl place balanced (by omega) tracked1
  | node cl ll al rl =>
    rw [eraseAt]
    split
    · rename_i none
      rw [firstPlace_eq_none] at none
      subst none
      obtain ⟨s1, run, tracked1⟩ := rbEraseAugmented_right tracks (by simp)
        (show k.length < fuel by omega) tracked
      rw [@painted .right _ balanced colors] at tracked1
      exact @finish _ _ _ _ _ .right a n run (by simp) place balanced (by omega) tracked1
    rename_i path c' sc r' found
    obtain ⟨m, place', balanced', _⟩ := successor_place tree found
    have inner := (perm_plug path (.node c' nil sc r')).length_eq
    rw [← (firstPlace_path found).2, List.length_append] at inner
    have pathDepth := length_le_around path
    have short : (path ++ ⟨.right, c, sc, .node cl ll al rl⟩ :: k).length ≤ fuel := by
      simp only [List.length_append, List.length_cons]
      omega
    cases path with
    | nil =>
      obtain rfl : r = .node c' nil sc r' := (firstPlace_path found).2
      obtain ⟨s1, run, tracked1⟩ := rbEraseAugmented_child tracks (by simp)
        (show k.length + 1 < fuel by omega) tracked
      exact @finish _ _ _ _ _ .left sc m run rfl place' balanced' short tracked1
    | cons f path =>
      obtain ⟨s1, run, tracked1⟩ := rbEraseAugmented_below tracks (by simp) found
        (show r.toList.length + k.length + 1 < fuel by omega) tracked
      exact @finish _ _ _ _ _ .left sc m run rfl place' balanced' short tracked1

end

end Erase

end Linux318.Source.Rbtree
