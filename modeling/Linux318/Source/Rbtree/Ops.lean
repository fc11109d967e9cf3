import Linux318.Source.Rbtree.Erase

/-!
The operations on a tree: to link a node at a NULL child and rebalance, and to remove a node. Both
are seen through the list of the nodes in order.
-/
namespace Linux318.Source.Rbtree
open Lib.RedBlack Lib.RedBlack.RbTree Function

/-- The nodes in order, after a node is linked as a child of `parent`. -/
def linkAt (side : Side) (a parent : Nat) : List Nat → List Nat
  | [] => [a]
  | b :: l =>
    if b = parent then
      match side with
      | .left => a :: b :: l
      | .right => b :: a :: l
    else b :: linkAt side a parent l

variable {side : Side} {k : List (Frame Nat)} {parent a : Nat}

theorem length_linkAt (side : Side) (a parent : Nat) (l : List Nat) :
    (linkAt side a parent l).length = l.length + 1 := by
  induction l with
  | nil => rfl
  | cons b l ih =>
    simp only [linkAt]
    split
    · cases side <;> rfl
    · rw [List.length_cons, ih, List.length_cons]

theorem mem_linkAt {l : List Nat} {b : Nat} (mem : b ∈ linkAt side a parent l) : b = a ∨ b ∈ l := by
  induction l with
  | nil => exact .inl (List.mem_singleton.mp mem)
  | cons c l ih =>
    simp only [linkAt] at mem
    split at mem
    · cases side <;> simp only [List.mem_cons] at mem ⊢ <;> tauto
    rcases List.mem_cons.mp mem with rfl | mem
    · exact .inr (List.mem_cons_self ..)
    · exact (ih mem).imp_right (List.mem_cons_of_mem c)

theorem linkAt_append {l l' : List Nat} (notIn : parent ∉ l) :
    linkAt side a parent (l ++ parent :: l') =
      match side with
      | .left => l ++ a :: parent :: l'
      | .right => l ++ parent :: a :: l' := by
  induction l with
  | nil => cases side <;> simp [linkAt]
  | cons b l ih =>
    simp only [List.mem_cons, not_or] at notIn
    simp only [List.cons_append, linkAt, if_neg (Ne.symm notIn.1), ih notIn.2]
    cases side <;> rfl

/-- A node can be linked: its address is new, and `parent` has no child there. -/
structure CanLink {α : Type} (s : RbState α) (l : List Nat) (a parent : Nat) (side : Side) : Prop where
  fresh : a ∉ l
  address : a ≠ 0 ∧ a % 4 = 0
  free : parent = 0 ∧ l = [] ∨ parent ∈ l ∧ (s.node parent).child side = 0

instance decidableCanLink {α : Type} (s : RbState α) (l : List Nat) (a parent : Nat) (side : Side) :
    Decidable (CanLink s l a parent side) :=
  decidable_of_iff (a ∉ l ∧ (a ≠ 0 ∧ a % 4 = 0) ∧
      (parent = 0 ∧ l = [] ∨ parent ∈ l ∧ (s.node parent).child side = 0))
    ⟨fun all => ⟨all.1, all.2.1, all.2.2⟩, fun can => ⟨can.fresh, can.address, can.free⟩⟩

section Ops

variable {α : Type} {augment : RbAugmentCallbacks α} {E : (Nat → α) → RbTree Nat → Prop}
  {A : (Nat → α) → List (Frame Nat) → Prop} {s : RbState α} {t : RbTree Nat}

theorem exists_leaf (shows : Shows s [] t) (mem : parent ∈ t.toList)
    (free : (s.node parent).child side = 0) :
    ∃ f k, t = plug (f :: k) nil ∧ f.key = parent ∧ f.side = side := by
  obtain ⟨k, c, l, r, rfl⟩ := exists_place mem
  obtain ⟨⟨here, _, _⟩, _, _, nodes⟩ := shows_plug.mpr shows
  rw [here] at free
  cases side with
  | left =>
    obtain rfl : l = nil := (ptr_eq_zero (nodes.left.sublist (by simp [toList]))).mp free
    exact ⟨⟨.left, c, parent, r⟩, k, rfl, rfl, rfl⟩
  | right =>
    obtain rfl : r = nil := (ptr_eq_zero (nodes.left.sublist (by simp [toList]))).mp free
    exact ⟨⟨.right, c, parent, l⟩, k, rfl, rfl, rfl⟩

theorem toList_leaf {f : Frame Nat} (nodes : (plug (f :: k) nil).toList.Nodup) :
    (plug (f :: k) (.node .red nil a nil)).toList =
      linkAt f.side a f.key (plug (f :: k) nil).toList := by
  obtain ⟨side, c, parent, sib⟩ := f
  rw [toList_plug] at nodes ⊢
  rw [toList_plug]
  cases side with
  | left =>
    simp only [behind, toList, List.cons_append] at nodes ⊢
    rw [linkAt_append fun mem => ?_]
    · simp
    · exact (List.disjoint_of_nodup_append nodes) mem (List.mem_cons_self ..)
  | right =>
    simp only [before, behind, toList, List.append_nil] at nodes ⊢
    have list : before k ++ (sib.toList ++ [parent]) ++ behind k =
        (before k ++ sib.toList) ++ parent :: behind k := by simp
    rw [list] at nodes ⊢
    rw [linkAt_append fun mem => ?_]
    · simp
    · exact (List.disjoint_of_nodup_append nodes) mem (List.mem_cons_self ..)

/-- The parent and the side that a path ends with, if it starts at a link of its own. -/
def LinkOf (path : List (Frame Nat)) (parent : Nat) (side : Side) (parent' : Nat) (side' : Side) :
    Prop :=
  match path with
  | [] => parent' = parent ∧ side' = side
  | f :: _ => parent' = f.key ∧ side' = f.side

/-- `rb_link_node`: the tree with a red leaf more. -/
theorem rbLinkNode_place {side0 : Side} (shows : Shows s k nil) (fresh : a ∉ around k)
    (address : a ≠ 0 ∧ a % 4 = 0) (link : LinkOf k 0 side0 parent side) :
    ∃ s', rbLinkNode s a parent side = some s' ∧ s'.augmented = s.augmented ∧
      Shows s' k (.node .red nil a nil) := by
  obtain ⟨_, above, root, nodes⟩ := shows
  have nodes' : Nodes ((RbTree.node .red nil a nil).toList ++ around k) := by
    refine ⟨List.nodup_cons.mpr ⟨fresh, nodes.distinct⟩, fun b mem => ?_⟩
    rcases List.mem_cons.mp mem with rfl | mem
    · exact address
    · exact nodes.address b mem
  cases k with
  | nil =>
    obtain ⟨rfl, _⟩ : parent = 0 ∧ _ := link
    refine ⟨{ s with node := update s.node a ⟨0, 0, 0⟩, root := a }, ?_, rfl,
      ⟨?_, trivial, trivial⟩, trivial, rfl, nodes'⟩
    · rw [rbLinkNode, store_eq address.1]
      rfl
    · exact update_self ..
  | cons f k =>
    obtain ⟨rfl, rfl⟩ : parent = f.key ∧ side = f.side := link
    obtain ⟨here, sib, above⟩ := above
    have someF := (nodes.address f.key (by simp [mem_around_cons])).1
    have inner := (nodes_perm (perm_around f k)).mp nodes.right
    rw [mem_around_cons, not_or, not_or] at fresh
    obtain ⟨ne, notSib, notAround⟩ := fresh
    obtain ⟨apart, _⟩ := List.nodup_cons.mp inner.distinct
    obtain ⟨node, hnode⟩ : ∃ node, node = update (update s.node a ⟨f.key, 0, 0⟩)
      f.key (record f.side (word (topKey k) f.color) a (ptr f.sib)) := ⟨_, rfl⟩
    have frame : ∀ b, b ≠ a → b ≠ f.key → node b = s.node b := fun b notA notF => by
      rw [hnode, update_of_ne notF, update_of_ne notA]
    refine ⟨{ s with node := node }, ?_, rfl, ⟨?_, trivial, trivial⟩,
      ⟨?_, sib.congr fun b mem => ?_, above.congr fun b mem => ?_⟩, root, nodes'⟩
    · rw [rbLinkNode, store_eq address.1]
      simp [if_neg someF, setChild_eq someF, update_of_ne (Ne.symm ne), here, hnode]
    · show node a = _
      rw [hnode, update_of_ne ne, update_self, word_red]
      rfl
    · show node f.key = _
      rw [hnode, update_self]
      rfl
    · exact frame b (ne_of_mem_of_not_mem mem notSib) fun same =>
        apart (by simp [← same, mem])
    · exact frame b (ne_of_mem_of_not_mem mem notAround) fun same =>
        apart (by simp [← same, mem])

/-- Linking a node at a place and rebalancing. -/
theorem insertAt_tracked (tracks : Tracks augment E A) {k : List (Frame Nat)} {a parent : Nat}
    {side side0 : Side} {fuel : Nat} (shows : Shows s k nil) (tree : IsRedBlack (plug k nil))
    (fresh : a ∉ around k) (address : a ≠ 0 ∧ a % 4 = 0) (link : LinkOf k 0 side0 parent side)
    (enough : (plug k nil).toList.length < fuel)
    (fits : E s.augmented (plug k (.node .red nil a nil))) : ∃ s' t', (do
        let s ← rbLinkNode s a parent side
        rbInsert augment fuel s a) = some s' ∧
      Tracked E s' [] t' ∧ IsRedBlack t' ∧ t'.toList = (plug k (.node .red nil a nil)).toList := by
  obtain ⟨s1, run, same, shows1⟩ := rbLinkNode_place shows fresh address link
  obtain ⟨n, place, none, _, _⟩ := placeOk_of_isRedBlack tree
  obtain rfl : n = 0 := none
  have tracked1 : Tracked E s1 k (.node .red nil a nil) := ⟨shows1, by rwa [same]⟩
  have short : k.length < fuel := by
    have size := (perm_plug k nil).length_eq
    have := length_le_around k
    simp only [toList, List.nil_append] at size
    omega
  obtain ⟨s2, run2, tracked2⟩ := insertLoop_tracked tracks (by simp) place short tracked1
  refine ⟨s2, _, ?_, tracked2, insertFix_isRedBlack place rfl ⟨0, rfl, rfl, rfl⟩
    ⟨fun _ => ⟨rfl, rfl⟩, trivial, trivial⟩, toList_insertFix k _⟩
  have wordA : (s1.node a).parentColor = topKey k := by rw [shows1.focus.1, word_red]
  simp only [run, rbInsert, load_eq address.1, Option.bind_eq_bind, Option.bind_some, wordA]
  exact run2

/-- Linking a node at a NULL child and rebalancing. -/
theorem insert_tracked (tracks : Tracks augment E A) {a parent : Nat} {side : Side} {fuel : Nat}
    (shows : Shows s [] t) (tree : IsRedBlack t) (can : CanLink s t.toList a parent side)
    (enough : t.toList.length < fuel)
    (fits : ∀ s1 t1, rbLinkNode s a parent side = some s1 → Shows s1 [] t1 →
      t1.toList = linkAt side a parent t.toList → E s1.augmented t1) : ∃ s' t', (do
        let s ← rbLinkNode s a parent side
        rbInsert augment fuel s a) = some s' ∧
      Tracked E s' [] t' ∧ IsRedBlack t' ∧ t'.toList = linkAt side a parent t.toList := by
  obtain ⟨fresh, address, free⟩ := can
  obtain ⟨k, rfl, link, list⟩ : ∃ k, t = plug k nil ∧ LinkOf k 0 side parent side ∧
      (plug k (.node .red nil a nil)).toList = linkAt side a parent t.toList := by
    rcases free with ⟨rfl, none⟩ | ⟨mem, free⟩
    · cases t with
      | nil => exact ⟨[], rfl, ⟨rfl, rfl⟩, rfl⟩
      | node c l b r => simp [toList] at none
    · obtain ⟨f, k, rfl, rfl, rfl⟩ := exists_leaf shows mem free
      exact ⟨f :: k, rfl, ⟨rfl, rfl⟩, toList_leaf shows.nodes.left.distinct⟩
  have shows := shows_plug.mpr shows
  have fresh' : a ∉ around k := fun other => fresh ((perm_plug k nil).mem_iff.mpr other)
  obtain ⟨s1, run, same, shows1⟩ := rbLinkNode_place shows fresh' address link
  rw [← list]
  exact insertAt_tracked tracks shows tree fresh' address link enough
    (same ▸ fits s1 _ run (shows_plug.mp shows1) list)

theorem erase_tracked (tracks : Tracks augment E A) {fuel : Nat} (tracked : Tracked E s [] t)
    (tree : IsRedBlack t) (mem : a ∈ t.toList) (enough : t.toList.length < fuel) :
    ∃ s' t', rbEraseWith augment fuel s a = some s' ∧ Tracked E s' [] t' ∧ IsRedBlack t' ∧
      t'.toList = t.toList.erase a := by
  obtain ⟨k, c, l, r, rfl⟩ := exists_place mem
  obtain ⟨s', run, tracked'⟩ := rbEraseWith_tracked tracks tree enough (tracked_plug.mpr tracked)
  refine ⟨s', _, run, tracked', eraseAt_isRedBlack tree, ?_⟩
  have nodup := tracked.shows.nodes.left.distinct
  rw [toList_eraseAt]
  rw [toList_plug] at nodup ⊢
  have list : before k ++ (RbTree.node c l a r).toList ++ behind k =
      (before k ++ l.toList) ++ a :: (r.toList ++ behind k) := by simp [toList]
  rw [list] at nodup ⊢
  have notIn : a ∉ before k ++ l.toList := fun mem =>
    (List.disjoint_of_nodup_append nodup) mem (List.mem_cons_self ..)
  rw [List.erase_append_right _ notIn]
  simp

end Ops

end Linux318.Source.Rbtree
