import Linux318.Source.Rbtree.Node

/-!
The tree that the nodes in memory show, seen from a place in it: the subtree at the place, and the
nodes above. What does not change in memory keeps showing the same.
-/
namespace Linux318.Source.Rbtree
open Lib.RedBlack Lib.RedBlack.RbTree Function

variable {node node' : Nat → RbNode} {k : List (Frame Nat)} {t : RbTree Nat} {a : Nat}

def colorBit : Color → Nat
  | .red => rbRed
  | .black => rbBlack

def word (parent : Nat) (c : Color) : Nat := parent ||| colorBit c

section Word

variable {parent : Nat} (aligned : parent % 4 = 0) (c : Color)
include aligned

theorem word_eq_add : word parent c = parent + colorBit c := by
  obtain ⟨q, rfl⟩ : ∃ q, parent = 2 ^ 2 * q := ⟨parent / 4, by omega⟩
  have small : colorBit c < 2 ^ 2 := by cases c <;> decide
  exact (Nat.two_pow_add_eq_or_of_lt small q).symm

@[simp] theorem rbParent_word : rbParent (word parent c) = parent := by
  rw [word_eq_add aligned, rbParent]
  cases c <;> simp only [colorBit, rbRed, rbBlack] <;> omega

@[simp] theorem rbColor_word : rbColor (word parent c) = colorBit c := by
  rw [word_eq_add aligned, rbColor]
  cases c <;> simp only [colorBit, rbRed, rbBlack] <;> omega

end Word

theorem word_red (parent : Nat) : word parent .red = parent := Nat.or_zero parent

def RbNode.withWord (n : RbNode) (pc : Nat) : RbNode := { n with parentColor := pc }

def record (side : Side) (pc near far : Nat) : RbNode :=
  match side with
  | .left => ⟨pc, far, near⟩
  | .right => ⟨pc, near, far⟩

section Record

variable (side : Side) (pc near far a : Nat)

@[simp] theorem child_record : (record side pc near far).child side = near := by
  cases side <;> rfl

@[simp] theorem child_other_record : (record side pc near far).child side.other = far := by
  cases side <;> rfl

@[simp] theorem withChild_record : (record side pc near far).withChild side a =
    record side pc a far := by
  cases side <;> rfl

@[simp] theorem withChild_other_record : (record side pc near far).withChild side.other a =
    record side pc near a := by
  cases side <;> rfl

@[simp] theorem parentColor_record : (record side pc near far).parentColor = pc := by
  cases side <;> rfl

theorem record_other : record side.other pc near far = record side pc far near := by
  cases side <;> rfl

@[simp] theorem withWord_record (pc' : Nat) :
    (record side pc near far).withWord pc' = record side pc' near far := by
  cases side <;> rfl

end Record

structure Nodes (l : List Nat) : Prop where
  distinct : l.Nodup
  address : ∀ a ∈ l, a ≠ 0 ∧ a % 4 = 0

section Nodes

variable {l l' : List Nat}

theorem nodes_perm (perm : l.Perm l') : Nodes l ↔ Nodes l' :=
  ⟨fun nodes => ⟨perm.nodup_iff.mp nodes.distinct, fun a mem =>
      nodes.address a (perm.mem_iff.mpr mem)⟩,
    fun nodes => ⟨perm.nodup_iff.mpr nodes.distinct, fun a mem =>
      nodes.address a (perm.mem_iff.mp mem)⟩⟩

theorem Nodes.sublist (nodes : Nodes l) (sub : l'.Sublist l) : Nodes l' :=
  ⟨sub.nodup nodes.distinct, fun a mem => nodes.address a (sub.subset mem)⟩

theorem Nodes.left (nodes : Nodes (l ++ l')) : Nodes l := nodes.sublist (List.sublist_append_left ..)

theorem Nodes.right (nodes : Nodes (l ++ l')) : Nodes l' :=
  nodes.sublist (List.sublist_append_right ..)

theorem Nodes.tail (nodes : Nodes (a :: l)) : Nodes l :=
  nodes.sublist (List.sublist_cons_self ..)

theorem Nodes.apart (nodes : Nodes (l ++ l')) (mem : a ∈ l') : a ∉ l := fun other =>
  List.disjoint_of_nodup_append nodes.distinct other mem

theorem Nodes.swap (nodes : Nodes (l ++ l')) : Nodes (l' ++ l) :=
  (nodes_perm List.perm_append_comm).mp nodes

end Nodes

def ptr : RbTree Nat → Nat
  | .nil => 0
  | .node _ _ a _ => a

@[simp] theorem ptr_nil : ptr nil = 0 := rfl

@[simp] theorem ptr_node (c : Color) (l r : RbTree Nat) (a : Nat) : ptr (.node c l a r) = a := rfl

@[simp] theorem ptr_make (side : Side) (c : Color) (near far : RbTree Nat) (a : Nat) :
    ptr (make side c near a far) = a := by
  cases side <;> rfl

@[simp] theorem ptr_paint (c : Color) (t : RbTree Nat) : ptr (t.paint c) = ptr t := by
  cases t <;> rfl

def Holds (node : Nat → RbNode) (parent : Nat) : RbTree Nat → Prop
  | .nil => True
  | .node c l a r => node a = ⟨word parent c, ptr r, ptr l⟩ ∧ Holds node a l ∧ Holds node a r

theorem holds_make {parent : Nat} {side : Side} {c : Color} {near far : RbTree Nat} :
    Holds node parent (make side c near a far) ↔
      node a = record side (word parent c) (ptr near) (ptr far) ∧ Holds node a near ∧
        Holds node a far := by
  cases side
  · rfl
  · exact and_congr_right fun _ => and_comm

theorem Holds.congr {parent : Nat} (holds : Holds node parent t)
    (same : ∀ a ∈ t.toList, node' a = node a) : Holds node' parent t := by
  induction t generalizing parent with
  | nil => trivial
  | node c l a r ihl ihr =>
    obtain ⟨here, left, right⟩ := holds
    simp only [toList, List.mem_append, List.mem_cons] at same
    exact ⟨(same a (.inr (.inl rfl))).trans here, ihl left fun b mem => same b (.inl mem),
      ihr right fun b mem => same b (.inr (.inr mem))⟩

theorem ptr_mem (some : t ≠ .nil) : ptr t ∈ t.toList := by
  cases t with
  | nil => exact absurd rfl some
  | node c l a r => simp [toList]

theorem Holds.reparent {parent parent' : Nat} {c : Color} (holds : Holds node parent t)
    (nodes : Nodes t.toList) (same : ∀ a ∈ t.toList, a ≠ ptr t → node' a = node a)
    (root : t ≠ .nil → node' (ptr t) = (node (ptr t)).withWord (word parent' c)) :
    Holds node' parent' (t.paint c) := by
  cases t with
  | nil => trivial
  | node c' l a r =>
    obtain ⟨here, left, right⟩ := holds
    simp only [toList, List.mem_append, List.mem_cons, ptr] at same root
    have nodup := nodes.distinct
    simp only [toList, List.nodup_append, List.nodup_cons, List.mem_cons] at nodup
    obtain ⟨_, ⟨notRight, _⟩, notLeft⟩ := nodup
    refine ⟨?_, left.congr fun b mem => ?_, right.congr fun b mem => ?_⟩
    · rw [root (by simp), here]
      rfl
    · exact same b (.inl mem) fun eq => notLeft b mem a (.inl rfl) eq
    · exact same b (.inr (.inr mem)) fun eq => notRight (eq ▸ mem)

def topKey : List (Frame Nat) → Nat
  | [] => 0
  | f :: _ => f.key

@[simp] theorem topKey_cons (f : Frame Nat) (k : List (Frame Nat)) : topKey (f :: k) = f.key := rfl

theorem topKey_mem (some : topKey k ≠ 0) : topKey k ∈ around k := by
  cases k with
  | nil => exact absurd rfl some
  | cons f k => exact mem_around_cons.mpr (.inl rfl)

theorem topKey_aligned (nodes : Nodes (around k)) : topKey k % 4 = 0 := by
  by_cases none : topKey k = 0
  · rw [none]
  · exact (nodes.address _ (topKey_mem none)).2

def rootKey (child : Nat) : List (Frame Nat) → Nat
  | [] => child
  | f :: k => rootKey f.key k

def HoldsAbove (node : Nat → RbNode) (child : Nat) : List (Frame Nat) → Prop
  | [] => True
  | f :: k => node f.key = record f.side (word (topKey k) f.color) child (ptr f.sib) ∧
      Holds node f.key f.sib ∧ HoldsAbove node f.key k

theorem HoldsAbove.congr {child : Nat} (holds : HoldsAbove node child k)
    (same : ∀ a ∈ around k, node' a = node a) : HoldsAbove node' child k := by
  induction k generalizing child with
  | nil => trivial
  | cons f k ih =>
    obtain ⟨here, sib, above⟩ := holds
    simp only [mem_around_cons] at same
    exact ⟨(same _ (.inl rfl)).trans here, sib.congr fun a mem => same a (.inr (.inl mem)),
      ih above fun a mem => same a (.inr (.inr mem))⟩

/-- The memory shows the tree `t` at the place `k`. -/
structure Shows {α : Type} (s : RbState α) (k : List (Frame Nat)) (t : RbTree Nat) : Prop where
  focus : Holds s.node (topKey k) t
  above : HoldsAbove s.node (ptr t) k
  root : s.root = rootKey (ptr t) k
  nodes : Nodes (t.toList ++ around k)

/-- A root of NULL is the empty tree. -/
theorem shows_nil {α : Type} {s : RbState α} (empty : s.root = 0) : Shows s [] nil :=
  ⟨trivial, trivial, empty, ⟨List.nodup_nil, fun _ member => absurd member List.not_mem_nil⟩⟩

theorem shows_cons {α : Type} {s : RbState α} {f : Frame Nat} :
    Shows s (f :: k) t ↔ Shows s k (make f.side f.color t f.key f.sib) := by
  have same := nodes_perm (perm_around_cons f k t)
  constructor
  · rintro ⟨focus, ⟨here, sib, above⟩, root, nodes⟩
    refine ⟨holds_make.mpr ⟨here, focus, sib⟩, ?_, ?_, same.mp nodes⟩
    · rwa [ptr_make]
    · rwa [ptr_make]
  · rintro ⟨focus, above, root, nodes⟩
    obtain ⟨here, near, far⟩ := holds_make.mp focus
    rw [ptr_make] at above root
    exact ⟨near, ⟨here, far, above⟩, root, same.mpr nodes⟩

/-- The place does not matter for what is shown. -/
theorem shows_plug {α : Type} {s : RbState α} : Shows s k t ↔ Shows s [] (plug k t) := by
  induction k generalizing t with
  | nil => rfl
  | cons f k ih => exact shows_cons.trans ih

section Fields

variable {α : Type} {s : RbState α} {a : Nat} (here : a ≠ 0)
include here

theorem load_eq : load s a = some (s.node a) := if_neg here

theorem store_eq (n : RbNode) : store s a n = some { s with node := update s.node a n } :=
  if_neg here

theorem setChild_eq (side : Side) (b : Nat) : setChild s side a b =
      some { s with node := update s.node a ((s.node a).withChild side b) } := by
  simp [setChild, load_eq here, store_eq here]

theorem rbSetParentColor_eq (p color : Nat) : rbSetParentColor s a p color =
      some { s with node := update s.node a ((s.node a).withWord (p ||| color)) } := by
  simp [rbSetParentColor, load_eq here, store_eq here, RbNode.withWord]

end Fields

/-- The word of a node is set, unless the node is NULL. -/
def setWord (node : Nat → RbNode) (a pc : Nat) : Nat → RbNode :=
  if a = 0 then node else update node a ((node a).withWord pc)

theorem setWord_of_ne {b : Nat} (ne : b ≠ a) (pc : Nat) : setWord node a pc b = node b := by
  unfold setWord
  split_ifs
  · rfl
  · exact update_of_ne ne _ _

theorem setWord_self (here : a ≠ 0) (pc : Nat) : setWord node a pc a = (node a).withWord pc := by
  rw [setWord, if_neg here, update_self]

theorem setWord_congr {b : Nat} (same : node' b = node b) (pc : Nat) :
    setWord node' a pc b = setWord node a pc b := by
  by_cases here : b = a
  · subst here
    unfold setWord
    split_ifs
    · exact same
    · rw [update_self, update_self, same]
  · rw [setWord_of_ne here, setWord_of_ne here, same]

theorem ite_rbSetParentColor {α : Type} (s : RbState α) (a p color : Nat) :
    (if a ≠ 0 then rbSetParentColor s a p color else some s) =
      some { s with node := setWord s.node a (p ||| color) } := by
  by_cases here : a = 0
  · simp [setWord, here]
  · rw [if_pos here, rbSetParentColor_eq here, setWord, if_neg here]

section Subtree

variable {node : Nat → RbNode} {parent : Nat} {t : RbTree Nat}

theorem ptr_ne (notIn : a ∉ t.toList) (some : a ≠ 0) : a ≠ ptr t := by
  rintro rfl
  cases t with
  | nil => exact some rfl
  | node c l a r => exact notIn (by simp [toList])

theorem ptr_notMem {l l' : List Nat} (nodes : Nodes (l ++ l')) (sub : ∀ a ∈ t.toList, a ∈ l') :
    ptr t ∉ l := by
  cases t with
  | nil => exact fun mem => (nodes.left.address 0 mem).1 rfl
  | node c left a right => exact nodes.apart (sub a (by simp [toList]))

theorem setWord_apart {l : List Nat} (nodes : Nodes (t.toList ++ l)) (mem : a ∈ l)
    (pc : Nat) : setWord node (ptr t) pc a = node a :=
  setWord_of_ne (ptr_ne (nodes.apart mem) (nodes.right.address a mem).1) pc

theorem ptr_eq_zero (nodes : Nodes t.toList) : ptr t = 0 ↔ t = .nil := by
  cases t with
  | nil => simp
  | node c l a r => simpa using (nodes.address a (by simp [toList])).1

/-- The subtree with another parent and color. -/
theorem Holds.setWord (holds : Holds node parent t) (nodes : Nodes t.toList) (parent' : Nat)
    (c : Color) : Holds (setWord node (ptr t) (word parent' c)) parent' (t.paint c) :=
  holds.reparent nodes (fun _ _ ne => setWord_of_ne ne _) fun some =>
    setWord_self ((ptr_eq_zero nodes).not.mpr some) _

section
variable (holds : Holds node parent t) (aligned : parent % 4 = 0) (nodes : Nodes t.toList)
include holds aligned nodes

theorem color_iff : ((ptr t ≠ 0 ∧ rbIsRed (node (ptr t)) = true) ↔ t.isRed = true) ∧
    ((ptr t = 0 ∨ rbIsBlack (node (ptr t)) = true) ↔ t.isRed = false) := by
  cases t with
  | nil => simp [isRed]
  | node c l a r =>
    have here := (nodes.address a (by simp [toList])).1
    rw [ptr, rbIsRed, rbIsBlack, holds.1]
    cases c <;> simp [here, isRed, aligned, colorBit, rbRed, rbBlack]

end

end Subtree

structure Hangs {α : Type} (s : RbState α) (k : List (Frame Nat)) (a : Nat) : Prop where
  above : HoldsAbove s.node a k
  root : s.root = rootKey a k
  nodes : Nodes (a :: around k)

theorem Shows.hangs {α : Type} {s : RbState α}
    (shows : Shows s k t) (some : t ≠ nil) : Hangs s k (ptr t) := by
  exact ⟨shows.above, shows.root, shows.nodes.sublist
    ((List.singleton_sublist.mpr (ptr_mem some)).append_right (around k))⟩

section Relink

variable {α : Type} {s : RbState α} {k : List (Frame Nat)} {old new : Nat}

section
variable (hangs : Hangs s k old)
include hangs

theorem Hangs.congr {augmented : Nat → α} (same : ∀ a ∈ around k, node a = s.node a) :
    Hangs { s with node := node, augmented := augmented } k old :=
  ⟨hangs.above.congr same, hangs.root, hangs.nodes⟩

theorem Hangs.some : old ≠ 0 :=
  (hangs.nodes.address old (List.mem_cons_self ..)).1

theorem Hangs.fresh : old ∉ around k :=
  (List.nodup_cons.mp hangs.nodes.distinct).1

/-- `__rb_change_child` gives the nodes above another child, and changes nothing else. -/
theorem rbChangeChild_above (new : Nat) :
    ∃ s', rbChangeChild s old new (topKey k) = .some s' ∧ HoldsAbove s'.node new k ∧
      s'.root = rootKey new k ∧ s'.augmented = s.augmented ∧
      ∀ a, a ∉ around k → s'.node a = s.node a := by
  cases k with
  | nil => exact ⟨_, rfl, trivial, rfl, rfl, fun _ _ => rfl⟩
  | cons f k =>
    have some := hangs.some
    obtain ⟨⟨here, sib, above⟩, root, nodes⟩ := hangs
    have inAround : f.key ∈ around (f :: k) := mem_around_cons.mpr (.inl rfl)
    have key := (nodes.address f.key (List.mem_cons_of_mem _ inAround)).1
    have nodup := nodes.distinct
    rw [List.nodup_cons, mem_around_cons, (perm_around f k).nodup_iff, List.nodup_cons,
      List.mem_append] at nodup
    push Not at nodup
    obtain ⟨⟨_, notSib, _⟩, ⟨keySib, keyAround⟩, _⟩ := nodup
    obtain ⟨n, hn⟩ : ∃ n, n = record f.side (word (topKey k) f.color) new (ptr f.sib) := ⟨_, rfl⟩
    refine ⟨{ s with node := update s.node f.key n }, ?_, ⟨?_, ?_, ?_⟩, root, rfl, ?_⟩
    · simp only [rbChangeChild, topKey_cons, if_pos key, load_eq key, here, store_eq key]
      have other := ptr_ne notSib some
      cases side : f.side
      · simp [record, hn, side]
      · simp [record, hn, side, other.symm]
    · rw [← hn]
      exact update_self ..
    · exact sib.congr fun a mem =>
        update_of_ne (ne_of_mem_of_not_mem mem keySib) _ _
    · exact above.congr fun a mem =>
        update_of_ne (ne_of_mem_of_not_mem mem keyAround) _ _
    · exact fun a out => update_of_ne (ne_of_mem_of_not_mem inAround out).symm _ _

/-- `__rb_rotate_set_parents`: the new node takes the place and the word of the old one. -/
theorem rbRotateSetParents_above (nodes : Nodes (new :: old :: around k))
    (parent : rbParent (s.node old).parentColor = topKey k) (color : Nat) :
    ∃ s', rbRotateSetParents s old new color = .some s' ∧ Hangs s' k new ∧
      s'.augmented = s.augmented ∧
      s'.node new = (s.node new).withWord (s.node old).parentColor ∧
      s'.node old = (s.node old).withWord (new ||| color) ∧
      ∀ a, a ∉ new :: old :: around k → s'.node a = s.node a := by
  have some := hangs.some
  have oldFresh := hangs.fresh
  have someNew := (nodes.address new (List.mem_cons_self ..)).1
  obtain ⟨fresh, _⟩ := List.nodup_cons.mp nodes.distinct
  rw [List.mem_cons, not_or] at fresh
  obtain ⟨ne, fresh⟩ := fresh
  obtain ⟨node, hnode⟩ : ∃ node, node = update (update s.node new
        ((s.node new).withWord (s.node old).parentColor))
        old ((s.node old).withWord (new ||| color)) := ⟨_, rfl⟩
  have hangs' : Hangs { s with node := node } k old := hangs.congr fun a mem => by
    rw [hnode, update_of_ne (ne_of_mem_of_not_mem mem oldFresh),
      update_of_ne (ne_of_mem_of_not_mem mem fresh)]
  obtain ⟨s', run, above, root, augmented, same⟩ := rbChangeChild_above hangs' new
  have same : ∀ a, a ∉ around k → s'.node a = node a := same
  refine ⟨s', ?_, ⟨above, root, ?_⟩, augmented, ?_, ?_, ?_⟩
  · simp only [rbRotateSetParents, load_eq some, load_eq someNew, store_eq someNew,
      rbSetParentColor_eq some, Option.bind_eq_bind, Option.bind_some, parent,
      update_of_ne (Ne.symm ne)]
    rw [hnode] at run
    exact run
  · exact nodes.sublist (List.Sublist.cons_cons new (List.sublist_cons_self ..))
  · rw [same new fresh, hnode, update_of_ne ne, update_self]
  · rw [same old oldFresh, hnode, update_self]
  · intro a out
    simp only [List.mem_cons, not_or] at out
    obtain ⟨notNew, notOld, out⟩ := out
    rw [same a out, hnode, update_of_ne notOld, update_of_ne notNew]

/-- The same when both have got their new children, and `rest` has written to other nodes. -/
theorem rotate_above (rest : (Nat → RbNode) → Nat → RbNode) (o n : RbNode) (color : Nat)
    (nodes : Nodes (new :: old :: around k)) (parent : rbParent (s.node old).parentColor = topKey k)
    (word : o.parentColor = (s.node old).parentColor)
    (pointwise : ∀ {m m' a}, m' a = m a → rest m' a = rest m a)
    (apart : ∀ m, ∀ a ∈ new :: old :: around k, rest m a = m a) :
    ∃ s', rbRotateSetParents { s with node := rest (update (update s.node old o) new n) } old new
        color = .some s' ∧ Hangs s' k new ∧ s'.augmented = s.augmented ∧
      s'.node new = n.withWord (s.node old).parentColor ∧ s'.node old = o.withWord (new ||| color) ∧
      ∀ a, a ∉ new :: old :: around k → s'.node a = rest s.node a := by
  obtain ⟨fresh, _⟩ := List.nodup_cons.mp nodes.distinct
  rw [List.mem_cons, not_or] at fresh
  obtain ⟨ne, fresh⟩ := fresh
  obtain ⟨node, hnode⟩ : ∃ node, node = rest (update (update s.node old o) new n) := ⟨_, rfl⟩
  have same : ∀ a, a ≠ new → a ≠ old → node a = rest s.node a := fun a notNew notOld => by
    rw [hnode]
    exact pointwise (by rw [update_of_ne notNew, update_of_ne notOld])
  have atNew : node new = n := by rw [hnode, apart _ new (by simp), update_self]
  have atOld : node old = o := by
    rw [hnode, apart _ old (by simp), update_of_ne (Ne.symm ne), update_self]
  have hangs' : Hangs { s with node := node } k old := hangs.congr fun a mem => by
    rw [same a (ne_of_mem_of_not_mem mem fresh) (ne_of_mem_of_not_mem mem hangs.fresh),
      apart _ a (by simp [mem])]
  have sameWord : (node old).parentColor = (s.node old).parentColor := by rw [atOld, word]
  obtain ⟨s', run, hangs1, augmented, newNode, oldNode, others⟩ :=
    rbRotateSetParents_above hangs' nodes (sameWord ▸ parent) color
  rw [hnode] at run
  refine ⟨s', run, hangs1, augmented, ?_, ?_, fun a out => ?_⟩
  · exact newNode.trans (congrArg₂ RbNode.withWord atNew sameWord)
  · exact oldNode.trans (congrArg (RbNode.withWord · _) atOld)
  · rw [others a out]
    simp only [List.mem_cons, not_or] at out
    exact same a out.1 out.2.1

end

end Relink

end Linux318.Source.Rbtree
