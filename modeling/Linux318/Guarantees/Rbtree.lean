import Linux318.Lib.Run
import Linux318.Source.Rbtree.Ops

/-!
# Red-black trees

Source: lib/rbtree.c, include/linux/rbtree_augmented.h. Every run of insertions and removals gives a
red-black tree of the nodes that are in it, in their order. The values of an augmented tree stay
exact if the value of a subtree does not depend on its shape.
-/
namespace Linux318.Guarantees
open Lib Lib.RedBlack Lib.RedBlack.RbTree Source.Rbtree List

/-- `rb_link_node` at a NULL child and `rb_insert_color`, or `rb_erase`. -/
inductive RbOp where
  | insert (node parent : Nat) (side : Side)
  | erase (node : Nat)

/-- The memory after an operation. The loops may take up to `rounds` rounds. -/
def RbOp.run (rounds : Nat) (s : RbState Unit) : RbOp → Option (RbState Unit)
  | insert a parent side => do
    let s ← rbLinkNode s a parent side
    rbInsertColor rounds s a
  | erase a => rbErase rounds s a

def RbOp.sequence (l : List Nat) : RbOp → List Nat
  | insert a parent side => linkAt side a parent l
  | erase a => l.erase a

/-- A new node is linked at a NULL child, and a node of the tree is removed. -/
def RbOp.Valid (s : RbState Unit) (l : List Nat) : RbOp → Prop
  | insert a parent side => CanLink s l a parent side
  | erase a => a ∈ l

/-- Every operation of the run is valid in the tree that it finds. -/
def RbValid (rounds : Nat) : RbState Unit → List Nat → List RbOp → Prop
  | _, _, [] => True
  | s, l, op :: rest => op.Valid s l ∧
      ∀ s', op.run rounds s = some s' → RbValid rounds s' (op.sequence l) rest

instance (s : RbState Unit) (l : List Nat) : (op : RbOp) → Decidable (op.Valid s l)
  | .insert a parent side => decidableCanLink s l a parent side
  | .erase a => inferInstanceAs (Decidable (a ∈ l))

instance decidableRbValid (rounds : Nat) : (s : RbState Unit) → (l : List Nat) → (ops : List RbOp) →
    Decidable (RbValid rounds s l ops)
  | _, _, [] => isTrue trivial
  | s, l, op :: rest =>
    have := fun s' => decidableRbValid rounds s' (op.sequence l) rest
    inferInstanceAs (Decidable (op.Valid s l ∧
      ∀ s', op.run rounds s = some s' → RbValid rounds s' (op.sequence l) rest))

theorem RbOp.length_sequence (op : RbOp) (l : List Nat) : (op.sequence l).length ≤ l.length + 1 := by
  cases op with
  | insert a parent side => exact Nat.le_of_eq (length_linkAt side a parent l)
  | erase a => exact Nat.le_trans length_erase_le (Nat.le_succ _)

section
variable {rounds : Nat} {s : RbState Unit} {t : RbTree Nat} (shows : Shows s [] t)
  (tree : IsRedBlack t)
include shows tree

/-- Every operation keeps the tree red-black. -/
theorem RbOp.run_redBlack {op : RbOp} (valid : op.Valid s t.toList)
    (enough : t.toList.length < rounds) :
    ∃ s' t', op.run rounds s = some s' ∧ Shows s' [] t' ∧ IsRedBlack t' ∧
      t'.toList = op.sequence t.toList := by
  cases op with
  | insert a parent side =>
    obtain ⟨s', t', run, tracked, tree', list⟩ := insert_tracked tracks_dummyCallbacks shows tree
      valid enough fun _ _ _ _ _ => trivial
    exact ⟨s', t', run, tracked.shows, tree', list⟩
  | erase a =>
    obtain ⟨s', t', run, tracked, tree', list⟩ := erase_tracked tracks_dummyCallbacks
      ⟨shows, trivial⟩ tree valid enough
    exact ⟨s', t', run, tracked.shows, tree', list⟩

theorem foldlM_redBlack {ops : List RbOp} (valid : RbValid rounds s t.toList ops)
    (enough : t.toList.length + ops.length < rounds) :
    ∃ s' t', ops.foldlM (RbOp.run rounds) s = some s' ∧ Shows s' [] t' ∧ IsRedBlack t' ∧
      t'.toList = ops.foldl RbOp.sequence t.toList := by
  let inv (rest : List RbOp) (s : RbState Unit) : Prop := ∃ t', Shows s [] t' ∧ IsRedBlack t' ∧
    RbValid rounds s t'.toList rest ∧ t'.toList.length + rest.length < rounds ∧
    rest.foldl RbOp.sequence t'.toList = ops.foldl RbOp.sequence t.toList
  obtain ⟨s', run, t', shows', tree', _, _, list⟩ := foldlM_invariant inv
    (fun op rest s ⟨t, shows, tree, valid, enough, list⟩ => by
      rw [length_cons] at enough
      have longer := op.length_sequence t.toList
      obtain ⟨s1, t1, run, shows1, tree1, list1⟩ := op.run_redBlack shows tree valid.1
        (show t.toList.length < rounds by omega)
      exact ⟨s1, run, t1, shows1, tree1, list1 ▸ valid.2 s1 run, by rw [list1]; omega, list1 ▸ list⟩)
    ops s ⟨t, shows, tree, valid, enough, rfl⟩
  exact ⟨s', t', run, shows', tree', list⟩

end

/-- Every run from an empty tree gives a red-black tree in memory, with all its pointers and colors,
and its nodes in order are those of the operations. -/
theorem rbRun_redBlack {rounds : Nat} {s : RbState Unit} (empty : s.root = 0) {ops : List RbOp}
    (valid : RbValid rounds s [] ops) (enough : ops.length < rounds) :
    ∃ s' t, ops.foldlM (RbOp.run rounds) s = some s' ∧ Shows s' [] t ∧ IsRedBlack t ∧
      t.toList = ops.foldl RbOp.sequence [] := by
  exact foldlM_redBlack (shows_nil empty) ⟨rfl, trivial, 0, rfl⟩ valid (by simpa [toList] using enough)

/-- A rotation and a flip of colors on insertion, then the root is removed. -/
theorem rbRun_redBlack_four :
    ∃ s' t, [RbOp.insert 4 0 .left, .insert 8 4 .right, .insert 12 8 .right, .insert 16 12 .right,
        .erase 8].foldlM (RbOp.run 9) ⟨fun _ => ⟨0, 0, 0⟩, 0, fun _ => ()⟩ = some s' ∧
      Shows s' [] t ∧ IsRedBlack t ∧ t.toList = [4, 12, 16] :=
  rbRun_redBlack rfl (by decide) (by decide)

section Augmented

variable {δ α : Type} [DecidableEq α] (compute : δ → Option α → Option α → α)

/-- A tree whose nodes have data, and values that are computed from them. -/
structure AugTree (δ α : Type) where
  rb : RbState α
  data : Nat → δ

/-- The callbacks, with `rbcompute` on the data of a node and the values of its children. -/
def AugTree.callbacks (s : AugTree δ α) : RbAugmentCallbacks α :=
  rbDeclareCallbacks fun b => compute (s.data b)

/-- The values of the nodes are those that `rbcompute` gives. -/
def UpToDate (s : AugTree δ α) (l : List Nat) : Prop :=
  ∀ b ∈ l, rbCompute (fun b => compute (s.data b)) s.rb.node s.rb.augmented b =
    some (s.rb.augmented b)

/-- A new node with its data, whose user has set the values before `rb_link_node` and
`rb_insert_augmented`, or `rb_erase_augmented`. -/
inductive AugOp (δ α : Type) where
  | insert (node parent : Nat) (side : Side) (data : δ) (values : Nat → α)
  | erase (node : Nat)

def AugTree.link (s : AugTree δ α) (a parent : Nat) (side : Side) (d : δ) (values : Nat → α) :
    Option (AugTree δ α) := do
  let rb ← rbLinkNode { s.rb with augmented := values } a parent side
  some ⟨rb, Function.update s.data a d⟩

def AugOp.run (rounds : Nat) (s : AugTree δ α) : AugOp δ α → Option (AugTree δ α)
  | insert a parent side d values => do
    let s ← s.link a parent side d values
    let rb ← rbInsert (s.callbacks compute) rounds s.rb a
    some { s with rb := rb }
  | erase a => do
    let rb ← rbEraseWith (s.callbacks compute) rounds s.rb a
    some { s with rb := rb }

def AugOp.sequence (l : List Nat) : AugOp δ α → List Nat
  | insert a parent side _ _ => linkAt side a parent l
  | erase a => l.erase a

/-- The node and the nodes above have been updated for it on the way down. -/
def AugOp.Valid (s : AugTree δ α) (l : List Nat) : AugOp δ α → Prop
  | insert a parent side d values => CanLink s.rb l a parent side ∧
      ∀ s', s.link a parent side d values = some s' → UpToDate compute s' (a :: l)
  | erase a => a ∈ l

def AugValid (rounds : Nat) : AugTree δ α → List Nat → List (AugOp δ α) → Prop
  | _, _, [] => True
  | s, l, op :: rest => op.Valid compute s l ∧
      ∀ s', op.run compute rounds s = some s' → AugValid rounds s' (op.sequence l) rest

variable {compute}

omit [DecidableEq α] in
theorem AugOp.length_sequence (op : AugOp δ α) (l : List Nat) :
    (op.sequence l).length ≤ l.length + 1 := by
  cases op with
  | insert a parent side d values => exact Nat.le_of_eq (length_linkAt side a parent l)
  | erase a => exact Nat.le_trans length_erase_le (Nat.le_succ _)

section
variable {rounds : Nat} {s : AugTree δ α} {t : RbTree Nat}
  (law : ∀ dg dp x y u, compute dg (some (compute dp x y)) u = compute dp x (some (compute dg y u)))
  (shows : Shows s.rb [] t) (tree : IsRedBlack t) (exact : UpToDate compute s t.toList)
include law shows tree exact

/-- Every operation keeps the values exact. -/
theorem AugOp.run_upToDate {op : AugOp δ α} (valid : op.Valid compute s t.toList)
    (enough : t.toList.length < rounds) :
    ∃ s' t', op.run compute rounds s = some s' ∧ Shows s'.rb [] t' ∧ IsRedBlack t' ∧
      t'.toList = op.sequence t.toList ∧ UpToDate compute s' t'.toList := by
  cases op with
  | insert a parent side d values =>
    obtain ⟨can, updated⟩ := valid
    have tracks : Tracks (rbDeclareCallbacks fun b => compute (Function.update s.data a d b)) _ _ :=
      tracks_rbDeclareCallbacks fun g p => law _ _
    obtain ⟨rb, t', run, tracked, tree', list⟩ := @insert_tracked _ _ _ _
      { s.rb with augmented := values } t tracks a parent side rounds
      ⟨shows.focus, shows.above, shows.root, shows.nodes⟩ tree ⟨can.fresh, can.address, can.free⟩ enough
      fun rb1 t1 linked shows1 list1 => (exact_iff shows1.focus shows1.nodes.left).mpr
        fun b mem => updated ⟨rb1, Function.update s.data a d⟩ (by rw [AugTree.link, linked]; rfl) b
          (mem_cons.mpr (mem_linkAt (list1 ▸ mem)))
    refine ⟨⟨rb, Function.update s.data a d⟩, t', ?_, tracked.shows, tree', list,
      (exact_iff tracked.shows.focus tracked.shows.nodes.left).mp tracked.fits⟩
    obtain ⟨rb1, linked, inserted⟩ := Option.bind_eq_some_iff.mp run
    simp [AugOp.run, AugTree.link, linked, AugTree.callbacks, inserted]
  | erase a =>
    have tracks : Tracks (rbDeclareCallbacks fun b => compute (s.data b)) _ _ :=
      tracks_rbDeclareCallbacks fun g p => law _ _
    obtain ⟨rb, t', run, tracked, tree', list⟩ := erase_tracked tracks
      ⟨shows, (exact_iff shows.focus shows.nodes.left).mpr exact⟩ tree valid enough
    refine ⟨{ s with rb := rb }, t', ?_, tracked.shows, tree', list,
      (exact_iff tracked.shows.focus tracked.shows.nodes.left).mp tracked.fits⟩
    rw [AugOp.run, AugTree.callbacks, run]
    rfl

/-- If the value of a subtree does not change when it is rotated, then from every red-black tree
with exact values every run gives such a tree again. -/
theorem augRun_upToDate {ops : List (AugOp δ α)} (valid : AugValid compute rounds s t.toList ops)
    (enough : t.toList.length + ops.length < rounds) :
    ∃ s' t', ops.foldlM (AugOp.run compute rounds) s = some s' ∧ Shows s'.rb [] t' ∧ IsRedBlack t' ∧
      t'.toList = ops.foldl AugOp.sequence t.toList ∧ UpToDate compute s' t'.toList := by
  let inv (rest : List (AugOp δ α)) (s : AugTree δ α) : Prop := ∃ t', Shows s.rb [] t' ∧
    IsRedBlack t' ∧ AugValid compute rounds s t'.toList rest ∧
    t'.toList.length + rest.length < rounds ∧
    rest.foldl AugOp.sequence t'.toList = ops.foldl AugOp.sequence t.toList ∧
    UpToDate compute s t'.toList
  obtain ⟨s', run, t', shows', tree', _, _, list, exact'⟩ := foldlM_invariant inv
    (fun op rest s ⟨t, shows, tree, valid, enough, list, exact⟩ => by
      rw [length_cons] at enough
      have longer := op.length_sequence t.toList
      obtain ⟨s1, t1, run, shows1, tree1, list1, exact1⟩ := AugOp.run_upToDate law shows tree exact
        valid.1 (show t.toList.length < rounds by omega)
      exact ⟨s1, run, t1, shows1, tree1, list1 ▸ valid.2 s1 run, by rw [list1]; omega, list1 ▸ list,
        exact1⟩)
    ops s ⟨t, shows, tree, valid, enough, rfl, exact⟩
  exact ⟨s', t', run, shows', tree', list, exact'⟩

end

end Augmented

instance (compute : Nat → Option Nat → Option Nat → Nat) (s : AugTree Nat Nat) (l : List Nat) :
    Decidable (UpToDate compute s l) :=
  inferInstanceAs (Decidable (∀ b ∈ l, _))

instance (compute : Nat → Option Nat → Option Nat → Nat) (s : AugTree Nat Nat) (l : List Nat) :
    (op : AugOp Nat Nat) → Decidable (op.Valid compute s l)
  | .insert a parent side d values => inferInstanceAs (Decidable (CanLink s.rb l a parent side ∧
      ∀ s', s.link a parent side d values = some s' → UpToDate compute s' (a :: l)))
  | .erase a => inferInstanceAs (Decidable (a ∈ l))

instance decidableAugValid (compute : Nat → Option Nat → Option Nat → Nat) (rounds : Nat) :
    (s : AugTree Nat Nat) → (l : List Nat) → (ops : List (AugOp Nat Nat)) →
    Decidable (AugValid compute rounds s l ops)
  | _, _, [] => isTrue trivial
  | s, l, op :: rest =>
    have := fun s' => decidableAugValid compute rounds s' (op.sequence l) rest
    inferInstanceAs (Decidable (op.Valid compute s l ∧
      ∀ s', op.run compute rounds s = some s' → AugValid compute rounds s' (op.sequence l) rest))

def subtreeMax (d : Nat) (l r : Option Nat) : Nat := max d (max (l.getD 0) (r.getD 0))

def subtreeHeight (_ : Nat) (l r : Option Nat) : Nat := max (l.getD 0) (r.getD 0) + 1

def emptyTree : AugTree Nat Nat := ⟨⟨fun _ => ⟨0, 0, 0⟩, 0, fun _ => 0⟩, fun _ => 0⟩

/-- A maximum stays exact when the second node becomes the root. -/
theorem augRun_upToDate_max :
    ∃ s' t, [AugOp.insert 4 0 .left 5 fun _ => 5, .insert 8 4 .right 3 fun b => if b = 4 then 5 else 3,
        .insert 12 8 .right 7 fun _ => 7, .erase 4].foldlM (AugOp.run subtreeMax 9) emptyTree =
          some s' ∧
      Shows s'.rb [] t ∧ IsRedBlack t ∧ t.toList = [8, 12] ∧ UpToDate subtreeMax s' t.toList :=
  augRun_upToDate (t := nil)
    (by intro dg dp x y u; simp only [subtreeMax, Option.getD_some]; omega) (shows_nil rfl)
    ⟨rfl, trivial, 0, rfl⟩ (fun b member => absurd member not_mem_nil) (by decide) (by decide)

/-- Three nodes in ascending order: the heights are set on the way down, and the rotation then
copies the height 3 of the old root to the new one, whose subtree has height 2. -/
theorem augRun_height_stale : AugValid subtreeHeight 9 emptyTree [] [.insert 4 0 .left 0 fun _ => 1,
        .insert 8 4 .right 0 fun b => if b = 4 then 2 else 1,
        .insert 12 8 .right 0 fun b => if b = 4 then 3 else if b = 8 then 2 else 1] ∧
      ∃ s', [AugOp.insert 4 0 .left 0 fun _ => 1,
          .insert 8 4 .right 0 fun b => if b = 4 then 2 else 1,
          .insert 12 8 .right 0 fun b => if b = 4 then 3 else if b = 8 then 2 else 1].foldlM
            (AugOp.run subtreeHeight 9) emptyTree = some s' ∧
        s'.rb.root = 8 ∧ s'.rb.augmented 8 = 3 ∧
        rbCompute (fun b => subtreeHeight (s'.data b)) s'.rb.node s'.rb.augmented 8 = some 2 ∧
        ¬ UpToDate subtreeHeight s' [4, 8, 12] :=
  ⟨by decide, _, rfl, by decide, by decide, by decide, by decide⟩

end Linux318.Guarantees
