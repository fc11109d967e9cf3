import Linux318.Lib.RedBlack

/-!
# The red-black tree

Source: lib/rbtree.c:46-361,386-411, include/linux/rbtree.h:35-90 and
include/linux/rbtree_augmented.h:33-240. Nodes are at addresses; 0 is NULL, and following it is an
error. The word `__rb_parent_color` is the address of the parent, with the color in its lowest bit.

The two branches of a loop for a left and a right child are each other's mirror image in the source;
they are one definition with the side as a parameter, written down for the left side. Loops have a
bound on their rounds.
-/
namespace Linux318.Source.Rbtree
open Lib.RedBlack Function

structure RbNode where
  parentColor : Nat
  right : Nat
  left : Nat
  deriving DecidableEq, Repr

/-- The memory of the nodes, the root, and the values that the users of an augmented tree keep in
their nodes. -/
structure RbState (α : Type) where
  node : Nat → RbNode
  root : Nat
  augmented : Nat → α

/-- `struct rb_augment_callbacks`. They see the nodes and change the values. -/
structure RbAugmentCallbacks (α : Type) where
  propagate : Nat → (Nat → RbNode) → (Nat → α) → Nat → Nat → Option (Nat → α)
  copy : (Nat → RbNode) → (Nat → α) → Nat → Nat → Option (Nat → α)
  rotate : (Nat → RbNode) → (Nat → α) → Nat → Nat → Option (Nat → α)

def rbRed : Nat := 0

def rbBlack : Nat := 1

/-- `__rb_parent`: the word without its two lowest bits. -/
def rbParent (pc : Nat) : Nat := pc / 4 * 4

def rbColor (pc : Nat) : Nat := pc % 2

def rbIsBlack (n : RbNode) : Bool := rbColor n.parentColor = rbBlack

def rbIsRed (n : RbNode) : Bool := rbColor n.parentColor ≠ rbBlack

def RbNode.child (n : RbNode) : Side → Nat
  | .left => n.left
  | .right => n.right

def RbNode.withChild (n : RbNode) (side : Side) (a : Nat) : RbNode :=
  match side with
  | .left => { n with left := a }
  | .right => { n with right := a }

section State

variable {α : Type}

def load (s : RbState α) (a : Nat) : Option RbNode := if a = 0 then none else some (s.node a)

def store (s : RbState α) (a : Nat) (n : RbNode) : Option (RbState α) :=
  if a = 0 then none else some { s with node := update s.node a n }

def setChild (s : RbState α) (side : Side) (rb a : Nat) : Option (RbState α) := do
  let n ← load s rb
  store s rb (n.withChild side a)

def rbSetParentColor (s : RbState α) (rb p color : Nat) : Option (RbState α) := do
  let n ← load s rb
  store s rb { n with parentColor := p ||| color }

def rbSetParent (s : RbState α) (rb p : Nat) : Option (RbState α) := do
  let n ← load s rb
  store s rb { n with parentColor := rbColor n.parentColor ||| p }

def rbSetBlack (s : RbState α) (rb : Nat) : Option (RbState α) := do
  let n ← load s rb
  store s rb { n with parentColor := n.parentColor ||| rbBlack }

def rbChangeChild (s : RbState α) (old new parent : Nat) : Option (RbState α) :=
  if parent ≠ 0 then do
    let p ← load s parent
    if p.left = old then store s parent { p with left := new }
    else store s parent { p with right := new }
  else some { s with root := new }

def rbRotateSetParents (s : RbState α) (old new color : Nat) : Option (RbState α) := do
  let o ← load s old
  let parent := rbParent o.parentColor
  let n ← load s new
  let s ← store s new { n with parentColor := o.parentColor }
  let s ← rbSetParentColor s old new color
  rbChangeChild s old new parent

def augmentRotate (augment : RbAugmentCallbacks α) (s : RbState α) (old new : Nat) :
    Option (RbState α) := do
  let augmented ← augment.rotate s.node s.augmented old new
  some { s with augmented := augmented }

def augmentCopy (augment : RbAugmentCallbacks α) (s : RbState α) (old new : Nat) :
    Option (RbState α) := do
  let augmented ← augment.copy s.node s.augmented old new
  some { s with augmented := augmented }

def augmentPropagate (augment : RbAugmentCallbacks α) (rounds : Nat) (s : RbState α) (rb stop : Nat) :
    Option (RbState α) := do
  let augmented ← augment.propagate rounds s.node s.augmented rb stop
  some { s with augmented := augmented }

variable (augment : RbAugmentCallbacks α)

def rbLinkNode (s : RbState α) (node parent : Nat) (side : Side) : Option (RbState α) := do
  let s ← store s node { parentColor := parent, right := 0, left := 0 }
  if parent = 0 then some { s with root := node } else setChild s side parent node

/-- Case 3: right rotate at gparent. -/
def insertCase3 (side : Side) (s : RbState α) (parent gparent tmp : Nat) : Option (RbState α) := do
  let s ← setChild s side gparent tmp
  let s ← setChild s side.other parent gparent
  let s ← (if tmp ≠ 0 then rbSetParentColor s tmp gparent rbBlack else some s)
  let s ← rbRotateSetParents s gparent parent rbRed
  augmentRotate augment s gparent parent

/-- Case 2: left rotate at parent, and then case 3. -/
def insertCase2 (side : Side) (s : RbState α) (node parent gparent : Nat) : Option (RbState α) := do
  let n ← load s node
  let tmp := n.child side
  let s ← setChild s side.other parent tmp
  let s ← setChild s side node parent
  let s ← (if tmp ≠ 0 then rbSetParentColor s tmp parent rbBlack else some s)
  let s ← rbSetParentColor s parent node rbRed
  let s ← augmentRotate augment s parent node
  let n ← load s node
  insertCase3 augment side s node gparent (n.child side.other)

/-- A round of `__rb_insert` below a red parent, which is the child of gparent on `side`. -/
def insertCases (again : RbState α → Nat → Nat → Option (RbState α)) (side : Side) (s : RbState α)
    (node parent gparent : Nat) : Option (RbState α) := do
  let g ← load s gparent
  let tmp := g.child side.other
  if tmp ≠ 0 ∧ rbIsRed (s.node tmp) then
    -- case 1: color flips
    let s ← rbSetParentColor s tmp gparent rbBlack
    let s ← rbSetParentColor s parent gparent rbBlack
    let n ← load s gparent
    let up := rbParent n.parentColor
    let s ← rbSetParentColor s gparent up rbRed
    again s gparent up
  else
    let p ← load s parent
    let tmp := p.child side.other
    if node = tmp then insertCase2 augment side s node parent gparent
    else insertCase3 augment side s parent gparent tmp

/-- The loop of `__rb_insert`. -/
def insertLoop : Nat → RbState α → Nat → Nat → Option (RbState α)
  | 0, _, _, _ => none
  | rounds + 1, s, node, parent =>
    if parent = 0 then rbSetParentColor s node 0 rbBlack
    else do
      let p ← load s parent
      if rbIsBlack p then some s
      else
        let gparent := p.parentColor
        let g ← load s gparent
        if parent ≠ g.right then
          insertCases augment (insertLoop rounds) .left s node parent gparent
        else insertCases augment (insertLoop rounds) .right s node parent gparent

def rbInsert (rounds : Nat) (s : RbState α) (node : Nat) : Option (RbState α) := do
  let n ← load s node
  insertLoop augment rounds s node n.parentColor

def eraseCase4 (side : Side) (s : RbState α) (parent sibling tmp1 : Nat) : Option (RbState α) := do
  let sb ← load s sibling
  let tmp2 := sb.child side
  let s ← setChild s side.other parent tmp2
  let s ← setChild s side sibling parent
  let s ← rbSetParentColor s tmp1 sibling rbBlack
  let s ← (if tmp2 ≠ 0 then rbSetParent s tmp2 parent else some s)
  let s ← rbRotateSetParents s parent sibling rbBlack
  augmentRotate augment s parent sibling

/-- Case 3: right rotate at sibling, and then case 4. -/
def eraseCase3 (side : Side) (s : RbState α) (parent sibling tmp2 : Nat) : Option (RbState α) := do
  let t ← load s tmp2
  let tmp1 := t.child side.other
  let s ← setChild s side sibling tmp1
  let s ← setChild s side.other tmp2 sibling
  let s ← setChild s side.other parent tmp2
  let s ← (if tmp1 ≠ 0 then rbSetParentColor s tmp1 sibling rbBlack else some s)
  let s ← augmentRotate augment s sibling tmp2
  eraseCase4 augment side s parent tmp2 sibling

/-- The part of a round below a black sibling. -/
def eraseSibling (again : RbState α → Nat → Nat → Option (RbState α)) (side : Side) (s : RbState α)
    (parent sibling : Nat) : Option (RbState α) := do
  let sb ← load s sibling
  let tmp1 := sb.child side.other
  if tmp1 = 0 ∨ rbIsBlack (s.node tmp1) then
    let tmp2 := sb.child side
    if tmp2 = 0 ∨ rbIsBlack (s.node tmp2) then
      -- case 2: sibling color flip
      let s ← rbSetParentColor s sibling parent rbRed
      let p ← load s parent
      if rbIsRed p then rbSetBlack s parent
      else
        let up := rbParent p.parentColor
        if up ≠ 0 then again s parent up else some s
    else eraseCase3 augment side s parent sibling tmp2
  else eraseCase4 augment side s parent sibling tmp1

/-- Case 1: left rotate at parent, which gets a black sibling. -/
def eraseCase1 (side : Side) (s : RbState α) (parent sibling : Nat) : Option (Nat × RbState α) := do
  let sb ← load s sibling
  let tmp1 := sb.child side
  let s ← setChild s side.other parent tmp1
  let s ← setChild s side sibling parent
  let s ← rbSetParentColor s tmp1 parent rbBlack
  let s ← rbRotateSetParents s parent sibling rbRed
  let s ← augmentRotate augment s parent sibling
  some (tmp1, s)

/-- A round of `____rb_erase_color`, for the child of parent on `side`. -/
def eraseCases (again : RbState α → Nat → Nat → Option (RbState α)) (side : Side) (s : RbState α)
    (parent sibling : Nat) : Option (RbState α) := do
  let sb ← load s sibling
  if rbIsRed sb then
    let (sibling, s) ← eraseCase1 augment side s parent sibling
    eraseSibling augment again side s parent sibling
  else eraseSibling augment again side s parent sibling

/-- The loop of `____rb_erase_color`. -/
def eraseColorLoop : Nat → RbState α → Nat → Nat → Option (RbState α)
  | 0, _, _, _ => none
  | rounds + 1, s, node, parent => do
    let p ← load s parent
    let sibling := p.right
    if node ≠ sibling then eraseCases augment (eraseColorLoop rounds) .left s parent sibling
    else eraseCases augment (eraseColorLoop rounds) .right s parent p.left

def rbEraseColor (rounds : Nat) (s : RbState α) (parent : Nat) : Option (RbState α) :=
  eraseColorLoop augment rounds s 0 parent

/-- The loop that goes down to the successor, which has `tmp` as the next candidate: its parent, and
the successor. -/
def successorLoop (s : RbState α) : Nat → Nat → Nat → Option (Nat × Nat)
  | 0, _, _ => none
  | rounds + 1, successor, tmp => do
    let t ← load s tmp
    if t.left ≠ 0 then successorLoop s rounds tmp t.left else some (successor, tmp)

def eraseReplace (rounds : Nat) (s : RbState α) (node successor parent child2 : Nat) :
    Option (Nat × RbState α) := do
  let n ← load s node
  let s ← setChild s .left successor n.left
  let s ← rbSetParent s n.left successor
  let n ← load s node
  let s ← rbChangeChild s node successor (rbParent n.parentColor)
  let sc ← load s successor
  if child2 ≠ 0 then
    let s ← store s successor { sc with parentColor := n.parentColor }
    let s ← rbSetParentColor s child2 parent rbBlack
    let s ← augmentPropagate augment rounds s successor 0
    some (0, s)
  else
    let s ← store s successor { sc with parentColor := n.parentColor }
    let s ← augmentPropagate augment rounds s successor 0
    some (if rbIsBlack sc then parent else 0, s)

/-- `__rb_erase_augmented`: the node to rebalance at, or 0. -/
def rbEraseAugmented (rounds : Nat) (s : RbState α) (node : Nat) : Option (Nat × RbState α) := do
  let n ← load s node
  let parent := rbParent n.parentColor
  if n.left = 0 then
    -- case 1: node to erase has no more than 1 child
    let s ← rbChangeChild s node n.right parent
    if n.right ≠ 0 then
      let c ← load s n.right
      let s ← store s n.right { c with parentColor := n.parentColor }
      let s ← augmentPropagate augment rounds s parent 0
      some (0, s)
    else
      let s ← augmentPropagate augment rounds s parent 0
      some (if rbIsBlack n then parent else 0, s)
  else if n.right = 0 then
    let c ← load s n.left
    let s ← store s n.left { c with parentColor := n.parentColor }
    let s ← rbChangeChild s node n.left parent
    let s ← augmentPropagate augment rounds s parent 0
    some (0, s)
  else
    let child := n.right
    let c ← load s child
    if c.left = 0 then
      -- case 2: node's successor is its right child
      let s ← augmentCopy augment s node child
      eraseReplace augment rounds s node child child c.right
    else
      -- case 3: node's successor is leftmost under node's right child subtree
      let (parent, successor) ← successorLoop s rounds child c.left
      let sc ← load s successor
      let s ← setChild s .left parent sc.right
      let s ← setChild s .right successor child
      let s ← rbSetParent s child successor
      let s ← augmentCopy augment s node successor
      let s ← augmentPropagate augment rounds s parent successor
      eraseReplace augment rounds s node successor parent sc.right

def rbEraseWith (rounds : Nat) (s : RbState α) (node : Nat) : Option (RbState α) := do
  let (rebalance, s) ← rbEraseAugmented augment rounds s node
  if rebalance ≠ 0 then rbEraseColor augment rounds s rebalance else some s

def dummyCallbacks : RbAugmentCallbacks α where
  propagate _ _ augmented _ _ := some augmented
  copy _ augmented _ _ := some augmented
  rotate _ augmented _ _ := some augmented

def rbInsertColor (rounds : Nat) (s : RbState α) (node : Nat) : Option (RbState α) :=
  rbInsert dummyCallbacks rounds s node

def rbErase (rounds : Nat) (s : RbState α) (node : Nat) : Option (RbState α) :=
  rbEraseWith dummyCallbacks rounds s node

def childValue (augmented : Nat → α) (a : Nat) : Option α :=
  if a = 0 then none else some (augmented a)

/-- `rbcompute`, as a function of the data of the node and of the values of its children. -/
def rbCompute (compute : Nat → Option α → Option α → α) (node : Nat → RbNode) (augmented : Nat → α)
    (rb : Nat) : Option α :=
  if rb = 0 then none
  else some (compute rb (childValue augmented (node rb).left) (childValue augmented (node rb).right))

/-- The loop of `propagate`. -/
def propagateLoop [DecidableEq α] (compute : Nat → Option α → Option α → α) (node : Nat → RbNode)
    (stop : Nat) : Nat → (Nat → α) → Nat → Option (Nat → α)
  | 0, _, _ => none
  | rounds + 1, augmented, rb =>
    if rb = stop then some augmented
    else do
      let value ← rbCompute compute node augmented rb
      if augmented rb = value then some augmented
      else
        propagateLoop compute node stop rounds (update augmented rb value)
          (rbParent (node rb).parentColor)

def rbDeclareCallbacks [DecidableEq α] (compute : Nat → Option α → Option α → α) :
    RbAugmentCallbacks α where
  propagate rounds node augmented rb stop := propagateLoop compute node stop rounds augmented rb
  copy _ augmented old new := some (update augmented new (augmented old))
  rotate node augmented old new := do
    let augmented := update augmented new (augmented old)
    let value ← rbCompute compute node augmented old
    some (update augmented old value)

end State

end Linux318.Source.Rbtree
