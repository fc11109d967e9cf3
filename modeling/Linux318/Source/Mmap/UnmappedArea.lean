import Linux318.Lib.SearchTree
import Linux318.Lib.Word64

/-!
The search for a free range of an address space, after `mm/mmap.c` 362-381 and 1713-1911.
A vma is read through its bounds, its gap field and the end of the vma that `vm_prev`
points to. A walk takes the result of the climb out of its subtree: `rb_parent` leads a left
child to the check of its parent and a right child on to where the parent's own climb goes.
No result is a NULL dereference or a `VM_BUG_ON`.
-/
namespace Linux318.Source.Mmap
open Lib

structure VmArea where
  vmStart : Nat
  vmEnd : Nat
  /-- The `vm_end` of `vm_prev` -/
  vmPrev : Option Nat
  rbSubtreeGap : Nat
  deriving DecidableEq, Repr

structure MmStruct where
  mmRb : SearchTree VmArea
  highestVmEnd : Nat
  deriving DecidableEq, Repr

structure UnmappedAreaInfo where
  length : Nat
  lowLimit : Nat
  highLimit : Nat
  alignMask : Nat
  alignOffset : Nat
  deriving DecidableEq, Repr

def enomem : Nat := 2 ^ 64 - 12

def ulongMax : Nat := 2 ^ 64 - 1

def raiseGap (max : Nat) : SearchTree VmArea → Nat
  | .nil => max
  | .node _ child _ => if max < child.rbSubtreeGap then child.rbSubtreeGap else max

def vmaComputeSubtreeGap (vma : VmArea) (left right : SearchTree VmArea) : Nat :=
  let max := match vma.vmPrev with
    | none => vma.vmStart
    | some vmEnd => sub64 vma.vmStart vmEnd
  raiseGap (raiseGap max left) right

def promising (length : Nat) : SearchTree VmArea → Bool
  | .nil => false
  | .node _ child _ => length ≤ child.rbSubtreeGap

structure Window where
  length : Nat
  lowLimit : Nat
  highLimit : Nat
  deriving DecidableEq, Repr

/-- The adjustments at the head of both searches; none is their `-ENOMEM`. -/
def searchWindow (info : UnmappedAreaInfo) : Option Window :=
  let length := add64 info.length info.alignMask
  if length < info.length then none
  else if info.highLimit < length then none
  else
    let highLimit := sub64 info.highLimit length
    if highLimit < info.lowLimit then none
    else some { length, lowLimit := add64 info.lowLimit length, highLimit }

/-- The label `found` of `unmapped_area` -/
def foundUp (info : UnmappedAreaInfo) (gapStart gapEnd : Nat) : Option Nat :=
  let gapStart := if gapStart < info.lowLimit then info.lowLimit else gapStart
  let gapStart := add64 gapStart (sub64 info.alignOffset gapStart &&& info.alignMask)
  if info.highLimit < add64 gapStart info.length then none
  else if gapEnd < add64 gapStart info.length then none
  else some gapStart

/-- The label `check_current` of `unmapped_area` -/
def checkUp (info : UnmappedAreaInfo) (w : Window) (gapStart gapEnd : Nat) (next : Option Nat) :
    Option Nat :=
  if w.highLimit < gapStart then some enomem
  else if w.lowLimit ≤ gapEnd ∧ w.length ≤ sub64 gapEnd gapStart then foundUp info gapStart gapEnd
  else next

def visitUp (info : UnmappedAreaInfo) (w : Window) : SearchTree VmArea → Option Nat → Option Nat
  | .nil, climb => climb
  | .node left vma right, climb =>
    let next := if promising w.length right then visitUp info w right climb else climb
    if w.lowLimit ≤ vma.vmStart ∧ promising w.length left then
      visitUp info w left (vma.vmPrev.bind fun gapStart => checkUp info w gapStart vma.vmStart next)
    else checkUp info w (vma.vmPrev.getD 0) vma.vmStart next

/-- The label `check_highest` of `unmapped_area` -/
def checkHighest (mm : MmStruct) (info : UnmappedAreaInfo) (w : Window) : Option Nat :=
  if w.highLimit < mm.highestVmEnd then some enomem else foundUp info mm.highestVmEnd ulongMax

def unmappedArea (mm : MmStruct) (info : UnmappedAreaInfo) : Option Nat :=
  match searchWindow info with
  | none => some enomem
  | some w =>
    if promising w.length mm.mmRb then visitUp info w mm.mmRb (checkHighest mm info w)
    else checkHighest mm info w

/-- The label `found_highest` of `unmapped_area_topdown` -/
def foundHighest (info : UnmappedAreaInfo) (gapStart gapEnd : Nat) : Option Nat :=
  let gapEnd := sub64 gapEnd info.length
  let gapEnd := sub64 gapEnd (sub64 gapEnd info.alignOffset &&& info.alignMask)
  if gapEnd < info.lowLimit then none
  else if gapEnd < gapStart then none
  else some gapEnd

/-- The label `found` of `unmapped_area_topdown` -/
def foundDown (info : UnmappedAreaInfo) (gapStart gapEnd : Nat) : Option Nat :=
  foundHighest info gapStart (if info.highLimit < gapEnd then info.highLimit else gapEnd)

/-- The label `check_current` of `unmapped_area_topdown` -/
def checkDown (info : UnmappedAreaInfo) (w : Window) (gapStart gapEnd : Nat) (next : Option Nat) :
    Option Nat :=
  if gapEnd < w.lowLimit then some enomem
  else if gapStart ≤ w.highLimit ∧ w.length ≤ sub64 gapEnd gapStart then
    foundDown info gapStart gapEnd
  else next

/-- The walk of `unmapped_area_topdown` through a subtree -/
def visitDown (info : UnmappedAreaInfo) (w : Window) : SearchTree VmArea → Option Nat → Option Nat
  | .nil, climb => climb
  | .node left vma right, climb =>
    let gapStart := vma.vmPrev.getD 0
    let next := if promising w.length left then visitDown info w left climb else climb
    if gapStart ≤ w.highLimit ∧ promising w.length right then
      visitDown info w right (checkDown info w gapStart vma.vmStart next)
    else checkDown info w gapStart vma.vmStart next

def unmappedAreaTopdown (mm : MmStruct) (info : UnmappedAreaInfo) : Option Nat :=
  match searchWindow info with
  | none => some enomem
  | some w =>
    if mm.highestVmEnd ≤ w.highLimit then foundHighest info mm.highestVmEnd info.highLimit
    else if promising w.length mm.mmRb then visitDown info w mm.mmRb (some enomem)
    else some enomem

def Linked : Option Nat → List VmArea → Prop
  | _, [] => True
  | vmPrev, vma :: rest => vma.vmPrev = vmPrev ∧ Linked (some vma.vmEnd) rest

def GapsExact : SearchTree VmArea → Prop
  | .nil => True
  | .node left vma right =>
    vma.rbSubtreeGap = vmaComputeSubtreeGap vma left right ∧ GapsExact left ∧ GapsExact right

structure VmaTreeOk (mm : MmStruct) : Prop where
  proper {vma : VmArea} : vma ∈ mm.mmRb.toList → vma.vmStart < vma.vmEnd ∧ vma.vmEnd < 2 ^ 64
  sorted : mm.mmRb.toList.Pairwise fun a b => a.vmEnd ≤ b.vmStart
  linked : Linked none mm.mmRb.toList
  gaps : GapsExact mm.mmRb
  highest : mm.highestVmEnd = (mm.mmRb.toList.getLast?.map VmArea.vmEnd).getD 0

/-- The request is made of words, asks for something and has a mask. -/
structure InfoOk (info : UnmappedAreaInfo) : Prop where
  lengthPos : 1 ≤ info.length
  length : info.length < 2 ^ 64
  mask : ∃ k ≤ 64, info.alignMask = 2 ^ k - 1
  alignOffset : info.alignOffset < 2 ^ 64
  limits : info.lowLimit ≤ info.highLimit
  highLimit : info.highLimit < 2 ^ 64

/-- The free ranges from an address on. The last one ends at `ULONG_MAX`, which no `vm_end`
can exceed. -/
def gapsFrom (gapStart : Nat) : List VmArea → List (Nat × Nat)
  | [] => [(gapStart, ulongMax)]
  | vma :: rest => (gapStart, vma.vmStart) :: gapsFrom vma.vmEnd rest

def freeGaps (mm : MmStruct) : List (Nat × Nat) := gapsFrom 0 mm.mmRb.toList

/-- The gap, clipped to the limits, is large enough for any alignment. -/
def Fits (info : UnmappedAreaInfo) (gap : Nat × Nat) : Prop :=
  max gap.1 info.lowLimit + (info.length + info.alignMask) ≤ min gap.2 info.highLimit

instance (info : UnmappedAreaInfo) (gap : Nat × Nat) : Decidable (Fits info gap) :=
  inferInstanceAs (Decidable (_ ≤ _))

end Linux318.Source.Mmap
