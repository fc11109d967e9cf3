import Linux318.Lib.Run
import Linux318.Lib.SearchTree
import Linux318.Lib.Word64

/-!
The allocator of kernel virtual ranges, after `mm/vmalloc.c` 277-307 and 388-533. The
tree of areas is kept as the sequence of its nodes; the tree that a search descends is
any tree with that sequence. A call holds `vmap_area_lock` for one attempt, and drops it
to purge before it tries again; what other callers do in between is part of the call.
`vmap_area_pcpu_hole`, which only `pcpu_get_vm_areas` reads, and the allocation of the
node are left out.
-/
namespace Linux318.Source.Vmalloc
open Lib

def align64 (x align : Nat) : Nat := add64 x (align - 1) - add64 x (align - 1) % align

structure VmapArea where
  vaStart : Nat
  vaEnd : Nat
  deriving DecidableEq, Repr

structure VmapState where
  areas : List VmapArea
  freeVmapCache : Option VmapArea
  cachedHoleSize : Nat
  cachedVstart : Nat
  cachedAlign : Nat
  deriving DecidableEq, Repr

structure VmapRequest where
  size : Nat
  align : Nat
  vstart : Nat
  vend : Nat
  deriving DecidableEq, Repr

/-- How an attempt ends. The label `overflow` is -EBUSY for the second one. -/
inductive Outcome where
  | found (va : VmapArea)
  | overflow
  | bug
  deriving DecidableEq, Repr

/-- The place of `__insert_vmap_area`; none is its `BUG`. -/
def linkArea (va : VmapArea) : SearchTree VmapArea → Option (SearchTree VmapArea)
  | .nil => some (.node .nil va .nil)
  | .node left tmpVa right =>
    if va.vaStart < tmpVa.vaEnd then (linkArea va left).map fun left => .node left tmpVa right
    else if tmpVa.vaStart < va.vaEnd then
      (linkArea va right).map fun right => .node left tmpVa right
    else none

def insertVmapArea (shape : Shape VmapArea) (areas : List VmapArea) (va : VmapArea) :
    Option (List VmapArea) :=
  (linkArea va (shape.tree areas)).map SearchTree.toList

/-- The search of `alloc_vmap_area` from the root, with the best node so far. -/
def searchFirst (addr : Nat) : SearchTree VmapArea → Option VmapArea → Option VmapArea
  | .nil, first => first
  | .node left tmp right, first =>
    if addr ≤ tmp.vaEnd then
      if tmp.vaStart ≤ addr then some tmp else searchFirst addr left (some tmp)
    else searchFirst addr right first

/-- The node with those that `rb_next` gives behind it. -/
def areasFrom (areas : List VmapArea) (first : VmapArea) : List VmapArea :=
  areas.dropWhile fun va => va ≠ first

def rbPrev (areas : List VmapArea) (va : VmapArea) : Option VmapArea :=
  (areas.takeWhile fun v => v ≠ va).getLast?

/-- The loop of `alloc_vmap_area` over the areas from `first` on: the address, or none for
`overflow`, and the hole size. -/
def scanLoop (r : VmapRequest) : List VmapArea → Nat → Nat → Option Nat × Nat
  | [], addr, hole => (some addr, hole)
  | first :: rest, addr, hole =>
    if first.vaStart < add64 addr r.size ∧ add64 addr r.size ≤ r.vend then
      let hole := if add64 addr hole < first.vaStart then sub64 first.vaStart addr else hole
      let addr := align64 first.vaEnd r.align
      if add64 addr r.size < addr then (none, hole) else scanLoop r rest addr hole
    else (some addr, hole)

/-- The label `found` -/
def placeArea (shape : Shape VmapArea) (s : VmapState) (r : VmapRequest) (addr : Nat) :
    Outcome × VmapState :=
  if r.vend < add64 addr r.size then (.overflow, s)
  else
    let va : VmapArea := ⟨addr, add64 addr r.size⟩
    match insertVmapArea shape s.areas va with
    | none => (.bug, s)
    | some areas =>
      let s := { s with areas, freeVmapCache := some va }
      if va.vaStart % r.align ≠ 0 ∨ va.vaStart < r.vstart ∨ r.vend < va.vaEnd then (.bug, s)
      else (.found va, s)

def scanFrom (shape : Shape VmapArea) (s : VmapState) (r : VmapRequest) (first : VmapArea)
    (addr : Nat) : Outcome × VmapState :=
  match scanLoop r (areasFrom s.areas first) addr s.cachedHoleSize with
  | (none, hole) => (.overflow, { s with cachedHoleSize := hole })
  | (some addr, hole) => placeArea shape { s with cachedHoleSize := hole } r addr

/-- The label `nocache` -/
def noCache (s : VmapState) : VmapState := { s with cachedHoleSize := 0, freeVmapCache := none }

def scanRoot (shape : Shape VmapArea) (s : VmapState) (r : VmapRequest) : Outcome × VmapState :=
  let addr := align64 r.vstart r.align
  if add64 addr r.size < addr then (.overflow, s)
  else
    match searchFirst addr (shape.tree s.areas) none with
    | none => placeArea shape s r addr
    | some first => scanFrom shape s r first addr

def SkipsCache (s : VmapState) (r : VmapRequest) : Prop :=
  s.freeVmapCache = none ∨ r.size < s.cachedHoleSize ∨ r.vstart < s.cachedVstart ∨
    r.align < s.cachedAlign

instance (s : VmapState) (r : VmapRequest) : Decidable (SkipsCache s r) :=
  inferInstanceAs (Decidable (_ ∨ _))

def attempt (shape : Shape VmapArea) (s : VmapState) (r : VmapRequest) : Outcome × VmapState :=
  let s := if SkipsCache s r then noCache s else s
  let s := { s with cachedVstart := r.vstart, cachedAlign := r.align }
  match s.freeVmapCache with
  | none => scanRoot shape s r
  | some first =>
    let addr := align64 first.vaEnd r.align
    if addr < r.vstart then scanRoot shape (noCache s) r
    else if add64 addr r.size < addr then (.overflow, s)
    else scanFrom shape s r first addr

def freeVmapArea (s : VmapState) (va : VmapArea) : VmapState :=
  let cache := match s.freeVmapCache with
    | none => none
    | some cache =>
      if va.vaEnd < s.cachedVstart then none
      else if va.vaStart ≤ cache.vaStart then rbPrev s.areas va
      else some cache
  { s with freeVmapCache := cache, areas := s.areas.filter fun v => v ≠ va }

/-- What is done under one hold of `vmap_area_lock`. The tree has some shape at each attempt. -/
inductive VmapEvent where
  | attempt (shape : Shape VmapArea) (r : VmapRequest)
  | free (va : VmapArea)

def vmapStep (s : VmapState) : VmapEvent → VmapState
  | .attempt shape r => (attempt shape s r).2
  | .free va => freeVmapArea s va

/-- `alloc_vmap_area`, with the events between its two attempts: those of
`purge_vmap_area_lazy` and of other callers -/
def allocVmapArea (shape shape' : Shape VmapArea) (s : VmapState) (r : VmapRequest)
    (between : List VmapEvent) : Outcome × VmapState :=
  match attempt shape s r with
  | (.overflow, s) => attempt shape' (runFrom vmapStep s between) r
  | result => result

def emptyVmap : VmapState := ⟨[], none, 0, 0, 0⟩

end Linux318.Source.Vmalloc
