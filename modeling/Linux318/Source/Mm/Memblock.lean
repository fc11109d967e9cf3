import Linux318.Lib.Block

/-!
# memblock: memory regions at boot

Source: mm/memblock.c:72-76,249-275,320-480,498-678,728-769,1023-1038 and
include/linux/memblock.h, with `CONFIG_HAVE_MEMBLOCK_NODE_MAP`. The regions of a type are the
entries `0 .. cnt` of its array.

What a search for free memory returns is a choice of the environment among the answers that
`memblock_find_in_range_node` may give; what `kmalloc` returns is a choice too. The debug output and
the kmemleak calls are left out. Addresses and sizes have 64 bits.
-/
namespace Linux318.Source.Mm
open Lib

structure RegionAttr where
  nid : Int
  flags : Nat
  deriving DecidableEq, Repr

abbrev MemblockRegion := Block RegionAttr

/-- `struct memblock_type`, with the address of its array (none for the static one) and the flag
that says whether the array comes from the slab allocator. -/
structure MemblockType where
  regions : List MemblockRegion
  max : Nat
  totalSize : Nat
  array : Option Nat
  inSlab : Bool
  deriving DecidableEq, Repr

inductive Which where
  | memory | reserved
  deriving DecidableEq, Repr

/-- `struct memblock`, with `memblock_can_resize` and `slab_is_available`. -/
structure Memblock where
  memory : MemblockType
  reserved : MemblockType
  currentLimit : Nat
  canResize : Bool
  slab : Bool
  deriving DecidableEq, Repr

namespace Memblock

def type (mb : Memblock) : Which → MemblockType
  | .memory => mb.memory
  | .reserved => mb.reserved

def setType (mb : Memblock) (ty : Which) (type : MemblockType) : Memblock :=
  match ty with
  | .memory => { mb with memory := type }
  | .reserved => { mb with reserved := type }

end Memblock

def initMemblockRegions : Nat := 128

def maxNumnodes : Int := 1

def pageSize : Nat := 4096

def pageAlign (size : Nat) : Nat := (size + 4095) / 4096 * 4096

def sizeofRegion : Nat := 32

/-- The attributes of memory that is reserved for an array, and of the empty entry. -/
def noAttr : RegionAttr := ⟨maxNumnodes, 0⟩

/-- A type with its static array, which has an empty dummy entry. -/
def initType : MemblockType :=
  { regions := [⟨0, 0, ⟨0, 0⟩⟩], max := initMemblockRegions, totalSize := 0, array := none
    inSlab := false }

def initMemblock : Memblock :=
  { memory := initType, reserved := initType, currentLimit := 0xffffffffffffffff
    canResize := false, slab := false }

/-- The ways in which a call does not come back: a `BUG_ON`, or an array that is copied over an
array which is in use. -/
inductive MemblockBug where
  | insertRegion | mergeRegions | reserveArray | overlapArray
  deriving DecidableEq, Repr

inductive MemblockErr where
  | zero | enomem
  deriving DecidableEq, Repr

def memblockCapSize (base size : Nat) : Nat := min size (0xffffffffffffffff - base)

def regionEnd (rgn : MemblockRegion) : Nat := (rgn.base + rgn.size) % 2 ^ 64

def memblockInsertRegion (type : MemblockType) (idx base size : Nat) (attr : RegionAttr) :
    Except MemblockBug MemblockType :=
  if type.regions.length ≥ type.max then .error .insertRegion
  else .ok { type with
    regions := type.regions.insertIdx idx ⟨base, size, attr⟩
    totalSize := (type.totalSize + size) % 2 ^ 64 }

def memblockRemoveRegion (type : MemblockType) (r : Nat) : MemblockType :=
  match type.regions[r]? with
  | none => type
  | some rgn =>
    let regions := type.regions.eraseIdx r
    { type with
      regions := if regions = [] then [⟨0, 0, noAttr⟩] else regions
      totalSize := (type.totalSize + 2 ^ 64 - rgn.size) % 2 ^ 64 }

/-- The loop of `memblock_merge_regions` from index `i` on. -/
def mergeLoop : Nat → Nat → MemblockType → Except MemblockBug MemblockType
  | 0, _, type => .ok type
  | rounds + 1, i, type =>
    match type.regions[i]?, type.regions[i + 1]? with
    | some this, some next =>
      if regionEnd this ≠ next.base ∨ this.tag ≠ next.tag then
        if regionEnd this > next.base then .error .mergeRegions else mergeLoop rounds (i + 1) type
      else
        let grown := { this with size := (this.size + next.size) % 2 ^ 64 }
        mergeLoop rounds i { type with regions := (type.regions.set i grown).eraseIdx (i + 1) }
    | _, _ => .ok type

def memblockMergeRegions (type : MemblockType) : Except MemblockBug MemblockType :=
  mergeLoop type.regions.length 0 type

/-- Index, rest of the area and number of new regions in a pass of `memblock_add_range`. -/
structure AddPass where
  i : Nat
  base : Nat
  nrNew : Nat
  type : MemblockType

/-- The loop of a pass over the regions; `insert` says whether it is the second one. -/
def addLoop (insert : Bool) (fin : Nat) (attr : RegionAttr) :
    Nat → AddPass → Except MemblockBug AddPass
  | 0, pass => .ok pass
  | rounds + 1, pass =>
    match pass.type.regions[pass.i]? with
    | none => .ok pass
    | some rgn =>
      let rend := regionEnd rgn
      if rgn.base ≥ fin then .ok pass
      else if rend ≤ pass.base then addLoop insert fin attr rounds { pass with i := pass.i + 1 }
      else if rgn.base > pass.base then
        if insert then
          match memblockInsertRegion pass.type pass.i pass.base (rgn.base - pass.base) attr with
          | .error bug => .error bug
          | .ok type =>
            addLoop insert fin attr rounds
              { i := pass.i + 2, base := min rend fin, nrNew := pass.nrNew + 1, type := type }
        else
          addLoop insert fin attr rounds
            { pass with i := pass.i + 1, base := min rend fin, nrNew := pass.nrNew + 1 }
      else addLoop insert fin attr rounds { pass with i := pass.i + 1, base := min rend fin }

/-- The remaining portion, behind the regions that the loop has passed. -/
def addRemainder (insert : Bool) (fin : Nat) (attr : RegionAttr) (pass : AddPass) :
    Except MemblockBug (Nat × MemblockType) :=
  if pass.base < fin then
    if insert then
      match memblockInsertRegion pass.type pass.i pass.base (fin - pass.base) attr with
      | .error bug => .error bug
      | .ok type => .ok (pass.nrNew + 1, type)
    else .ok (pass.nrNew + 1, pass.type)
  else .ok (pass.nrNew, pass.type)

/-- One of the two passes: the number of new regions, and the type. -/
def addPass (insert : Bool) (base fin : Nat) (attr : RegionAttr) (type : MemblockType) :
    Except MemblockBug (Nat × MemblockType) :=
  addLoop insert fin attr type.regions.length ⟨0, base, 0, type⟩ >>= addRemainder insert fin attr

/-- The isolated regions so far: from `startRgn` up to `endRgn`. -/
structure Isolated where
  i : Nat
  startRgn : Nat
  endRgn : Nat
  type : MemblockType

/-- A region loses its lower part, which becomes a region of its own before it. -/
def splitRegion (type : MemblockType) (i : Nat) (rgn : MemblockRegion) (cut : Nat) :
    Except MemblockBug MemblockType :=
  memblockInsertRegion
    { type with
      regions := type.regions.set i { rgn with base := cut, size := rgn.size - (cut - rgn.base) }
      totalSize := (type.totalSize + 2 ^ 64 - (cut - rgn.base)) % 2 ^ 64 }
    i rgn.base (cut - rgn.base) rgn.tag

def isolateLoop (base fin : Nat) : Nat → Isolated → Except MemblockBug Isolated
  | 0, out => .ok out
  | rounds + 1, out =>
    match out.type.regions[out.i]? with
    | none => .ok out
    | some rgn =>
      let rend := regionEnd rgn
      if rgn.base ≥ fin then .ok out
      else if rend ≤ base then isolateLoop base fin rounds { out with i := out.i + 1 }
      else if rgn.base < base then
        match splitRegion out.type out.i rgn base with
        | .error bug => .error bug
        | .ok type => isolateLoop base fin rounds { out with i := out.i + 1, type := type }
      else if rend > fin then
        -- the index is stepped back: the new bottom half comes next
        match splitRegion out.type out.i rgn fin with
        | .error bug => .error bug
        | .ok type => isolateLoop base fin rounds { out with type := type }
      else
        isolateLoop base fin rounds
          { out with
            i := out.i + 1
            startRgn := if out.endRgn = 0 then out.i else out.startRgn
            endRgn := out.i + 1 }

def removeRegions (startRgn : Nat) : Nat → MemblockType → MemblockType
  | 0, type => type
  | n + 1, type => removeRegions startRgn n (memblockRemoveRegion type (startRgn + n))

/-- The answers of the environment to one call of `memblock_double_array`: what the two searches
propose, and what `kmalloc` returns. -/
structure Search where
  first : Nat
  second : Nat
  slab : Nat
  deriving DecidableEq, Repr

/-- `memblock_find_in_range` with pages as alignment: the proposal, if the search may return it. -/
def memblockFindInRange (mb : Memblock) (proposal start fin size : Nat) : Nat :=
  -- an end of 0 is `MEMBLOCK_ALLOC_ACCESSIBLE`
  let fin := if fin = 0 then mb.currentLimit else fin
  let start := max start pageSize
  let fin := max start fin
  if proposal % pageSize = 0 ∧ start ≤ proposal ∧ proposal + size ≤ fin ∧
      (∃ r ∈ mb.memory.regions, r.base ≤ proposal ∧ proposal + size ≤ r.base + r.size) ∧
      ∀ r ∈ mb.reserved.regions, r.base + r.size ≤ proposal ∨ proposal + size ≤ r.base
  then proposal else 0

def newArrayAddr (mb : Memblock) (ty : Which) (search : Search) (areaStart areaSize allocSize : Nat) :
    Nat :=
  if mb.slab then search.slab
  else
    let areaStart := if ty = .reserved then areaStart else 0
    let areaSize := if ty = .reserved then areaSize else 0
    let addr := memblockFindInRange mb search.first (areaStart + areaSize) mb.currentLimit allocSize
    if addr = 0 ∧ areaSize ≠ 0 then
      memblockFindInRange mb search.second 0 (min areaStart mb.currentLimit) allocSize
    else addr

def MemblockType.storage (type : MemblockType) : Option (Nat × Nat) :=
  if type.inSlab then none
  else type.array.map fun addr => (addr, addr + type.max * sizeofRegion)

def meets (a b : Nat × Nat) : Bool := a.1 < b.2 && b.1 < a.2

/-- The new array is copied over an array that is in use. -/
def overlapsArray (mb : Memblock) (addr size : Nat) : Bool :=
  (mb.memory.storage.any (meets (addr, addr + size))) ||
    (mb.reserved.storage.any (meets (addr, addr + size)))

/-- A call on a type, with the answers that are left. -/
abbrev Outcome := Except MemblockBug (MemblockErr × Memblock × List Search)

/-- `memblock_double_array` with the calls that it makes: freeing the old array and reserving the
new one. The result `enomem` stands for -1. -/
def memblockDoubleArray (memblockFree memblockReserve : Memblock → List Search → Nat → Nat → Outcome)
    (mb : Memblock) (searches : List Search) (ty : Which) (areaStart areaSize : Nat) : Outcome :=
  if mb.canResize = false then .ok (.enomem, mb, searches)
  else match searches with
    | [] => .ok (.enomem, mb, [])
    | search :: searches =>
      let type := mb.type ty
      let oldSize := type.max * sizeofRegion
      let newSize := oldSize * 2
      let addr := newArrayAddr mb ty search areaStart areaSize (pageAlign newSize)
      if addr = 0 then .ok (.enomem, mb, searches)
      else if mb.slab = false ∧ overlapsArray mb addr newSize then .error .overlapArray
      else
        let moved := mb.setType ty { type with array := some addr, max := type.max * 2 }
        let done (mb : Memblock) : Memblock := mb.setType ty { mb.type ty with inSlab := mb.slab }
        let freed :=
          match type.inSlab, type.array with
          | false, some old => memblockFree moved searches old (pageAlign oldSize)
          | _, _ => .ok (.zero, moved, searches)
        match freed with
        | .error bug => .error bug
        | .ok (_, mb, searches) =>
          if mb.slab then .ok (.zero, done mb, searches)
          else match memblockReserve mb searches addr (pageAlign newSize) with
            | .error bug => .error bug
            | .ok (.enomem, _, _) => .error .reserveArray
            | .ok (.zero, mb, searches) => .ok (.zero, done mb, searches)

abbrev Room := Memblock → List Search → Which → Nat → Nat → Nat → Outcome

def addRangeWith (room : Room) (mb : Memblock) (searches : List Search) (ty : Which)
    (obase size : Nat) (attr : RegionAttr) : Outcome :=
  let size := memblockCapSize obase size
  let fin := obase + size
  let type := mb.type ty
  if size = 0 then .ok (.zero, mb, searches)
  else if (type.regions.head?.map (·.size)) = some 0 then
    .ok (.zero, mb.setType ty { type with
      regions := type.regions.set 0 ⟨obase, size, attr⟩, totalSize := size }, searches)
  else match addPass false obase fin attr type with
    | .error bug => .error bug
    | .ok (nrNew, _) =>
      match room mb searches ty nrNew obase size with
      | .error bug => .error bug
      | .ok (.enomem, mb, searches) => .ok (.enomem, mb, searches)
      | .ok (.zero, mb, searches) =>
        match addPass true obase fin attr (mb.type ty) with
        | .error bug => .error bug
        | .ok (_, type) =>
          match memblockMergeRegions type with
          | .error bug => .error bug
          | .ok type => .ok (.zero, mb.setType ty type, searches)

/-- `memblock_isolate_range` and what is then done with the isolated regions, from the first index
up to the second. -/
def isolateRangeWith (room : Room) (mb : Memblock) (searches : List Search) (ty : Which)
    (base size : Nat) (act : Nat → Nat → MemblockType → Except MemblockBug MemblockType) : Outcome :=
  let size := memblockCapSize base size
  let fin := base + size
  if size = 0 then
    match act 0 0 (mb.type ty) with
    | .error bug => .error bug
    | .ok type => .ok (.zero, mb.setType ty type, searches)
  else match room mb searches ty 2 base size with
    | .error bug => .error bug
    | .ok (.enomem, mb, searches) => .ok (.enomem, mb, searches)
    | .ok (.zero, mb, searches) =>
      let type := mb.type ty
      match isolateLoop base fin (type.regions.length + 4) ⟨0, 0, 0, type⟩ with
      | .error bug => .error bug
      | .ok out =>
        match act out.startRgn out.endRgn out.type with
        | .error bug => .error bug
        | .ok type => .ok (.zero, mb.setType ty type, searches)

def removeRangeWith (room : Room) (mb : Memblock) (searches : List Search) (ty : Which)
    (base size : Nat) : Outcome :=
  isolateRangeWith room mb searches ty base size fun startRgn endRgn type =>
    .ok (removeRegions startRgn (endRgn - startRgn) type)

/-- The attributes of the isolated regions are changed, and the regions are merged. -/
def changeAttrs (change : RegionAttr → RegionAttr) (startRgn endRgn : Nat) (type : MemblockType) :
    Except MemblockBug MemblockType :=
  memblockMergeRegions { type with
    regions := type.regions.mapIdx fun i r =>
      if startRgn ≤ i ∧ i < endRgn then { r with tag := change r.tag } else r }

/-- The loop `while (cnt + need > max)` around `memblock_double_array`. One doubling takes one
answer of the environment, so that their number bounds the depth. -/
def makeRoom : Nat → Room
  | 0 => fun mb searches ty need _ _ =>
    .ok (if (mb.type ty).regions.length + need > (mb.type ty).max then .enomem else .zero, mb, searches)
  | depth + 1 => fun mb searches ty need areaStart areaSize =>
    if (mb.type ty).regions.length + need > (mb.type ty).max then
      match memblockDoubleArray
          (fun mb searches base size => removeRangeWith (makeRoom depth) mb searches .reserved base
            size)
          (fun mb searches base size => addRangeWith (makeRoom depth) mb searches .reserved base
            size noAttr)
          mb searches ty areaStart areaSize with
      | .error bug => .error bug
      | .ok (.enomem, mb, searches) => .ok (.enomem, mb, searches)
      | .ok (.zero, mb, searches) => makeRoom depth mb searches ty need areaStart areaSize
    else .ok (.zero, mb, searches)

def memblockAddRange (mb : Memblock) (searches : List Search) (ty : Which) (base size : Nat)
    (attr : RegionAttr) : Outcome :=
  addRangeWith (makeRoom searches.length) mb searches ty base size attr

def memblockRemoveRange (mb : Memblock) (searches : List Search) (ty : Which) (base size : Nat) :
    Outcome :=
  removeRangeWith (makeRoom searches.length) mb searches ty base size

def memblockHotplug : Nat := 1

def memblockMarkHotplug (mb : Memblock) (searches : List Search) (base size : Nat) : Outcome :=
  isolateRangeWith (makeRoom searches.length) mb searches .memory base size
    (changeAttrs fun attr => { attr with flags := attr.flags ||| memblockHotplug })

def memblockClearHotplug (mb : Memblock) (searches : List Search) (base size : Nat) : Outcome :=
  isolateRangeWith (makeRoom searches.length) mb searches .memory base size
    (changeAttrs fun attr => { attr with flags := attr.flags &&& 0xfffffffffffffffe })

def memblockSetNode (mb : Memblock) (searches : List Search) (ty : Which) (base size : Nat)
    (nid : Int) : Outcome :=
  isolateRangeWith (makeRoom searches.length) mb searches ty base size
    (changeAttrs fun attr => { attr with nid := nid })

end Linux318.Source.Mm
