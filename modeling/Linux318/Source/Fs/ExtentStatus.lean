import Linux318.Lib.SearchTree
import Mathlib.Algebra.Ring.Nat

/-!
# The extent status tree of an inode

Source: fs/ext4/extents_status.c:199-232,240-424,599-802,804-931,949-1050,1263-1299 and
fs/ext4/extents_status.h. The tree is kept as the sequence of its nodes; the tree that a search
descends is any tree with that sequence. `addr` stands for the address of a node.

A result `none` is a `BUG_ON`, or a read of a node that is no longer in the tree. The tracepoints,
the statistics and the LRU list of inodes are left out. What the shrinker finds in other inodes
is a choice of the environment.
-/
namespace Linux318.Source.Fs
open Lib

def extMaxBlocks : Nat := 0xffffffff

/-- `struct extent_status`; the status is in the high bits of `esPblk`. -/
structure ExtentStatus where
  addr : Nat
  esLblk : Nat
  esLen : Nat
  esPblk : Nat
  deriving DecidableEq, Repr

def esMask : Nat := 0xf000000000000000

def esPblockMask : Nat := 0x0fffffffffffffff

def ext4EsIsWritten (es : ExtentStatus) : Bool := es.esPblk.testBit 63

def ext4EsIsUnwritten (es : ExtentStatus) : Bool := es.esPblk.testBit 62

def ext4EsIsDelayed (es : ExtentStatus) : Bool := es.esPblk.testBit 61

def ext4EsIsHole (es : ExtentStatus) : Bool := es.esPblk.testBit 60

def ext4EsStatus (es : ExtentStatus) : Nat := es.esPblk >>> 60

def ext4EsPblock (es : ExtentStatus) : Nat := es.esPblk &&& esPblockMask

def ext4EsStorePblock (es : ExtentStatus) (pb : Nat) : ExtentStatus :=
  { es with esPblk := (pb &&& esPblockMask) ||| (es.esPblk &&& esMask) }

/-- The word that `ext4_es_store_pblock_status` stores. -/
def pblockStatus (pb status : Nat) : Nat := (status &&& 0xf) <<< 60 ||| (pb &&& esPblockMask)

def ext4EsEnd (es : ExtentStatus) : Option Nat :=
  if (es.esLblk + es.esLen) % 2 ^ 32 < es.esLblk then none
  else some ((es.esLblk + es.esLen + 0xffffffff) % 2 ^ 32)

def ext4EsCanBeMerged (es1 es2 : ExtentStatus) : Bool :=
  if ext4EsStatus es1 ≠ ext4EsStatus es2 then false
  else if es1.esLen + es2.esLen > extMaxBlocks then false
  else if es1.esLblk + es1.esLen ≠ es2.esLblk then false
  else if (ext4EsIsWritten es1 || ext4EsIsUnwritten es1) &&
      ext4EsPblock es1 + es1.esLen = ext4EsPblock es2 then true
  else if ext4EsIsHole es1 then true
  else if ext4EsIsDelayed es1 && !ext4EsIsUnwritten es1 then true
  else false

structure EsInode where
  entries : List ExtentStatus
  cacheEs : Option Nat
  iEsAllNr : Int
  iEsLruNr : Int
  nextAddr : Nat
  deriving Repr

def ext4EsInitTree : EsInode :=
  { entries := [], cacheEs := none, iEsAllNr := 0, iEsLruNr := 0, nextAddr := 0 }

namespace EsInode

def setNode (ei : EsInode) (node : ExtentStatus) : EsInode :=
  { ei with entries := ei.entries.map fun es => if es.addr = node.addr then node else es }

def eraseNode (ei : EsInode) (addr : Nat) : EsInode :=
  { ei with entries := ei.entries.filter fun es => es.addr ≠ addr }

end EsInode

def rbNext : List ExtentStatus → Nat → Option ExtentStatus
  | a :: b :: rest, addr => if a.addr = addr then some b else rbNext (b :: rest) addr
  | _, _ => none

def rbPrev : List ExtentStatus → Nat → Option ExtentStatus
  | a :: b :: rest, addr => if b.addr = addr then some a else rbPrev (b :: rest) addr
  | _, _ => none

/-- The loop of `__es_tree_search`: the node that holds the block, or the last one seen. -/
def esTreeDescend (lblk : Nat) : SearchTree ExtentStatus → Option ExtentStatus →
    Option (Option ExtentStatus)
  | .nil, last => some last
  | .node left es right, _ =>
    if lblk < es.esLblk then esTreeDescend lblk left (some es)
    else match ext4EsEnd es with
      | none => none
      | some fin =>
        if lblk > fin then esTreeDescend lblk right (some es) else some (some es)

def esTreeSearch (shape : Shape ExtentStatus) (ei : EsInode) (lblk : Nat) :
    Option (Option ExtentStatus) :=
  match esTreeDescend lblk (shape.tree ei.entries) none with
  | none => none
  | some none => some none
  | some (some es) =>
    if lblk < es.esLblk then some (some es)
    else match ext4EsEnd es with
      | none => none
      | some fin => if lblk > fin then some (rbNext ei.entries es.addr) else some (some es)

def countAlloc (ei : EsInode) (es : ExtentStatus) : EsInode :=
  { ei with
    iEsLruNr := if ext4EsIsDelayed es then ei.iEsLruNr else ei.iEsLruNr + 1
    iEsAllNr := ei.iEsAllNr + 1 }

def ext4EsFreeExtent (ei : EsInode) (es : ExtentStatus) : Option EsInode :=
  let ei := { ei with iEsAllNr := ei.iEsAllNr - 1 }
  if ext4EsIsDelayed es then some ei
  else if ei.iEsLruNr = 0 then none
  else some { ei with iEsLruNr := ei.iEsLruNr - 1 }

/-- Both merges end alike: the left extent grows, and the right one is freed. -/
def mergeNodes (ei : EsInode) (es1 es2 : ExtentStatus) : Option EsInode :=
  ext4EsFreeExtent
    ((ei.setNode { es1 with esLen := (es1.esLen + es2.esLen) % 2 ^ 32 }).eraseNode es2.addr) es2

/-- The tree and the address of the extent that is left. -/
def ext4EsTryToMergeLeft (ei : EsInode) (es : ExtentStatus) : Option (EsInode × Nat) :=
  match rbPrev ei.entries es.addr with
  | none => some (ei, es.addr)
  | some es1 =>
    if ext4EsCanBeMerged es1 es then (mergeNodes ei es1 es).map fun ei => (ei, es1.addr)
    else some (ei, es.addr)

def ext4EsTryToMergeRight (ei : EsInode) (es : ExtentStatus) : Option (EsInode × Nat) :=
  match rbNext ei.entries es.addr with
  | none => some (ei, es.addr)
  | some es1 =>
    if ext4EsCanBeMerged es es1 then (mergeNodes ei es es1).map fun ei => (ei, es.addr)
    else some (ei, es.addr)

inductive EsErr where
  | zero | enomem
  deriving DecidableEq, Repr

/-- Where the loop of `__es_insert_extent` ends: at an extent that the new one can be merged
with, or at an empty place. -/
inductive EsPlace where
  | before (es : ExtentStatus)
  | after (es : ExtentStatus)
  | link

def esInsertDescend (newes : ExtentStatus) : SearchTree ExtentStatus → Option EsPlace
  | .nil => some .link
  | .node left es right =>
    if newes.esLblk < es.esLblk then
      if ext4EsCanBeMerged newes es then some (.before es) else esInsertDescend newes left
    else match ext4EsEnd es with
      | none => none
      | some fin =>
        if newes.esLblk > fin then
          if ext4EsCanBeMerged es newes then some (.after es) else esInsertDescend newes right
        else none

def esDir (lblk : Nat) (es : ExtentStatus) : Ordering :=
  if lblk < es.esLblk then .lt else if lblk < es.esLblk + es.esLen then .eq else .gt

def esInsertExtent (shape : Shape ExtentStatus) (ei : EsInode) (newes : ExtentStatus)
    (alloc : Bool) : Option (EsErr × EsInode) :=
  match esInsertDescend newes (shape.tree ei.entries) with
  | none => none
  | some (.before es) =>
    let es := { es with esLblk := newes.esLblk, esLen := (es.esLen + newes.esLen) % 2 ^ 32 }
    let es :=
      if ext4EsIsWritten es || ext4EsIsUnwritten es then ext4EsStorePblock es newes.esPblk else es
    (ext4EsTryToMergeLeft (ei.setNode es) es).map fun r =>
      (.zero, { r.1 with cacheEs := some r.2 })
  | some (.after es) =>
    let es := { es with esLen := (es.esLen + newes.esLen) % 2 ^ 32 }
    (ext4EsTryToMergeRight (ei.setNode es) es).map fun r =>
      (.zero, { r.1 with cacheEs := some r.2 })
  | some .link =>
    if alloc then
      let es := { newes with addr := ei.nextAddr }
      some (.zero, { countAlloc ei es with
        entries := ((shape.tree ei.entries).link (esDir newes.esLblk) es).toList
        cacheEs := some es.addr
        nextAddr := ei.nextAddr + 1 })
    else some (.enomem, ei)

/-- The loop of `__es_try_to_reclaim_extents` over the nodes that are left to visit. -/
def reclaimLoop : List ExtentStatus → Int → Nat → EsInode → Option (Nat × EsInode)
  | [], _, nrShrunk, ei => some (nrShrunk, ei)
  | es :: rest, nrToScan, nrShrunk, ei =>
    if ext4EsIsDelayed es then reclaimLoop rest nrToScan nrShrunk ei
    else match ext4EsFreeExtent (ei.eraseNode es.addr) es with
      | none => none
      | some ei =>
        if nrToScan - 1 = 0 then some (nrShrunk + 1, ei)
        else reclaimLoop rest (nrToScan - 1) (nrShrunk + 1) ei

def esTryToReclaimExtents (ei : EsInode) (nrToScan : Int) : Option (Nat × EsInode) :=
  if ei.iEsLruNr = 0 then some (0, ei)
  else (reclaimLoop ei.entries nrToScan 0 ei).map fun r => (r.1, { r.2 with cacheEs := none })

/-- `__ext4_es_shrink` for one extent, called with this inode locked; `elsewhere` says whether
another inode had an extent to reclaim. -/
def ext4EsShrink (ei : EsInode) (elsewhere : Bool) : Option (Nat × EsInode) :=
  if elsewhere then some (1, ei) else esTryToReclaimExtents ei 1

/-- The loop that erases whole extents; every round erases one. -/
def removeLoop (fin : Nat) :
    Nat → EsInode → Option ExtentStatus → Option (EsInode × Option ExtentStatus)
  | 0, ei, es => some (ei, es)
  | _ + 1, ei, none => some (ei, none)
  | rounds + 1, ei, some es =>
    match ext4EsEnd es with
    | none => none
    | some last =>
      if last ≤ fin then
        let node := rbNext ei.entries es.addr
        match ext4EsFreeExtent (ei.eraseNode es.addr) es with
        | none => none
        | some ei => removeLoop fin rounds ei node
      else some (ei, some es)

def cutFront (ei : EsInode) (es : ExtentStatus) (fin len : Nat) : EsInode :=
  let block := (es.esPblk + es.esLen - len) % 2 ^ 64
  let cut := { es with esLblk := (fin + 1) % 2 ^ 32, esLen := len }
  ei.setNode (if ext4EsIsWritten es || ext4EsIsUnwritten es then ext4EsStorePblock cut block
    else cut)

def removeRest (ei : EsInode) (es : Option ExtentStatus) (fin : Nat) : Option EsInode :=
  match removeLoop fin (ei.entries.length + 1) ei es with
  | none => none
  | some (ei, none) => some ei
  | some (ei, some es) =>
    if es.esLblk < (fin + 1) % 2 ^ 32 then
      match ext4EsEnd es with
      | none => none
      | some last => some (cutFront ei es fin (last - fin))
    else some ei

def splitTail (es : ExtentStatus) (fin len : Nat) : ExtentStatus :=
  let block :=
    if ext4EsIsWritten es || ext4EsIsUnwritten es then ext4EsPblock es + es.esLen - len
    else 0x7fdeadbeef
  { addr := 0, esLblk := (fin + 1) % 2 ^ 32, esLen := len
    esPblk := pblockStatus block (ext4EsStatus es) }

/-- The first extent that the range meets, and how much of it lies before and behind the range. -/
def removeFirst (shape : Shape ExtentStatus) (ei : EsInode) (lblk fin : Nat) :
    Option (Option (ExtentStatus × Nat × Nat)) :=
  match esTreeSearch shape ei lblk with
  | none => none
  | some none => some none
  | some (some es) =>
    if es.esLblk > fin then some none
    else match ext4EsEnd es with
      | none => none
      | some last =>
        some (some (es, if lblk > es.esLblk then lblk - es.esLblk else 0,
          if last > fin then last - fin else 0))

/-- `__es_remove_extent`. The list has one entry for each allocation that fails, which says what
`ext4EsShrink` finds elsewhere. -/
def esRemoveExtent (shape : Shape ExtentStatus) (lblk fin : Nat) :
    List Bool → EsInode → Option (EsErr × EsInode)
  | failures, ei =>
    match removeFirst shape ei lblk fin with
    | none => none
    | some none => some (.zero, ei)
    | some (some (es, len1, len2)) =>
      let ei := { ei with cacheEs := none }
      if len2 > 0 then
        if len1 > 0 then
          let short := ei.setNode { es with esLen := len1 }
          match failures with
          | [] => esInsertExtent shape short (splitTail es fin len2) true
          | elsewhere :: rest =>
            match esInsertExtent shape short (splitTail es fin len2) false with
            | none => none
            | some (.zero, ei) => some (.zero, ei)
            | some (.enomem, ei) =>
              match ext4EsShrink (ei.setNode es) elsewhere with
              | none => none
              | some (0, ei) => some (.enomem, ei)
              | some (_ + 1, ei) => esRemoveExtent shape lblk fin rest ei
        else some (.zero, cutFront ei es fin len2)
      else if len1 > 0 then
        let short := ei.setNode { es with esLen := len1 }
        (removeRest short (rbNext short.entries es.addr) fin).map fun ei => (.zero, ei)
      else (removeRest ei (some es) fin).map fun ei => (.zero, ei)

/-- `end`, the last block of a range, and the check of it. -/
def rangeEnd (lblk len : Nat) : Option Nat :=
  let fin := (lblk + len + 0xffffffff) % 2 ^ 32
  if fin < lblk then none else some fin

def ext4EsRemoveExtent (shape : Shape ExtentStatus) (ei : EsInode) (lblk len : Nat)
    (failures : List Bool) : Option (EsErr × EsInode) :=
  if len = 0 then some (.zero, ei)
  else match rangeEnd lblk len with
    | none => none
    | some fin => esRemoveExtent shape lblk fin failures ei

/-- The retries of `ext4_es_insert_extent`. -/
def insertRetry (shape : Shape ExtentStatus) (newes : ExtentStatus) :
    List Bool → EsInode → Option (EsErr × EsInode)
  | [], ei => esInsertExtent shape ei newes true
  | elsewhere :: rest, ei =>
    match esInsertExtent shape ei newes false with
    | none => none
    | some (.zero, ei) => some (.zero, ei)
    | some (.enomem, ei) =>
      match ext4EsShrink ei elsewhere with
      | none => none
      | some (0, ei) => some (if ext4EsIsDelayed newes then .enomem else .zero, ei)
      | some (_ + 1, ei) => insertRetry shape newes rest ei

def newExtent (lblk len pblk status : Nat) : ExtentStatus :=
  { addr := 0, esLblk := lblk, esLen := len, esPblk := pblockStatus pblk status }

/-- `ext4_es_insert_extent`; allocations may fail in the removal and in the insertion. -/
def ext4EsInsertExtent (shape : Shape ExtentStatus) (ei : EsInode) (lblk len pblk status : Nat)
    (removeFailures failures : List Bool) : Option (EsErr × EsInode) :=
  if len = 0 then some (.zero, ei)
  else match rangeEnd lblk len with
    | none => none
    | some fin =>
      match esRemoveExtent shape lblk fin removeFailures ei with
      | none => none
      | some (.enomem, ei) => some (.enomem, ei)
      | some (.zero, ei) => insertRetry shape (newExtent lblk len pblk status) failures ei

def ext4EsCacheExtent (shape : Shape ExtentStatus) (ei : EsInode) (lblk len pblk status : Nat)
    (alloc : Bool) : Option EsInode :=
  if len = 0 then some ei
  else match rangeEnd lblk len with
    | none => none
    | some fin =>
      let insert := (esInsertExtent shape ei (newExtent lblk len pblk status) alloc).map (·.2)
      match esTreeSearch shape ei lblk with
      | none => none
      | some none => insert
      | some (some es) => if es.esLblk > fin then insert else some ei

/-- `in_range`, in 32 bits. -/
def inRange (lblk : Nat) (es : ExtentStatus) : Bool :=
  lblk ≥ es.esLblk && lblk ≤ (es.esLblk + es.esLen + 0xffffffff) % 2 ^ 32

def cachedExtent (ei : EsInode) : Option (Option ExtentStatus) :=
  match ei.cacheEs with
  | none => some none
  | some addr => (ei.entries.find? fun es => es.addr = addr).map some

/-- The loop of `ext4_es_lookup_extent`. -/
def lookupDescend (lblk : Nat) : SearchTree ExtentStatus → Option (Option ExtentStatus)
  | .nil => some none
  | .node left es right =>
    if lblk < es.esLblk then lookupDescend lblk left
    else match ext4EsEnd es with
      | none => none
      | some fin => if lblk > fin then lookupDescend lblk right else some (some es)

def ext4EsLookupExtent (shape : Shape ExtentStatus) (ei : EsInode) (lblk : Nat) :
    Option (Option ExtentStatus) :=
  match cachedExtent ei with
  | none => none
  | some none => lookupDescend lblk (shape.tree ei.entries)
  | some (some es1) =>
    if inRange lblk es1 then some (some es1) else lookupDescend lblk (shape.tree ei.entries)

/-- The loop of `ext4_es_find_delayed_extent_range`: the next delayed extent up to `fin`. -/
def delayedLoop (entries : List ExtentStatus) (fin : Nat) : Nat → ExtentStatus → Option ExtentStatus
  | 0, es1 => some es1
  | rounds + 1, es1 =>
    match rbNext entries es1.addr with
    | none => some es1
    | some es1 =>
      if es1.esLblk > fin then none
      else if ext4EsIsDelayed es1 then some es1
      else delayedLoop entries fin rounds es1

/-- Where `ext4_es_find_delayed_extent_range` begins. -/
def startExtent (shape : Shape ExtentStatus) (ei : EsInode) (lblk : Nat) :
    Option (Option ExtentStatus) :=
  match cachedExtent ei with
  | none => none
  | some none => esTreeSearch shape ei lblk
  | some (some es1) => if inRange lblk es1 then some (some es1) else esTreeSearch shape ei lblk

/-- The tree after `ext4_es_find_delayed_extent_range`, with the extent that was found. -/
def ext4EsFindDelayedExtentRange (shape : Shape ExtentStatus) (ei : EsInode) (lblk fin : Nat) :
    Option (Option ExtentStatus × EsInode) :=
  if fin < lblk then none
  else match startExtent shape ei lblk with
    | none => none
    | some none => some (none, ei)
    | some (some es1) =>
      let next :=
        if ext4EsIsDelayed es1 then some es1 else delayedLoop ei.entries fin ei.entries.length es1
      match next with
      | none => some (none, ei)
      | some es1 =>
        if ext4EsIsDelayed es1 then some (some es1, { ei with cacheEs := some es1.addr })
        else some (none, ei)

end Linux318.Source.Fs
