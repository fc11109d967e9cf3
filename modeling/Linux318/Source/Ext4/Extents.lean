import Mathlib.Algebra.Order.Ring.Nat
import Mathlib.Data.List.Basic
import Mathlib.Data.Nat.Bitwise

/-!
Extents of a file and the conversion of unwritten ones, after `fs/ext4/ext4_extents.h` 138-220 and
`fs/ext4/extents.c` 1714-1870, 1929-2148, 3085-3357 and 3379-3618. The tree is kept as its leaves
in order; a path is a place in a leaf. Blocks end below `EXT_MAX_BLOCKS`, so that sums of block
numbers do not wrap. An insertion, a zero-out, the access to a buffer, marking it dirty and the
search for a leaf may fail; an insertion that fails leaves the leaves as they were. How a new leaf
is laid out is left to the environment. The extent status tree and the index nodes are left out. A
result is missing after a `BUG_ON`.
-/
namespace Linux318.Source.Ext4

structure Extent where
  eeBlock : Nat
  /-- `ee_len` as stored, with the mark of an unwritten extent -/
  eeLen : Nat
  /-- `ext4_ext_pblock` -/
  pblock : Nat
  deriving DecidableEq, Repr

def initMaxLen : Nat := 2 ^ 15

def unwrittenMaxLen : Nat := initMaxLen - 1

def isUnwritten (ex : Extent) : Bool := initMaxLen < ex.eeLen

def actualLen (ex : Extent) : Nat :=
  if ex.eeLen ≤ initMaxLen then ex.eeLen else ex.eeLen - initMaxLen

def markUnwritten (ex : Extent) : Option Extent :=
  if ex.eeLen &&& (initMaxLen - 1) = 0 then none
  else some { ex with eeLen := initMaxLen ||| ex.eeLen }

def markInitialized (ex : Extent) : Extent := { ex with eeLen := actualLen ex }

def Extent.blockEnd (ex : Extent) : Nat := ex.eeBlock + actualLen ex

def markIf (mark : Bool) (ex : Extent) : Option Extent :=
  if mark then markUnwritten ex else some ex

/-- The logical block is at the physical one, in an unwritten extent or not. -/
def Maps (extents : List Extent) (lblk pblk : Nat) (unwritten : Bool) : Prop :=
  ∃ ex ∈ extents, ex.eeBlock ≤ lblk ∧ lblk < ex.blockEnd ∧ pblk = ex.pblock + (lblk - ex.eeBlock) ∧
    unwritten = isUnwritten ex

def Extent.Valid (ex : Extent) : Prop := 1 ≤ ex.eeLen ∧ ex.eeLen < 2 ^ 16

def Chain : Nat → List Extent → Nat → Prop
  | low, [], high => low ≤ high
  | low, ex :: rest, high => low ≤ ex.eeBlock ∧ ex.Valid ∧ Chain ex.blockEnd rest high

def maxBlocks : Nat := 2 ^ 32 - 1

def ExtentsOk (extents : List Extent) : Prop := Chain 0 extents maxBlocks

/-- A place for a new extent in a leaf -/
structure LeafPlace where
  before : List (List Extent)
  left : List Extent
  right : List Extent
  after : List (List Extent)

def LeafPlace.withLeaf (place : LeafPlace) (leaf : List Extent) : List (List Extent) :=
  place.before ++ leaf :: place.after

/-- What the calls of one conversion meet. The argument counts the insertions so far, that of
`zeroErr` the zero-outs. -/
structure InsertEnv where
  insertErr : Nat → Nat
  zeroErr : Nat → Nat
  /-- `ext4_ext_get_access` -/
  accessErr : Nat → Nat
  /-- `ext4_ext_dirty`, but after a zero-out -/
  dirtyErr : Nat → Nat
  /-- `ext4_ext_dirty` in `ext4_split_extent_at` after a zero-out -/
  blankErr : Nat → Nat
  /-- `ext4_find_extent` -/
  findErr : Nat
  /-- `EXT4_STATE_DIO_UNWRITTEN` or `i_unwritten` -/
  unwrittenBusy : Bool
  /-- `eh_max` of a leaf -/
  ehMax : Nat
  /-- `ext4_ext_create_new_leaf`: the place in the leaves that it has laid out -/
  newLeaf : Nat → LeafPlace → LeafPlace
  newLeaf_front (n : Nat) (place : LeafPlace) :
    (newLeaf n place).before.flatten ++ (newLeaf n place).left = place.before.flatten ++ place.left
  newLeaf_back (n : Nat) (place : LeafPlace) :
    (newLeaf n place).right ++ (newLeaf n place).after.flatten = place.right ++ place.after.flatten

structure World where
  leaves : List (List Extent)
  /-- The physical ranges zeroed so far: first block and length -/
  zeroed : List (Nat × Nat)
  inserts : Nat
  zeroouts : Nat
  deriving DecidableEq, Repr

def World.extents (w : World) : List Extent := w.leaves.flatten

def World.Zeroed (w : World) (pblk : Nat) : Prop :=
  ∃ range ∈ w.zeroed, range.1 ≤ pblk ∧ pblk < range.1 + range.2

def zeroout (env : InsertEnv) (w : World) (pblock len : Nat) : Nat × World :=
  let err := env.zeroErr w.zeroouts
  if err ≠ 0 then (err, { w with zeroouts := w.zeroouts + 1 })
  else (0, { w with zeroouts := w.zeroouts + 1, zeroed := (pblock, len) :: w.zeroed })

structure ExtPath where
  before : List (List Extent)
  left : List Extent
  ex : Extent
  right : List Extent
  after : List (List Extent)
  deriving DecidableEq, Repr

/-- The leaves with the extents of the path's leaf replaced -/
def ExtPath.withLeaf (path : ExtPath) (leaf : List Extent) : List (List Extent) :=
  path.before ++ leaf :: path.after

def ExtPath.leaves (path : ExtPath) : List (List Extent) :=
  path.withLeaf (path.left ++ path.ex :: path.right)

/-- The last extent of a leaf that starts at or below the block -/
def binsearch (lblk : Nat) : List Extent → Option (List Extent × Extent × List Extent)
  | [] => none
  | ex :: rest =>
    if lblk < ex.eeBlock then none
    else
      match binsearch lblk rest with
      | some (left, found, right) => some (ex :: left, found, right)
      | none => some ([], ex, rest)

/-- `ext4_find_extent`, for a block that some extent starts at or below -/
def findExtent (lblk : Nat) : List (List Extent) → Option ExtPath
  | [] => none
  | leaf :: rest =>
    match findExtent lblk rest with
    | some path => some { path with before := leaf :: path.before }
    | none =>
      match binsearch lblk leaf with
      | some (left, ex, right) => some ⟨[], left, ex, right, rest⟩
      | none => none

def canExtentsBeMerged (busy : Bool) (ex1 ex2 : Extent) : Bool :=
  if isUnwritten ex1 ≠ isUnwritten ex2 then false
  else if ex1.eeBlock + actualLen ex1 ≠ ex2.eeBlock then false
  else if initMaxLen < actualLen ex1 + actualLen ex2 then false
  else if isUnwritten ex1 ∧ (busy ∨ unwrittenMaxLen < actualLen ex1 + actualLen ex2) then false
  else ex1.pblock + actualLen ex1 = ex2.pblock

/-- One round of `ext4_ext_try_to_merge_right` -/
def mergeTwo (ex next : Extent) : Option Extent :=
  markIf (isUnwritten ex) { ex with eeLen := actualLen ex + actualLen next }

/-- `ext4_ext_try_to_merge_right`, with the extents behind and whether something was merged -/
def tryToMergeRight (busy : Bool) (ex : Extent) : List Extent → Option (List Extent × Bool)
  | [] => some ([ex], false)
  | next :: rest =>
    if canExtentsBeMerged busy ex next then
      (mergeTwo ex next).bind fun ex =>
        (tryToMergeRight busy ex rest).map fun (extents, _) => (extents, true)
    else some (ex :: next :: rest, false)

def tryToMerge (busy : Bool) (left : List Extent) (ex : Extent) (right : List Extent) :
    Option (List Extent) :=
  match left.getLast? with
  | none => (tryToMergeRight busy ex right).map Prod.fst
  | some prev =>
    (tryToMergeRight busy prev (ex :: right)).bind fun (extents, done) =>
      if done then some (left.dropLast ++ extents)
      else (tryToMergeRight busy ex right).map fun (extents, _) => left ++ extents

structure SplitFlags where
  mayZeroout : Bool
  markUnwrit1 : Bool
  markUnwrit2 : Bool
  dataValid1 : Bool
  dataValid2 : Bool
  deriving DecidableEq, Repr

def enospc : Nat := 28

/-- The label `has_space`: behind the path's extent, in front of the next leaf or in a new leaf -/
def insertPlace (env : InsertEnv) (n : Nat) (path : ExtPath) (new : Extent) : LeafPlace :=
  let leaf := path.left ++ path.ex :: path.right
  let here : LeafPlace := ⟨path.before, path.left ++ [path.ex], path.right, path.after⟩
  if leaf.length < env.ehMax then here
  else
    match path.after with
    | [] => env.newLeaf n here
    | next :: rest =>
      if (path.right.getLastD path.ex).eeBlock < new.eeBlock ∧ next.length < env.ehMax then
        ⟨path.before ++ [leaf], [], next, rest⟩
      else env.newLeaf n here

/-- `ext4_ext_insert_extent` of an extent that starts where the one of the path ends. It may be
appended to that one. -/
def insertExtent (env : InsertEnv) (w : World) (path : ExtPath) (new : Extent) (preIo : Bool) :
    Option (Nat × World) :=
  let err := env.insertErr w.inserts
  let place := insertPlace env w.inserts path new
  let inserted (leaves : List (List Extent)) : Nat × World :=
    (0, { w with inserts := w.inserts + 1, leaves })
  if err ≠ 0 then some (err, { w with inserts := w.inserts + 1 })
  else if preIo then some (inserted (place.withLeaf (place.left ++ new :: place.right)))
  else if canExtentsBeMerged env.unwrittenBusy path.ex new then
    (mergeTwo path.ex new).bind fun ex =>
      (tryToMerge env.unwrittenBusy path.left ex path.right).map fun leaf =>
        inserted (path.withLeaf leaf)
  else
    (tryToMerge env.unwrittenBusy place.left new place.right).map fun leaf =>
      inserted (place.withLeaf leaf)

def splitExtentAt (env : InsertEnv) (w : World) (path : ExtPath) (split : Nat) (flags : SplitFlags)
    (preIo : Bool) : Option (Nat × World) :=
  let ex := path.ex
  let eeLen := actualLen ex
  if flags.dataValid1 ∧ flags.dataValid2 then none
  else if split < ex.eeBlock ∨ ex.eeBlock + eeLen ≤ split then none
  else if ¬isUnwritten ex ∧ (flags.mayZeroout ∨ flags.markUnwrit1 ∨ flags.markUnwrit2) then none
  else if env.accessErr w.inserts ≠ 0 then some (env.accessErr w.inserts, w)
  else if split = ex.eeBlock then
    (if flags.markUnwrit2 then markUnwritten ex else some (markInitialized ex)).bind fun ex =>
      (if preIo then some (path.left ++ ex :: path.right)
        else tryToMerge env.unwrittenBusy path.left ex path.right).map fun leaf =>
          (env.dirtyErr w.inserts, { w with leaves := path.withLeaf leaf })
  else
    (markIf flags.markUnwrit1 { ex with eeLen := split - ex.eeBlock }).bind fun low =>
      -- the label fix_extent_len puts the old length back
      if env.dirtyErr w.inserts ≠ 0 then
        some (env.dirtyErr w.inserts, { w with leaves := path.leaves })
      else
        (markIf flags.markUnwrit2 ⟨split, eeLen - (split - ex.eeBlock),
          split - ex.eeBlock + ex.pblock⟩).bind fun new =>
          (insertExtent env w { path with ex := low } new preIo).bind fun (err, w') =>
            if err = enospc ∧ flags.mayZeroout then
              let zeroEx := if flags.dataValid1 then new else if flags.dataValid2 then low else ex
              match zeroout env w' zeroEx.pblock (actualLen zeroEx) with
              | (err, w') =>
                if err ≠ 0 then some (err, { w' with leaves := path.leaves })
                else
                  (tryToMerge env.unwrittenBusy path.left { low with eeLen } path.right).map
                    fun leaf =>
                      let err := env.blankErr w.inserts
                      -- also after a merge, in the slot that the extent had
                      let leaf := if err ≠ 0 then
                          leaf.modify path.left.length fun e => { e with eeLen := ex.eeLen }
                        else leaf
                      (err, { w' with leaves := path.withLeaf leaf })
            else if err ≠ 0 then some (err, { w' with leaves := path.leaves })
            else some (0, w')

def eio : Nat := 5

def splitExtent (env : InsertEnv) (w : World) (path : ExtPath) (mLblk mLen : Nat)
    (flags : SplitFlags) (preIo : Bool) : Option (Nat × World) :=
  let ex := path.ex
  let first := if mLblk + mLen < ex.eeBlock + actualLen ex then
      splitExtentAt env w path (mLblk + mLen)
        { mayZeroout := flags.mayZeroout
          markUnwrit1 := isUnwritten ex
          markUnwrit2 := isUnwritten ex
          dataValid1 := flags.dataValid2
          dataValid2 := false } true
    else some (0, w)
  first.bind fun (err, w) =>
    if err ≠ 0 then some (err, w)
    else if env.findErr ≠ 0 then some (env.findErr, w)
    else
      match findExtent mLblk w.leaves with
      | none => some (eio, w)
      | some path =>
        if ex.eeBlock ≤ mLblk then
          let unwritten := isUnwritten path.ex
          splitExtentAt env w path mLblk
            { mayZeroout := unwritten && flags.mayZeroout
              markUnwrit1 := unwritten
              markUnwrit2 := unwritten && flags.markUnwrit2
              dataValid1 := false
              dataValid2 := flags.dataValid2 } preIo
        else some (0, w)

/-- The transfer of the blocks at the start of an extent to the one in front -/
def transferLeft (path : ExtPath) (mapLen : Nat) : Option (Option (List Extent)) :=
  let ex := path.ex
  match path.left.getLast? with
  | none => some none
  | some abut =>
    if ¬isUnwritten abut ∧ abut.eeBlock + actualLen abut = ex.eeBlock ∧
        abut.pblock + actualLen abut = ex.pblock ∧ actualLen abut < initMaxLen - mapLen then
      (markUnwritten ⟨ex.eeBlock + mapLen, actualLen ex - mapLen, ex.pblock + mapLen⟩).map fun ex =>
        some (path.left.dropLast ++
          { abut with eeLen := actualLen abut + mapLen } :: ex :: path.right)
    else some none

/-- The transfer of the blocks at the end of an extent to the one behind -/
def transferRight (path : ExtPath) (mapEnd mapLen : Nat) : Option (Option (List Extent)) :=
  let ex := path.ex
  match path.right with
  | [] => some none
  | abut :: right =>
    if ¬isUnwritten abut ∧ mapEnd = abut.eeBlock ∧ ex.pblock + actualLen ex = abut.pblock ∧
        actualLen abut < initMaxLen - mapLen then
      (markUnwritten { ex with eeLen := actualLen ex - mapLen }).map fun ex =>
        some (path.left ++ ex ::
          ⟨abut.eeBlock - mapLen, actualLen abut + mapLen, abut.pblock - mapLen⟩ :: right)
    else some none

/-- The fast paths: the leaf with the blocks in a neighbour, where that is possible -/
def transfer (path : ExtPath) (mLblk mapLen : Nat) : Option (Option (List Extent)) :=
  let ex := path.ex
  if mLblk = ex.eeBlock ∧ mapLen < actualLen ex ∧ path.left ≠ [] then transferLeft path mapLen
  else if mLblk + mapLen = ex.eeBlock + actualLen ex ∧ mapLen < actualLen ex ∧ path.right ≠ [] then
    transferRight path (mLblk + mapLen) mapLen
  else some none

/-- `split_map`, with the zero-out that comes before the split -/
structure SplitMap where
  err : Nat
  world : World
  lblk : Nat
  len : Nat
  allocated : Nat

def splitMap (env : InsertEnv) (w : World) (ex : Extent) (mLblk mLen allocated maxZeroout : Nat) :
    SplitMap :=
  if maxZeroout ≠ 0 ∧ mLen < allocated then
    if allocated ≤ maxZeroout then
      let (err, w) := zeroout env w (ex.pblock + mLblk - ex.eeBlock) allocated
      ⟨err, w, mLblk, allocated, allocated⟩
    else if mLblk - ex.eeBlock + mLen < maxZeroout then
      let (err, w) := if mLblk ≠ ex.eeBlock then zeroout env w ex.pblock (mLblk - ex.eeBlock)
        else (0, w)
      ⟨err, w, ex.eeBlock, mLblk - ex.eeBlock + mLen, mLen⟩
    else ⟨0, w, mLblk, mLen, allocated⟩
  else ⟨0, w, mLblk, mLen, allocated⟩

/-- What is read of the inode and of the file system -/
structure FileInfo where
  iSize : Nat
  blocksizeBits : Nat
  /-- `s_extent_max_zeroout_kb` -/
  maxZerooutKb : Nat
  deriving DecidableEq, Repr

def eofBlock (file : FileInfo) (mLblk mLen : Nat) : Nat :=
  let eofBlock := (file.iSize + 2 ^ file.blocksizeBits - 1) / 2 ^ file.blocksizeBits % 2 ^ 32
  if eofBlock < mLblk + mLen then mLblk + mLen else eofBlock

/-- `ext4_ext_convert_to_initialized`: the error, the blocks allocated and what is left -/
def convertToInitialized (env : InsertEnv) (file : FileInfo) (path : ExtPath) (mLblk mLen : Nat)
    (preIo : Bool) : Option (Nat × Nat × World) :=
  let w : World := ⟨path.leaves, [], 0, 0⟩
  let ex := path.ex
  let eeLen := actualLen ex
  if ¬isUnwritten ex then none
  else if mLblk < ex.eeBlock ∨ ex.eeBlock + eeLen ≤ mLblk then none
  else
    (transfer path mLblk mLen).bind fun moved =>
      match moved with
      | some leaf =>
        if env.accessErr 0 ≠ 0 then some (env.accessErr 0, 0, w)
        else some (0, mLen, { w with leaves := path.withLeaf leaf })
      | none =>
        let allocated := eeLen - (mLblk - ex.eeBlock)
        let mayZeroout : Bool := ex.eeBlock + eeLen ≤ eofBlock file mLblk mLen
        let maxZeroout :=
          if mayZeroout then file.maxZerooutKb / 2 ^ (file.blocksizeBits - 10) else 0
        if maxZeroout ≠ 0 ∧ eeLen ≤ maxZeroout then
          match zeroout env w ex.pblock eeLen with
          | (err, w) =>
            if err ≠ 0 then some (err, allocated, w)
            else if env.accessErr 0 ≠ 0 then some (env.accessErr 0, allocated, w)
            else
              (tryToMerge env.unwrittenBusy path.left (markInitialized ex) path.right).map
                fun leaf => (env.dirtyErr 0, allocated, { w with leaves := path.withLeaf leaf })
        else
          let map := splitMap env w ex mLblk mLen allocated maxZeroout
          if map.err ≠ 0 then some (map.err, map.allocated, map.world)
          else
            (splitExtent env map.world path map.lblk map.len
              ⟨mayZeroout, false, false, false, false⟩ preIo).map
                fun (err, w) => (err, map.allocated, w)

end Linux318.Source.Ext4
