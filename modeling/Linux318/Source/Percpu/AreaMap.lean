import Linux318.Lib.Bitmap
import Mathlib.Algebra.Order.Ring.Int

/-!
The area map of a per-cpu chunk, after `mm/percpu.c` 104-118, 253-258, 333-353,
443-481 and 501-747. The list `map` holds the entries 0 to `map_used`; the spare slots behind them
are only counted. A read outside of the entries, a write outside of the array, a
`BUG_ON` and a loop that runs out of rounds are all `none`. The slot lists of the
chunks are left out.
-/
namespace Linux318.Source.Percpu
open Lib.Bitmap

def pageSize : Int := 4096

def sizeofInt : Int := 4

structure PcpuChunk where
  freeSize : Int
  contigHint : Int
  mapAlloc : Nat
  map : List Int
  firstFree : Nat
  populated : Nat → Bool

def mapUsed (chunk : PcpuChunk) : Nat := chunk.map.length - 1

def entry (chunk : PcpuChunk) (i : Int) : Option Int :=
  if i < 0 then none else chunk.map[i.toNat]?

def setEntry (chunk : PcpuChunk) (i : Nat) (x : Int) : PcpuChunk :=
  { chunk with map := chunk.map.set i x }

def int32 (x : Int) : Int := x.bmod (2 ^ 32)

def inUse (x : Int) : Bool := decide (x % 2 = 1)

def offsetOf (x : Int) : Int := x - x % 2

def alignUp (x align : Int) : Int := int32 (x + (align - 1)) - int32 (x + (align - 1)) % align

def pfnDown (x : Int) : Nat := (x / pageSize).toNat

def pfnUp (x : Int) : Nat := ((x + pageSize - 1) / pageSize).toNat

/-- The loop of `pcpu_fit_in_area`, with `pcpu_next_unpop` -/
def fitLoop (chunk : PcpuChunk) (off thisSize size align : Int) (popOnly : Bool) :
    Nat → Int → Option Int
  | 0, _ => none
  | rounds + 1, candOff =>
    let head := int32 (alignUp candOff align - off)
    if thisSize < int32 (head + size) then some (-1)
    else if !popOnly then some head
    else
      let pageStart := pfnDown (head + off)
      let pageEnd := pfnUp (head + off + size)
      let last := pfnUp (off + thisSize)
      let rs := findNext (fun page => !chunk.populated page) last pageStart
      let re := findNext chunk.populated last (rs + 1)
      if pageEnd ≤ rs then some head
      else fitLoop chunk off thisSize size align popOnly rounds (re * pageSize)

/-- `pcpu_fit_in_area`; every round starts on a later page of the area. -/
def pcpuFitInArea (chunk : PcpuChunk) (off thisSize size align : Int) (popOnly : Bool) :
    Option Int :=
  fitLoop chunk off thisSize size align popOnly (pfnUp (off + thisSize) + 1) off

def pcpuCountOccupiedPages (chunk : PcpuChunk) (i : Nat) : Option Int := do
  let off := offsetOf (← entry chunk i)
  let fin := offsetOf (← entry chunk (i + 1))
  let off ← if off % pageSize ≠ 0 ∧ 0 < i then do
      let prev ← entry chunk (i - 1)
      pure (if !inUse prev ∧ prev ≤ off - off % pageSize then off - off % pageSize else off)
    else pure off
  let fin ← if fin % pageSize ≠ 0 ∧ i + 1 < mapUsed chunk then do
      let next ← entry chunk (i + 1)
      let nend := offsetOf (← entry chunk (i + 2))
      let up := fin - fin % pageSize + pageSize
      pure (if !inUse next ∧ up ≤ nend then up else fin)
    else pure fin
  pure (max (fin / pageSize - (off + pageSize - 1) / pageSize) 0)

/-- The variables of `pcpu_alloc_area` at an area that fits. -/
structure AreaFit where
  chunk : PcpuChunk
  off : Int
  thisSize : Int
  head : Int
  maxContig : Int

def mergeHead (i : Nat) (a : AreaFit) : Option AreaFit :=
  if a.head = 0 then some a
  else do
    let prev ← entry a.chunk (i - 1)
    if a.head < sizeofInt ∨ !inUse prev then
      let chunk := setEntry a.chunk i (a.off + a.head)
      pure {
        chunk := if inUse prev then { chunk with freeSize := chunk.freeSize - a.head } else chunk
        off := a.off + a.head
        thisSize := a.thisSize - a.head
        head := 0
        maxContig := if inUse prev then a.maxContig else max (a.off + a.head - prev) a.maxContig }
    else pure a

/-- The area is split, the hints are updated and the entry is marked; the offset, the
occupied pages and the chunk. -/
def splitArea (i : Nat) (a : AreaFit) (size : Int) (seenFree : Bool) :
    Option (Int × Int × PcpuChunk) :=
  let rest := a.thisSize - a.head - size
  let tail := if 0 ≤ rest ∧ rest < sizeofInt then 0 else rest
  let size := if 0 ≤ rest ∧ rest < sizeofInt then a.thisSize - a.head else size
  let extra := (if a.head ≠ 0 then [a.off + a.head] else []) ++
    (if tail ≠ 0 then [a.off + a.head + size] else [])
  if a.chunk.mapAlloc ≤ mapUsed a.chunk + extra.length then none
  else
    let map := a.chunk.map.take (i + 1) ++ extra ++ a.chunk.map.drop (i + 1)
    let firstFree := if a.head ≠ 0 ∧ !seenFree then i else a.chunk.firstFree
    let seenFree := seenFree || decide (a.head ≠ 0)
    let maxContig := if a.head ≠ 0 then max a.head a.maxContig else a.maxContig
    let maxContig := if tail ≠ 0 then max tail maxContig else maxContig
    let off := a.off + a.head
    let i := if a.head ≠ 0 then i + 1 else i
    let firstFree := if !seenFree then i + 1 else firstFree
    let contigHint := if i + 1 = map.length - 1 then maxContig
      else max a.chunk.contigHint maxContig
    let chunk := { a.chunk with
      map := map.set i (off + 1), firstFree, contigHint, freeSize := a.chunk.freeSize - size }
    (pcpuCountOccupiedPages chunk i).map fun occ => (off, occ, chunk)

/-- The loop of `pcpu_alloc_area`, by the number of entries left; the offset is -1 if no
area fits. -/
def allocLoop (size align : Int) (popOnly : Bool) : Nat → PcpuChunk → Nat → Int → Bool →
    Option (Int × Int × PcpuChunk)
  | 0, chunk, _, maxContig, _ => some (-1, 0, { chunk with contigHint := maxContig })
  | left + 1, chunk, i, maxContig, seenFree => do
    let off ← entry chunk i
    if inUse off then allocLoop size align popOnly left chunk (i + 1) maxContig seenFree
    else
      let next ← entry chunk (i + 1)
      let thisSize := offsetOf next - off
      let head ← pcpuFitInArea chunk off thisSize size align popOnly
      if head < 0 then
        let chunk := if !seenFree then { chunk with firstFree := i } else chunk
        allocLoop size align popOnly left chunk (i + 1) (max thisSize maxContig) true
      else
        let a ← mergeHead i { chunk, off, thisSize, head, maxContig }
        splitArea i a size seenFree

def pcpuAllocArea (chunk : PcpuChunk) (size align : Int) (popOnly : Bool) :
    Option (Int × Int × PcpuChunk) :=
  allocLoop size align popOnly (mapUsed chunk - chunk.firstFree) chunk chunk.firstFree 0 false

/-- The search of `pcpu_free_area`: the index and the last entry that was read. -/
def searchLoop (chunk : PcpuChunk) (freeme : Int) : Nat → Nat → Nat → Int → Option (Nat × Int)
  | 0, i, j, off => if i = j then some (i, off) else none
  | rounds + 1, i, j, off =>
    if i = j then some (i, off)
    else do
      let k := (i + j) / 2
      let off ← entry chunk k
      if off < freeme then searchLoop chunk freeme rounds (k + 1) j off
      else if freeme < off then searchLoop chunk freeme rounds i k off
      else pure (k, off)

/-- `pcpu_free_area`: the occupied pages and the chunk. -/
def pcpuFreeArea (chunk : PcpuChunk) (freeme : Int) : Option (Int × PcpuChunk) := do
  let freeme := offsetOf freeme + 1
  let (i, off) ← searchLoop chunk freeme (mapUsed chunk) 0 (mapUsed chunk) 0
  if off ≠ freeme then none
  else
    let chunk := if i < chunk.firstFree then { chunk with firstFree := i } else chunk
    let off := offsetOf off
    let chunk := setEntry chunk i off
    let next ← entry chunk (i + 1)
    let chunk := { chunk with freeSize := chunk.freeSize + (offsetOf next - off) }
    let occ ← pcpuCountOccupiedPages chunk i
    let mergeNext := !inUse next
    let mergePrev ← if 0 < i then do
        let prev ← entry chunk (i - 1)
        pure (!inUse prev)
      else pure false
    let toFree := mergeNext.toNat + mergePrev.toNat
    let i := if mergePrev then i - 1 else i
    let chunk := { chunk with map := chunk.map.take (i + 1) ++ chunk.map.drop (i + 1 + toFree) }
    let next ← entry chunk (i + 1)
    let here ← entry chunk i
    pure (occ, { chunk with contigHint := max (next - here - 1) chunk.contigHint })

/-- `pcpu_alloc_chunk`, for a unit of a number of pages -/
def pcpuAllocChunk (unitPages : Nat) : PcpuChunk where
  freeSize := unitPages * pageSize
  contigHint := unitPages * pageSize
  mapAlloc := 16
  map := [0, unitPages * pageSize + 1]
  firstFree := 0
  populated _ := false

/-- `pcpu_extend_area_map`, with an array that was allocated -/
def pcpuExtendAreaMap (chunk : PcpuChunk) (newAlloc : Nat) : PcpuChunk :=
  if newAlloc ≤ chunk.mapAlloc then chunk else { chunk with mapAlloc := newAlloc }

/-- `pcpu_chunk_populated` and `pcpu_chunk_depopulated`, for a range of pages -/
def setPopulated (chunk : PcpuChunk) (pageStart pageEnd : Nat) (b : Bool) : PcpuChunk :=
  { chunk with
    populated := fun page => if pageStart ≤ page ∧ page < pageEnd then b else chunk.populated page }

theorem int32_eq {x : Int} (low : -2 ^ 31 ≤ x) (high : x < 2 ^ 31) : int32 x = x := by
  rw [int32, Int.bmod_def]
  split <;> omega

theorem alignUp_spec {x align : Int} (nonneg : 0 ≤ x) (pos : 0 < align) (small : x + align ≤ 2 ^ 31) :
    x ≤ alignUp x align ∧ alignUp x align < x + align ∧ align ∣ alignUp x align := by
  rw [alignUp, int32_eq (by omega) (by omega)]
  have low := Int.emod_nonneg (x + (align - 1)) (Int.ne_of_gt pos)
  have high := Int.emod_lt_of_pos (x + (align - 1)) pos
  have whole := Int.mul_ediv_add_emod (x + (align - 1)) align
  refine ⟨by omega, by omega, (x + (align - 1)) / align, by omega⟩

theorem pfnDown_le {x : Int} (nonneg : 0 ≤ x) :
    (pfnDown x : Int) * pageSize ≤ x ∧ x < (pfnDown x + 1) * pageSize := by
  rw [pfnDown, pageSize]
  omega

theorem le_pfnUp {x : Int} (nonneg : 0 ≤ x) :
    x ≤ (pfnUp x : Int) * pageSize ∧ (pfnUp x : Int) * pageSize < x + pageSize := by
  rw [pfnUp, pageSize]
  omega

/-- A unit is made of whole pages. -/
theorem pfnUp_le {x u : Int} (nonneg : 0 ≤ x) (le : x ≤ u) (pages : 4096 ∣ u) :
    pfnUp x * pageSize ≤ u := by
  rw [pfnUp, pageSize]
  omega

structure HeadFits (off thisSize size align head : Int) : Prop where
  nonneg : 0 ≤ head
  room : head + size ≤ thisSize
  aligned : align ∣ off + head

section
variable {chunk : PcpuChunk} {off thisSize size align : Int} {popOnly : Bool}

section
variable (nonneg : 0 ≤ off) (some : 0 ≤ thisSize) (pos : 0 < size) (alignPos : 0 < align)
  (small : pfnUp (off + thisSize) * pageSize + align + size ≤ 2 ^ 31)
include nonneg some pos alignPos small

/-- Each round that does not end the search starts the next one on a later page, and no
round starts behind the area. -/
theorem fitLoop_spec (fuel : Nat) (candOff : Int)
    (low : off ≤ candOff) (high : candOff ≤ pfnUp (off + thisSize) * pageSize)
    (enough : pfnUp (off + thisSize) < pfnDown candOff + fuel) :
    ∃ head, fitLoop chunk off thisSize size align popOnly fuel candOff = Option.some head ∧
      (head < 0 ∨ HeadFits off thisSize size align head) := by
  have last := le_pfnUp (x := off + thisSize) (by omega)
  have first := pfnDown_le (x := candOff) (by omega)
  rw [pageSize] at *
  induction fuel generalizing candOff with
  | zero => omega
  | succ fuel ih =>
    obtain ⟨le, lt, dvd⟩ := alignUp_spec (x := candOff) (by omega) alignPos (by omega)
    generalize alignedEq : alignUp candOff align = aligned at le lt dvd
    have head : int32 (aligned - off) = aligned - off := int32_eq (by omega) (by omega)
    have total : int32 (aligned - off + size) = aligned - off + size :=
      int32_eq (by omega) (by omega)
    rw [fitLoop]
    simp only [alignedEq, head, total]
    by_cases fits : thisSize < aligned - off + size
    · rw [if_pos fits]
      exact ⟨-1, rfl, .inl (by omega)⟩
    rw [if_neg fits]
    have found : HeadFits off thisSize size align (aligned - off) :=
      ⟨by omega, by omega, by rw [show off + (aligned - off) = aligned by omega]; exact dvd⟩
    by_cases any : popOnly = true
    · rw [if_neg (by simp [any])]
      have start := pfnDown_le (x := aligned - off + off) (by omega)
      have stop := le_pfnUp (x := aligned - off + off + size) (by omega)
      rw [pageSize] at start stop
      have rsRange := findNext_spec (fun page => !chunk.populated page)
        (pfnUp (off + thisSize)) (pfnDown (aligned - off + off)) (by omega)
      generalize findNext (fun page => !chunk.populated page) _ _ = rs at rsRange ⊢
      by_cases done : pfnUp (aligned - off + off + size) ≤ rs
      · rw [if_pos done]
        exact ⟨_, rfl, .inr found⟩
      rw [if_neg done]
      have reRange := findNext_spec chunk.populated (pfnUp (off + thisSize)) (rs + 1) (by omega)
      generalize findNext chunk.populated (pfnUp (off + thisSize)) (rs + 1) = re at reRange ⊢
      have next := pfnDown_le (x := (re : Int) * 4096) (by omega)
      rw [pageSize] at next
      exact ih (re * 4096) (by omega) (by omega) (by omega) next
    · rw [if_pos (by simp [any])]
      exact ⟨_, rfl, .inr found⟩

theorem pcpuFitInArea_spec :
    ∃ head, pcpuFitInArea chunk off thisSize size align popOnly = Option.some head ∧
      (head < 0 ∨ HeadFits off thisSize size align head) := by
  have last := le_pfnUp (x := off + thisSize) (by omega)
  refine fitLoop_spec nonneg some pos alignPos small _ off (by omega) ?_ (by omega)
  omega

end

end

end Linux318.Source.Percpu
