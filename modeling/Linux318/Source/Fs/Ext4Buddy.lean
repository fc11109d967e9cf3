import Mathlib.Algebra.Ring.Nat
import Mathlib.Data.Nat.Log
import Mathlib.Tactic.Common

/-!
# The ext4 buddy of a block group

Source: fs/ext4/mballoc.c:370-470,663-795,1240-1488,1543-1616,2575-2592. A bitmap is a
function from bit numbers; a set bit is used, or no chunk of its order. The bitmaps of the
orders lie behind each other in one block, at `s_mb_offsets`, and do not overlap.

A result `none` is a `BUG_ON`, or an access outside the arrays of the group: `bb_counters`
and `s_mb_offsets` have `s_blocksize_bits + 2` entries.
-/
namespace Linux318.Source.Fs

structure Ext4Sb where
  blkbits : Nat
  clustersPerGroup : Nat
  deriving DecidableEq, Repr

structure BuddyGroup where
  bitmap : Nat → Bool
  /-- The bitmap of each order from 1 on. -/
  buddy : Nat → Nat → Bool
  bbCounters : Nat → Int
  bbFree : Int
  bbFragments : Int
  bbFirstFree : Nat
  bbLargestFreeOrder : Int
  /-- `EXT4_GROUP_INFO_BBITMAP_CORRUPT_BIT` -/
  corrupt : Bool

def setBit (bm : Nat → Bool) (bit : Nat) (value : Bool) : Nat → Bool :=
  fun i => if i = bit then value else bm i

def setWord (bm : Nat → Bool) (bit : Nat) (value : Bool) : Nat → Bool :=
  fun i => if bit ≤ i ∧ i < bit + 32 then value else bm i

/-- The loop of `mb_clear_bits` and `ext4_set_bits`: whole words where possible. -/
def writeBits (value : Bool) (bm : Nat → Bool) (cur len : Nat) : Nat → Bool :=
  if cur < len then
    if cur % 32 = 0 ∧ len - cur ≥ 32 then writeBits value (setWord bm cur value) (cur + 32) len
    else writeBits value (setBit bm cur value) (cur + 1) len
  else bm
termination_by len - cur

def mbClearBits (bm : Nat → Bool) (cur len : Nat) : Nat → Bool :=
  writeBits false bm cur (cur + len)

def ext4SetBits (bm : Nat → Bool) (cur len : Nat) : Nat → Bool :=
  writeBits true bm cur (cur + len)

/-- The first number from `start` to `max` with the property, or `max`. -/
def mbFindNext (p : Nat → Bool) (max start : Nat) : Nat :=
  ((List.range' start (max - start)).find? p).getD max

def mbFindNextZeroBit (bm : Nat → Bool) (max start : Nat) : Nat :=
  mbFindNext (fun i => !bm i) max start

def mbFindNextBit (bm : Nat → Bool) (max start : Nat) : Nat := mbFindNext bm max start

/-- The loop of `mb_test_and_clear_bits`; `zeroBit` is the first bit that was clear. -/
def testAndClearLoop (bm : Nat → Bool) (zeroBit : Option Nat) (cur len : Nat) :
    Option Nat × (Nat → Bool) :=
  if cur < len then
    if cur % 32 = 0 ∧ len - cur ≥ 32 then
      let word := fun i => bm (cur + i)
      let zeroBit :=
        if (List.range 32).any (fun i => !word i) ∧ zeroBit = none then
          some (cur + mbFindNextZeroBit word 32 0)
        else zeroBit
      testAndClearLoop (setWord bm cur false) zeroBit (cur + 32) len
    else
      let zeroBit := if bm cur = false ∧ zeroBit = none then some cur else zeroBit
      testAndClearLoop (setBit bm cur false) zeroBit (cur + 1) len
  else (zeroBit, bm)
termination_by len - cur

def mbTestAndClearBits (bm : Nat → Bool) (cur len : Nat) : Option Nat × (Nat → Bool) :=
  testAndClearLoop bm none cur (cur + len)

/-- The number of the lowest set bit, from 1 on. -/
def ffs (x : Nat) : Nat :=
  if x = 0 then 0 else if x % 2 = 1 then 1 else ffs (x / 2) + 1
termination_by x

/-- The number of the highest set bit, from 1 on. -/
def fls (x : Nat) : Nat := if x = 0 then 0 else Nat.log2 x + 1

theorem writeBits_eq (value : Bool) (bm : Nat → Bool) (cur len i : Nat) :
    writeBits value bm cur len i = if cur ≤ i ∧ i < len then value else bm i := by
  fun_induction writeBits value bm cur len with
  | case1 bm cur inside word ih =>
    rw [ih, setWord]
    grind
  | case2 bm cur inside word ih =>
    rw [ih, setBit]
    grind
  | case3 bm cur out =>
    rw [if_neg (by omega)]

theorem ext4SetBits_eq (bm : Nat → Bool) (cur len i : Nat) :
    ext4SetBits bm cur len i = if cur ≤ i ∧ i < cur + len then true else bm i :=
  writeBits_eq true bm cur (cur + len) i

theorem mbClearBits_eq (bm : Nat → Bool) (cur len i : Nat) :
    mbClearBits bm cur len i = if cur ≤ i ∧ i < cur + len then false else bm i :=
  writeBits_eq false bm cur (cur + len) i

theorem testAndClearLoop_snd (bm : Nat → Bool) (zeroBit : Option Nat) (cur len i : Nat) :
    (testAndClearLoop bm zeroBit cur len).2 i = if cur ≤ i ∧ i < len then false else bm i := by
  fun_induction testAndClearLoop bm zeroBit cur len with
  | case1 bm zeroBit cur inside aligned word zero ih =>
    rw [ih, setWord]
    grind
  | case2 bm zeroBit cur inside aligned zero ih =>
    rw [ih, setBit]
    grind
  | case3 bm zeroBit cur out =>
    rw [if_neg (by omega)]

/-- No bit was clear exactly when all bits of the range were set. -/
theorem testAndClearLoop_fst (bm : Nat → Bool) (zeroBit : Option Nat) (cur len : Nat) :
    (testAndClearLoop bm zeroBit cur len).1 = none ↔
      zeroBit = none ∧ ∀ i, cur ≤ i → i < len → bm i = true := by
  fun_induction testAndClearLoop bm zeroBit cur len with
  | case1 bm zeroBit cur inside aligned word zero ih =>
    rw [ih]
    have first : zero = none ↔ zeroBit = none ∧ ∀ j < 32, bm (cur + j) = true := by
      cases zeroBit with
      | some z => simp [zero]
      | none => simp [zero, word]
    rw [first]
    constructor
    · rintro ⟨⟨none, word⟩, later⟩
      refine ⟨none, fun i low high => ?_⟩
      by_cases inWord : i < cur + 32
      · have := word (i - cur) (by omega)
        rwa [Nat.add_sub_cancel' low] at this
      · have := later i (by omega) high
        rwa [setWord, if_neg (by omega)] at this
    · rintro ⟨none, all⟩
      refine ⟨⟨none, fun j lt => all _ (by omega) (by omega)⟩, fun i low high => ?_⟩
      rw [setWord, if_neg (by omega)]
      exact all i (by omega) high
  | case2 bm zeroBit cur inside aligned zero ih =>
    rw [ih]
    have first : zero = none ↔ zeroBit = none ∧ bm cur = true := by
      cases zeroBit with
      | some z => simp [zero]
      | none => simp [zero]
    rw [first]
    constructor
    · rintro ⟨⟨none, bit⟩, later⟩
      refine ⟨none, fun i low high => ?_⟩
      by_cases same : i = cur
      · rwa [same]
      · have := later i (by omega) high
        rwa [setBit, if_neg same] at this
    · rintro ⟨none, all⟩
      refine ⟨⟨none, all cur (by omega) inside⟩, fun i low high => ?_⟩
      rw [setBit, if_neg (by omega)]
      exact all i (by omega) high
  | case3 bm zeroBit cur out =>
    constructor
    · exact fun none => ⟨none, fun i low high => absurd high (by omega)⟩
    · exact fun h => h.1

theorem mbFindNext_spec (p : Nat → Bool) {max start : Nat} (le : start ≤ max) :
    start ≤ mbFindNext p max start ∧ mbFindNext p max start ≤ max ∧
    (∀ i, start ≤ i → i < mbFindNext p max start → p i = false) ∧
    (mbFindNext p max start < max → p (mbFindNext p max start) = true) := by
  unfold mbFindNext
  cases found : (List.range' start (max - start)).find? p with
  | none =>
    rw [List.find?_eq_none] at found
    refine ⟨le, Nat.le_refl _, fun i low high => ?_, fun lt => absurd lt (Nat.lt_irrefl _)⟩
    simpa using found i (by simp only [Option.getD_none] at high; simp; omega)
  | some n =>
    obtain ⟨hit, mem, before⟩ := List.find?_range'_eq_some.mp found
    simp only [List.mem_range'_1] at mem
    refine ⟨mem.1, by simp only [Option.getD_some]; omega, fun i low high => ?_, fun _ => hit⟩
    simpa using before i low high

theorem mbFindNextZeroBit_spec (bm : Nat → Bool) {max start : Nat} (le : start ≤ max) :
    start ≤ mbFindNextZeroBit bm max start ∧ mbFindNextZeroBit bm max start ≤ max ∧
    (∀ i, start ≤ i → i < mbFindNextZeroBit bm max start → bm i = true) ∧
    (mbFindNextZeroBit bm max start < max → bm (mbFindNextZeroBit bm max start) = false) := by
  simpa [mbFindNextZeroBit] using mbFindNext_spec (fun i => !bm i) le

def Ext4Sb.sMbMaxs (sb : Ext4Sb) (order : Nat) : Nat :=
  if order = 0 then 2 ^ sb.blkbits <<< 3 else 2 ^ sb.blkbits <<< 2 >>> (order - 1)

/-- The number of bits of an order, if the order exists. -/
def mbFindBuddy (sb : Ext4Sb) (order : Nat) : Option Nat :=
  if order > sb.blkbits + 1 then none else some (sb.sMbMaxs order)

namespace BuddyGroup

def buddyOf (grp : BuddyGroup) (order : Nat) : Nat → Bool :=
  if order = 0 then grp.bitmap else grp.buddy order

def setBuddy (grp : BuddyGroup) (order : Nat) (bm : Nat → Bool) : BuddyGroup :=
  if order = 0 then { grp with bitmap := bm }
  else { grp with buddy := fun o => if o = order then bm else grp.buddy o }

def addCounter (grp : BuddyGroup) (order : Nat) (n : Int) : BuddyGroup :=
  { grp with bbCounters := fun o => if o = order then grp.bbCounters o + n else grp.bbCounters o }

end BuddyGroup

def border (sb : Ext4Sb) : Nat := (2 <<< sb.blkbits) % 2 ^ 16

/-- The loop of `ext4_mb_mark_free_simple`; every round takes at least one block. -/
def markFreeLoop (sb : Ext4Sb) : Nat → BuddyGroup → Nat → Nat → Option BuddyGroup
  | 0, grp, _, _ => some grp
  | rounds + 1, grp, first, len =>
    if len > 0 then
      match ffs (first ||| border sb) with
      | 0 => none
      | max + 1 =>
        let min := Nat.min max (fls len - 1)
        if min > sb.blkbits + 1 then none
        else
          let grp := grp.addCounter min 1
          let grp :=
            if min > 0 then grp.setBuddy min (setBit (grp.buddyOf min) (first >>> min) false)
            else grp
          markFreeLoop sb rounds grp (first + 2 ^ min) (len - 2 ^ min)
    else some grp

def ext4MbMarkFreeSimple (sb : Ext4Sb) (grp : BuddyGroup) (first len : Nat) :
    Option BuddyGroup :=
  if len > sb.clustersPerGroup then none else markFreeLoop sb len grp first len

/-- The loop of `mb_set_largest_free_order`, from order `i` down. -/
def largestFreeOrder (counters : Nat → Int) : Nat → Int
  | 0 => if counters 0 > 0 then 0 else -1
  | i + 1 => if counters (i + 1) > 0 then ((i + 1 : Nat) : Int) else largestFreeOrder counters i

def mbSetLargestFreeOrder (sb : Ext4Sb) (grp : BuddyGroup) : BuddyGroup :=
  { grp with bbLargestFreeOrder := largestFreeOrder grp.bbCounters (sb.blkbits + 1) }

/-- The loop of `ext4_mb_generate_buddy` with `free` and `fragments`; every round passes at
least one block. -/
def generateLoop (sb : Ext4Sb) :
    Nat → BuddyGroup → Nat → Nat → Nat → Option (BuddyGroup × Nat × Nat)
  | 0, grp, _, free, fragments => some (grp, free, fragments)
  | rounds + 1, grp, first, free, fragments =>
    if first < sb.clustersPerGroup then
      let i := mbFindNextBit grp.bitmap sb.clustersPerGroup first
      let len := i - first
      let marked := if len > 1 then ext4MbMarkFreeSimple sb grp first len
        else some (grp.addCounter 0 1)
      match marked with
      | none => none
      | some grp =>
        let i := if i < sb.clustersPerGroup then
          mbFindNextZeroBit grp.bitmap sb.clustersPerGroup i else i
        generateLoop sb rounds grp i (free + len) (fragments + 1)
    else some (grp, free, fragments)

def ext4MbGenerateBuddy (sb : Ext4Sb) (grp : BuddyGroup) : Option BuddyGroup :=
  let i := mbFindNextZeroBit grp.bitmap sb.clustersPerGroup 0
  match generateLoop sb sb.clustersPerGroup { grp with bbFirstFree := i } i 0 0 with
  | none => none
  | some (grp, free, fragments) =>
    let grp := { grp with bbFragments := fragments }
    let grp :=
      if (free : Int) ≠ grp.bbFree then { grp with bbFree := free, corrupt := true } else grp
    some (mbSetLargestFreeOrder sb grp)

def resetBuddy (sb : Ext4Sb) (grp : BuddyGroup) : BuddyGroup :=
  { grp with
    buddy := fun order =>
      if 1 ≤ order ∧ order ≤ sb.blkbits + 1 then
        ext4SetBits (grp.buddy order) 0 (sb.sMbMaxs order)
      else grp.buddy order
    bbFragments := 0
    bbCounters := fun order => if order < sb.blkbits + 2 then 0 else grp.bbCounters order }

def mbRegenerateBuddy (sb : Ext4Sb) (grp : BuddyGroup) : Option BuddyGroup :=
  ext4MbGenerateBuddy sb (resetBuddy sb grp)

/-- The group that `ext4_mb_init_cache` hands to `ext4_mb_generate_buddy`: `bbFree` is the
count of the group descriptor. -/
def initGroup (bitmap : Nat → Bool) (bbFree : Int) : BuddyGroup :=
  { bitmap, buddy := fun _ _ => true, bbCounters := fun _ => 0, bbFree, bbFragments := 0
    bbFirstFree := 0, bbLargestFreeOrder := 0, corrupt := false }

/-- `mb_buddy_adjust_border` for one side, with the change of the counter. -/
def mbBuddyAdjustBorder (grp : BuddyGroup) (order : Nat) (bit side : Int) : Int × BuddyGroup :=
  if grp.buddyOf order (bit + side).toNat then
    (bit - side,
      (grp.setBuddy order (setBit (grp.buddyOf order) bit.toNat false)).addCounter order 1)
  else
    (bit + side,
      (grp.setBuddy order (setBit (grp.buddyOf order) (bit + side).toNat true)).addCounter
        order (-1))

/-- The loop of `mb_buddy_mark_free`; there is one round for each order. -/
def buddyMarkFreeLoop (sb : Ext4Sb) : Nat → BuddyGroup → Nat → Int → Int → BuddyGroup
  | 0, grp, _, _, _ => grp
  | rounds + 1, grp, order, first, last =>
    let left := if first % 2 = 1 then mbBuddyAdjustBorder grp order first (-1) else (first, grp)
    let first := left.1
    let right := if last % 2 = 0 then mbBuddyAdjustBorder left.2 order last 1 else (last, left.2)
    let last := right.1
    let grp := right.2
    if first > last then grp
    else if first = last ∨ mbFindBuddy sb (order + 1) = none then
      (grp.setBuddy order (mbClearBits (grp.buddyOf order) first.toNat
        (last - first + 1).toNat)).addCounter order (last - first + 1)
    else buddyMarkFreeLoop sb rounds grp (order + 1) (first / 2) (last / 2)

def mbBuddyMarkFree (sb : Ext4Sb) (grp : BuddyGroup) (first last : Int) : BuddyGroup :=
  buddyMarkFreeLoop sb (sb.blkbits + 1) grp 1 first last

/-- The fragments after a change between two neighbours; `gap` is the sign of a change
between used neighbours. -/
def addFragments (grp : BuddyGroup) (left right : Bool) (gap : Int) : BuddyGroup :=
  if left ∧ right then { grp with bbFragments := grp.bbFragments - gap }
  else if left = false ∧ right = false then { grp with bbFragments := grp.bbFragments + gap }
  else grp

def freeBorders (grp : BuddyGroup) (first last : Int) (leftIsFree rightIsFree : Bool) :
    Int × Int × BuddyGroup :=
  let left : Int × BuddyGroup :=
    if first % 2 = 1 then
      (if leftIsFree then first else first + 1, grp.addCounter 0 (if leftIsFree then -1 else 1))
    else (first, grp)
  let right : Int × BuddyGroup :=
    if last % 2 = 0 then
      (if rightIsFree then last else last - 1,
        left.2.addCounter 0 (if rightIsFree then -1 else 1))
    else (last, left.2)
  (left.1, right.1, right.2)

def mbFreeBlocks (sb : Ext4Sb) (grp : BuddyGroup) (first count : Nat) : Option BuddyGroup :=
  let last := first + count - 1
  if count = 0 then some grp
  else if last ≥ 2 ^ sb.blkbits <<< 3 then none
  else if grp.corrupt then some grp
  else
    let grp := { grp with
      bbFree := grp.bbFree + count
      bbFirstFree := if first < grp.bbFirstFree then first else grp.bbFirstFree }
    let leftIsFree := first ≠ 0 && !grp.bitmap (first - 1)
    let cleared := mbTestAndClearBits grp.bitmap first count
    let rightIsFree := last + 1 < sb.sMbMaxs 0 && !cleared.2 (last + 1)
    let grp := { grp with bitmap := cleared.2 }
    if cleared.1 ≠ none then
      (mbRegenerateBuddy sb { grp with corrupt := true }).map (mbSetLargestFreeOrder sb)
    else
      let grp := addFragments grp leftIsFree rightIsFree 1
      let borders := freeBorders grp first last leftIsFree rightIsFree
      let grp :=
        if borders.1 ≤ borders.2.1 then
          mbBuddyMarkFree sb borders.2.2 (borders.1 / 2) (borders.2.1 / 2)
        else borders.2.2
      some (mbSetLargestFreeOrder sb grp)

/-- The loop of `mb_find_order_for_block` over the remaining orders. -/
def findOrderLoop (buddy : Nat → Nat → Bool) : Nat → Nat → Nat → Nat
  | 0, _, _ => 0
  | left + 1, order, block =>
    if buddy order (block >>> 1) = false then order
    else findOrderLoop buddy left (order + 1) (block >>> 1)

/-- The order of the chunk of a free block; callers stay inside the group. -/
def mbFindOrderForBlock (sb : Ext4Sb) (grp : BuddyGroup) (block : Nat) : Nat :=
  findOrderLoop grp.buddy (sb.blkbits + 1) 1 block

/-- The loop of `mb_find_extent` behind the chunk `block` of an order; every round adds at least
one block to the extent. -/
def findExtentLoop (sb : Ext4Sb) (grp : BuddyGroup) (needed : Nat) : Nat → Nat → Nat → Nat → Nat
  | 0, _, _, feLen => feLen
  | rounds + 1, order, block, feLen =>
    if needed > feLen then
      match mbFindBuddy sb order with
      | none => feLen
      | some max =>
        if block + 1 ≥ max then feLen
        else
          let next := (block + 1) * 2 ^ order
          if grp.bitmap next then feLen
          else
            let order := mbFindOrderForBlock sb grp next
            findExtentLoop sb grp needed rounds order (next >>> order) (feLen + 2 ^ order)
    else feLen

/-- The start and the length of the extent, `none` for a `BUG_ON`. -/
def mbFindExtent (sb : Ext4Sb) (grp : BuddyGroup) (block needed : Nat) : Option (Nat × Nat) :=
  if block ≥ sb.sMbMaxs 0 then none
  else if grp.bitmap block then some (0, 0)
  else
    let order := mbFindOrderForBlock sb grp block
    let feStart := block >>> order <<< order
    let next := block - feStart
    let feLen := findExtentLoop sb grp needed needed order (block >>> order) (2 ^ order - next)
    if feStart + next + feLen > 2 ^ (sb.blkbits + 3) then none else some (feStart + next, feLen)

def takeChunk (grp : BuddyGroup) (ord start : Nat) : BuddyGroup :=
  (grp.setBuddy ord (setBit (grp.buddyOf ord) (start >>> ord) true)).addCounter ord (-1)

def splitChunk (grp : BuddyGroup) (ord start : Nat) : BuddyGroup :=
  let grp := takeChunk grp (ord + 1) start
  let cur := (start >>> ord) / 2 * 2
  let grp := grp.setBuddy ord (setBit (setBit (grp.buddyOf ord) cur false) (cur + 1) false)
  (grp.addCounter ord 1).addCounter ord 1

/-- The loop of `mb_mark_used`, with the value that it returns. -/
def markUsedLoop (sb : Ext4Sb) :
    Nat → BuddyGroup → Nat → Nat → Nat → Option (Nat × BuddyGroup)
  | 0, _, _, _, _ => none
  | rounds + 1, grp, start, len, ret =>
    if len = 0 then some (ret, grp)
    else
      let ord := mbFindOrderForBlock sb grp start
      if start >>> ord <<< ord = start ∧ len ≥ 2 ^ ord then
        if start >>> ord ≥ sb.sMbMaxs ord then none
        else markUsedLoop sb rounds (takeChunk grp ord start) (start + 2 ^ ord) (len - 2 ^ ord) ret
      else
        let ret := if ret = 0 then len ||| ord <<< 16 else ret
        match ord with
        | 0 => none
        | ord + 1 => markUsedLoop sb rounds (splitChunk grp ord start) start len ret

def mbMarkUsed (sb : Ext4Sb) (grp : BuddyGroup) (start len : Nat) : Option (Nat × BuddyGroup) :=
  if start + len > 2 ^ sb.blkbits <<< 3 then none
  else
    let grp := { grp with
      bbFree := grp.bbFree - len
      bbFirstFree := if grp.bbFirstFree = start then grp.bbFirstFree + len else grp.bbFirstFree }
    let mlen := start ≠ 0 && !grp.bitmap (start - 1)
    let max := start + len < sb.sMbMaxs 0 && !grp.bitmap (start + len)
    let grp := addFragments grp mlen max (-1)
    match markUsedLoop sb ((len + 1) * (sb.blkbits + 3)) grp start len 0 with
    | none => none
    | some (ret, grp) =>
      let grp := mbSetLargestFreeOrder sb grp
      some (ret, { grp with bitmap := ext4SetBits grp.bitmap start len })

end Linux318.Source.Fs
