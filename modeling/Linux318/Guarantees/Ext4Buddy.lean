import Mathlib.Data.Nat.Count
import Linux318.Lib.Run
import Linux318.Source.Fs.Ext4BuddyUsed
import Linux318.Source.Fs.Ext4BuddyFree

/-!
# The buddy of a group stays what its bitmap says

Source: fs/ext4/mballoc.c. A group is built from its bitmap, and then extents are allocated and
freed. The buddy and the counts stay those that building the group anew would give. Building
itself goes wrong where `border` is truncated to 0.
-/
namespace Linux318.Guarantees
open Lib Lib.Buddy Source.Fs

variable {sb : Ext4Sb} {grp : BuddyGroup}

inductive BuddyEvent where
  | markUsed (start len : Nat)
  | freeBlocks (first len : Nat)
  deriving DecidableEq, Repr

def buddyStep (sb : Ext4Sb) (grp : BuddyGroup) : BuddyEvent → Option BuddyGroup
  | .markUsed start len => (mbMarkUsed sb grp start len).map (·.2)
  | .freeBlocks first len => mbFreeBlocks sb grp first len

def buddyRun (sb : Ext4Sb) (grp : BuddyGroup) (events : List BuddyEvent) : Option BuddyGroup :=
  events.foldlM (buddyStep sb) grp

/-- The bitmap that a call leaves; nothing is freed in a corrupt group. -/
def bitmapStep (corrupt : Bool) (bitmap : Nat → Bool) : BuddyEvent → Nat → Bool
  | .markUsed start len => withExtent bitmap start len true
  | .freeBlocks first len => if corrupt then bitmap else withExtent bitmap first len false

/-- Extents to allocate are entirely free, and extents to free are entirely used. -/
def EventFits (sb : Ext4Sb) (bitmap : Nat → Bool) : BuddyEvent → Prop
  | .markUsed start len => 0 < len ∧ ∀ b, start ≤ b → b < start + len → bitmap b = false
  | .freeBlocks first len => first + len ≤ sb.clustersPerGroup ∧
      ∀ b, first ≤ b → b < first + len → bitmap b = true

/-- Every call keeps bitmap and buddy in step. -/
theorem consistent_step (consistent : Consistent sb grp) {event : BuddyEvent}
    (fits : EventFits sb grp.bitmap event) :
    ∃ grp', buddyStep sb grp event = some grp' ∧ Consistent sb grp' ∧
      grp'.bitmap = bitmapStep grp.corrupt grp.bitmap event ∧ grp'.corrupt = grp.corrupt := by
  cases event with
  | markUsed start len =>
    obtain ⟨ret, grp', res, rest⟩ := consistent.mbMarkUsed fits.1 fits.2
    exact ⟨grp', by rw [buddyStep, res]; rfl, rest⟩
  | freeBlocks first len => exact consistent.mbFreeBlocks fits.1 fits.2

/-- Allocating and freeing never fail, and keep the group consistent. -/
theorem consistent_run (events : List BuddyEvent) (consistent : Consistent sb grp)
    (fit : StepsMeet (bitmapStep grp.corrupt) (EventFits sb) grp.bitmap events) :
    ∃ grp', buddyRun sb grp events = some grp' ∧ Consistent sb grp' ∧
      grp'.bitmap = runFrom (bitmapStep grp.corrupt) grp.bitmap events := by
  let inv (rest : List BuddyEvent) (grp' : BuddyGroup) : Prop :=
    Consistent sb grp' ∧ grp'.corrupt = grp.corrupt ∧
      StepsMeet (bitmapStep grp.corrupt) (EventFits sb) grp'.bitmap rest ∧
      runFrom (bitmapStep grp.corrupt) grp'.bitmap rest =
        runFrom (bitmapStep grp.corrupt) grp.bitmap events
  obtain ⟨last, run, consistent', _, _, bitmap⟩ := foldlM_invariant inv
    (fun event rest grp' ⟨consistent, flag, fit, after⟩ => by
      obtain ⟨next, res, consistent', bitmap, corrupt⟩ := consistent_step consistent fit.1
      rw [flag] at bitmap corrupt
      exact ⟨next, res, consistent', corrupt, bitmap ▸ fit.2, bitmap ▸ after⟩)
    events grp ⟨consistent, rfl, fit, rfl⟩
  exact ⟨last, run, consistent', bitmap⟩

def freeClusters (sb : Ext4Sb) (bitmap : Nat → Bool) : Nat :=
  Nat.count (fun b => bitmap b = false) sb.clustersPerGroup

def descriptorWrong (sb : Ext4Sb) (bitmap : Nat → Bool) (bbFree : Int) : Bool :=
  bbFree ≠ freeClusters sb bitmap

/-- The padding behind the group is not counted. -/
theorem freeClusters_eq {bitmap : Nat → Bool} (padded : Padded sb bitmap) :
    freeClusters sb bitmap = count sb.bits fun b => bitmap b = false := by
  rw [freeClusters, Nat.count_eq_card_filter_range]
  congr 1
  ext b
  simp only [Finset.mem_filter, Finset.mem_range]
  have le := padded.le
  exact ⟨fun h => ⟨by omega, h.2⟩, fun h => ⟨padded.bound h.2, h.2⟩⟩

/-- The group of an inode, built from its bitmap and the count of its descriptor, after a list of
calls. -/
def groupAfter (sb : Ext4Sb) (bitmap : Nat → Bool) (bbFree : Int) (events : List BuddyEvent) :
    Option BuddyGroup :=
  (ext4MbGenerateBuddy sb (initGroup bitmap bbFree)).bind fun grp => buddyRun sb grp events

def bitmapAfter (sb : Ext4Sb) (bitmap : Nat → Bool) (bbFree : Int) (events : List BuddyEvent) :
    Nat → Bool :=
  runFrom (bitmapStep (descriptorWrong sb bitmap bbFree)) bitmap events

theorem groupAfter_spec {bitmap : Nat → Bool} (padded : Padded sb bitmap)
    (bbFree : Int) {events : List BuddyEvent}
    (fit : StepsMeet (bitmapStep (descriptorWrong sb bitmap bbFree)) (EventFits sb) bitmap events) :
    (BorderFails sb (fun b => bitmap b = false) → groupAfter sb bitmap bbFree events = none) ∧
    (¬ BorderFails sb (fun b => bitmap b = false) → ∃ grp,
      groupAfter sb bitmap bbFree events = some grp ∧ Consistent sb grp ∧
      grp.bitmap = bitmapAfter sb bitmap bbFree events) := by
  obtain ⟨fails, works⟩ := initGroup_generate padded bbFree
  refine ⟨fun bad => ?_, fun good => ?_⟩
  · rw [groupAfter, fails bad]
    rfl
  obtain ⟨grp, res, consistent, rfl, corrupt⟩ := works good
  rw [← freeClusters_eq padded] at corrupt
  have flag : grp.corrupt = descriptorWrong sb grp.bitmap bbFree := by
    rw [Bool.eq_iff_iff, corrupt]
    simp [descriptorWrong]
  rw [← flag] at fit
  obtain ⟨last, run, after⟩ := consistent_run events consistent fit
  refine ⟨last, ?_, ?_⟩
  · rw [groupAfter, res]
    exact run
  · rw [bitmapAfter, ← flag]
    exact after

/-- The hint and everything else that building the group anew would give. -/
def BuiltAnew (sb : Ext4Sb) (grp : BuddyGroup) : Prop :=
  mbRegenerateBuddy sb grp =
    some { grp with bbFirstFree := mbFindNextZeroBit grp.bitmap sb.clustersPerGroup 0 } ∧
  ∀ b, grp.bitmap b = false → grp.bbFirstFree ≤ b

/-- Allocating free extents and freeing used ones leaves the buddy, the counters, the free blocks,
the fragments and the largest order that building the group anew gives, and a hint that is not
behind the first free block. The exceptions are the bitmaps on which building goes wrong. -/
theorem groupAfter_builtAnew_iff (sb : Ext4Sb) (bitmap : Nat → Bool) (bbFree : Int)
    (events : List BuddyEvent) (padded : Padded sb bitmap)
    (fit : StepsMeet (bitmapStep (descriptorWrong sb bitmap bbFree)) (EventFits sb) bitmap events) :
    (∃ grp, groupAfter sb bitmap bbFree events = some grp ∧
      grp.bitmap = bitmapAfter sb bitmap bbFree events ∧ BuiltAnew sb grp) ↔
    ¬ BorderFails sb (fun b => bitmap b = false) ∧
    ¬ BorderFails sb (fun b => bitmapAfter sb bitmap bbFree events b = false) := by
  obtain ⟨fails, works⟩ := groupAfter_spec padded bbFree fit
  constructor
  · rintro ⟨grp, result, after, anew, _⟩
    have good : ¬ BorderFails sb (fun b => bitmap b = false) := fun bad => by
      rw [fails bad] at result
      cases result
    refine ⟨good, fun bad => ?_⟩
    obtain ⟨grp', result', consistent, _⟩ := works good
    obtain rfl : grp = grp' := Option.some.inj (result.symm.trans result')
    rw [← after] at bad
    rw [consistent.regenerate.1 bad] at anew
    cases anew
  · rintro ⟨good, later⟩
    obtain ⟨grp, result, consistent, after⟩ := works good
    rw [← after] at later
    exact ⟨grp, result, after, consistent.regenerate.2 later, consistent.firstFree⟩

/-- In a group without free clusters, a descriptor that has none is right. -/
theorem descriptorWrong_used (sb : Ext4Sb) : descriptorWrong sb (fun _ => true) 0 = false := by
  simp [descriptorWrong, freeClusters]

/-- A file system with blocks of 1024 bytes and full groups. -/
def smallBlocks : Ext4Sb := { blkbits := 10, clustersPerGroup := 8192 }

/-- Two blocks of a used group are freed, and one of them is allocated again. -/
def freeTwoUseOne : List BuddyEvent := [.freeBlocks 4 2, .markUsed 5 1]

theorem groupAfter_builtAnew_smallBlocks :
    ∃ grp, groupAfter smallBlocks (fun _ => true) 0 freeTwoUseOne = some grp ∧
      grp.bitmap = bitmapAfter smallBlocks (fun _ => true) 0 freeTwoUseOne ∧
      BuiltAnew smallBlocks grp := by
  have small : ¬ smallBlocks.blkbits > 14 := by decide
  refine (groupAfter_builtAnew_iff smallBlocks (fun _ => true) 0 freeTwoUseOne
    ⟨by decide, fun _ _ => rfl⟩ ⟨⟨by decide, fun _ _ _ => rfl⟩, ⟨by decide, ?_⟩, trivial⟩).mpr
    ⟨fun bad => small bad.1, fun bad => small bad.1⟩
  intro b low high
  rw [descriptorWrong_used]
  exact if_pos (by omega)

/-- A file system with blocks of 32768 bytes and full groups. -/
def largeBlocks : Ext4Sb := { blkbits := 15, clustersPerGroup := 262144 }

/-- Once the first two blocks of a used group are freed, the group cannot be built anew. -/
theorem regenerate_largeBlocks_none : EventFits largeBlocks (fun _ => true) (.freeBlocks 0 2) ∧
    ∃ grp, groupAfter largeBlocks (fun _ => true) 0 [.freeBlocks 0 2] = some grp ∧
      mbRegenerateBuddy largeBlocks grp = none := by
  have padded : Padded largeBlocks fun _ => true := ⟨by decide, fun _ _ => rfl⟩
  have good : ¬ BorderFails largeBlocks fun _ => true = false := by
    rintro ⟨_, ⟨bad, _⟩ | bad⟩
    · cases bad
    · cases bad (2 ^ 17) (by decide) (by decide)
  have fits : EventFits largeBlocks (fun _ => true) (.freeBlocks 0 2) :=
    ⟨by decide, fun _ _ _ => rfl⟩
  obtain ⟨grp, result, consistent, after⟩ :=
    (@groupAfter_spec _ _ padded 0 [.freeBlocks 0 2] ⟨fits, trivial⟩).2 good
  refine ⟨fits, grp, result, consistent.regenerate.1 ⟨by decide, .inl ⟨?_, ?_⟩⟩⟩
  all_goals
    rw [BuddyGroup.Free, after, bitmapAfter, descriptorWrong_used]
    rfl

/-- The chunks, each with its first block and its order, cut the run into what the group records. -/
structure Decomposed (sb : Ext4Sb) (grp : BuddyGroup) (first len : Nat) (chunks : List (Nat × Nat))
    (grp' : BuddyGroup) : Prop where
  recorded : grp' = recordChunks grp chunks
  disjoint : chunks.Pairwise fun c d => c.1 + 2 ^ c.2 ≤ d.1
  aligned : ∀ c ∈ chunks, c.2 ≤ sb.blkbits + 1 ∧ 2 ^ c.2 ∣ c.1
  cover : ∀ b, (∃ c ∈ chunks, c.1 ≤ b ∧ b < c.1 + 2 ^ c.2) ↔ first ≤ b ∧ b < first + len
  counters : ∀ o, grp'.bbCounters o = grp.bbCounters o + chunks.countP (·.2 = o)

theorem Takes.decomposed {first len : Nat} {chunks : List (Nat × Nat)}
    (takes : Takes sb first len chunks) (grp : BuddyGroup) :
    Decomposed sb grp first len chunks (recordChunks grp chunks) := by
  induction takes generalizing grp with
  | nil first => exact ⟨rfl, .nil, by simp, by simp, by simp [recordChunks]⟩
  | @cons first len order chunks chunk later ih =>
    have fits := chunk.fits
    have pow := Nat.two_pow_pos order
    obtain ⟨_, disjoint, aligned, cover, counters⟩ := ih (recordChunk grp first order)
    refine ⟨rfl, List.pairwise_cons.mpr ⟨fun d mem => ?_, disjoint⟩,
      List.forall_mem_cons.mpr ⟨⟨chunk.le, chunk.aligned⟩, aligned⟩, fun b => ?_, fun o => ?_⟩
    · exact ((cover d.1).mp ⟨d, mem, Nat.le_refl _, by have := Nat.two_pow_pos d.2; omega⟩).1
    · simp only [List.mem_cons, exists_eq_or_imp, cover]
      omega
    · refine (counters o).trans ?_
      rw [recordChunk_bbCounters]
      by_cases same : o = order <;> simp [same, eq_comm]; omega

/-- The exceptions are the runs on which a truncated `border` misleads the loop. -/
theorem ext4MbMarkFreeSimple_decomposed_iff (sb : Ext4Sb) (grp : BuddyGroup) (first len : Nat)
    (full : sb.clustersPerGroup = sb.bits) (le : first + len ≤ sb.bits) :
    (∃ chunks grp', ext4MbMarkFreeSimple sb grp first len = some grp' ∧
      Decomposed sb grp first len chunks grp') ↔ ¬ MisledRun sb first len := by
  obtain ⟨fails, works⟩ := markFreeLoop_takes len grp le (Nat.le_refl len)
  rw [ext4MbMarkFreeSimple, if_neg (by omega)]
  constructor
  · rintro ⟨_, _, result, _⟩ misled
    rw [fails misled] at result
    cases result
  · intro good
    obtain ⟨chunks, takes, result⟩ := works good
    exact ⟨chunks, _, result, Takes.decomposed takes grp⟩

theorem ext4MbMarkFreeSimple_decomposed_smallBlocks :
    ∃ chunks grp', ext4MbMarkFreeSimple smallBlocks (initGroup (fun _ => true) 0) 3 6 = some grp' ∧
      Decomposed smallBlocks (initGroup (fun _ => true) 0) 3 6 chunks grp' :=
  (ext4MbMarkFreeSimple_decomposed_iff smallBlocks _ 3 6 rfl (by decide)).mpr
    fun misled => absurd misled.1 (by decide)

/-- The loop takes the order below 0 for the first block of a group of large blocks. -/
theorem ext4MbMarkFreeSimple_largeBlocks_none :
    ext4MbMarkFreeSimple largeBlocks (initGroup (fun _ => true) 0) 0 1 = none := by
  exact (markFreeLoop_takes 1 _ (by decide) (Nat.le_refl 1)).1 ⟨by decide, by decide, .inl rfl⟩

/-- The answer of `mb_find_extent` is right: nothing for a used block, and else free blocks from
the block on, as many as needed or all up to the next used block. -/
def FoundExtent (sb : Ext4Sb) (grp : BuddyGroup) (block needed : Nat) : Option (Nat × Nat) → Prop
  | none => False
  | some (feStart, feLen) =>
    if grp.bitmap block then feLen = 0
    else feStart = block ∧ block + feLen ≤ sb.clustersPerGroup ∧
      (∀ b, block ≤ b → b < block + feLen → grp.bitmap b = false) ∧
      (needed ≤ feLen ∨ grp.bitmap (block + feLen) = true)

/-- The buddy has the bits of the maximal chunks of free blocks clear, and no others. -/
theorem mbFindExtent_foundExtent (sb : Ext4Sb) (grp : BuddyGroup) (padded : Padded sb grp.bitmap)
    (clear : ∀ k i, grp.buddy k i = false ↔ 1 ≤ k ∧ Maximal (sb.blkbits + 1) grp.Free k i)
    {block : Nat} (needed : Nat) (inside : block < sb.bits) :
    FoundExtent sb grp block needed (mbFindExtent sb grp block needed) := by
  by_cases used : grp.bitmap block = true
  · have small : ¬ block ≥ 2 ^ (sb.blkbits + 3 - 0) := Nat.not_le.mpr inside
    rw [mbFindExtent, sb.sMbMaxs_eq (Nat.zero_le _), if_neg small]
    simp [FoundExtent, used]
  have at_ : grp.Free block := by simpa using used
  obtain ⟨len, found, fits, free, long⟩ := mbFindExtent_spec padded clear needed at_
  rw [found, FoundExtent, if_neg used]
  exact ⟨rfl, fits, free, long.imp_right fun stop => by simpa using stop⟩

/-- The three blocks that were freed are found from the first one. They are two chunks, block 3 and
the blocks 4 and 5. -/
theorem mbFindExtent_foundExtent_freed :
    ∃ grp, groupAfter smallBlocks (fun _ => true) 0 [.freeBlocks 3 3] = some grp ∧
      FoundExtent smallBlocks grp 3 3 (mbFindExtent smallBlocks grp 3 3) := by
  have padded : Padded smallBlocks fun _ => true := ⟨by decide, fun _ _ => rfl⟩
  obtain ⟨grp, res, consistent, _⟩ := (@groupAfter_spec _ _ padded 0 [.freeBlocks 3 3]
    ⟨⟨by decide, fun _ _ _ => rfl⟩, trivial⟩).2 fun bad => absurd bad.1 (by decide)
  exact ⟨grp, res,
    mbFindExtent_foundExtent smallBlocks grp consistent.padded consistent.shows.clear 3 (by decide)⟩

end Linux318.Guarantees
