import Linux318.Source.Fs.Ext4BuddyTiles

/-!
# Building the buddy from scratch

Source: fs/ext4/mballoc.c:722-795. The loop over the runs of free blocks records the maximal
chunks, the free blocks and the fragments below the block that it has reached. It goes wrong
exactly when `border` is truncated and one of two patterns is free.
-/
namespace Linux318.Source.Fs
open Lib.Buddy

variable {sb : Ext4Sb} {first b n : Nat} {f p : Nat → Prop} {grp : BuddyGroup}

def RunStart (f : Nat → Prop) (b : Nat) : Prop := f b ∧ (b = 0 ∨ ¬ f (b - 1))

/-- The free blocks on which the loop goes wrong, seen from block `first` on: a `border` of 0
misleads at block 0, and in the middle if the second half of the group is free. -/
def MisledFrom (sb : Ext4Sb) (f : Nat → Prop) (first : Nat) : Prop :=
  sb.blkbits > 14 ∧ (first = 0 ∧ f 0 ∧ f 1 ∨
    first ≤ 2 ^ (sb.blkbits + 2) ∧ ∀ b, 2 ^ (sb.blkbits + 2) ≤ b → b < sb.bits → f b)

/-- The maximal run of free blocks at `first`, and the next free block behind it. -/
structure RunAt (f : Nat → Prop) (cpg first fin next : Nat) : Prop where
  lt : first < fin
  free : ∀ b, first ≤ b → b < fin → f b
  stop : ¬ f fin
  le : fin ≤ next
  used : ∀ b, fin ≤ b → b < next → ¬ f b
  reached : next < cpg → f next ∧ ¬ f (next - 1)
  inside : next ≤ cpg

/-- After a run that did not mislead the loop the same is left to be misled by. -/
theorem RunAt.misledFrom {cpg fin next : Nat} (run : RunAt f cpg first fin next)
    (ok : fin - first > 1 → ¬ MisledRun sb first (fin - first)) :
    MisledFrom sb f next ↔ MisledFrom sb f first := by
  have half := bits_eq sb
  have big : 2 ≤ 2 ^ (sb.blkbits + 2) := by
    have := Nat.pow_le_pow_right (show 2 > 0 by decide) (show 1 ≤ sb.blkbits + 2 by omega)
    omega
  have lt := run.lt
  have behind := run.le
  constructor
  · rintro ⟨large, ⟨zero, _⟩ | ⟨low, all⟩⟩
    · omega
    · exact ⟨large, .inr ⟨by omega, all⟩⟩
  rintro ⟨large, ⟨zero, f0, f1⟩ | ⟨low, all⟩⟩
  · refine absurd ⟨large, by omega, .inl zero⟩ (ok ?_)
    by_contra short
    obtain rfl : fin = 1 := by omega
    exact run.stop f1
  have before : fin < 2 ^ (sb.blkbits + 2) := by
    by_contra ge
    have beyond : sb.bits ≤ fin := by
      by_contra inside
      exact run.stop (all fin (by omega) (by omega))
    exact ok (by omega) ⟨large, by omega, .inr (by omega)⟩
  refine ⟨large, .inr ⟨?_, all⟩⟩
  by_contra gt
  exact run.used _ (by omega) (by omega) (all _ (Nat.le_refl _) (by omega))

theorem MisledRun.misledFrom {cpg fin next : Nat}
    (run : RunAt f cpg first fin next) (many : fin - first > 1)
    (misled : MisledRun sb first (fin - first)) : MisledFrom sb f first := by
  obtain ⟨large, _, rfl | ⟨low, high⟩⟩ := misled
  · exact ⟨large, .inl ⟨rfl, run.free 0 (by omega) (by omega), run.free 1 (by omega) (by omega)⟩⟩
  · exact ⟨large, .inr ⟨low, fun b hb hb' => run.free b (by omega) (by omega)⟩⟩

abbrev BuddyGroup.Free (grp : BuddyGroup) (b : Nat) : Prop := grp.bitmap b = false

/-- The bits behind the last cluster of the group are set, as `mke2fs` leaves them. -/
structure Padded (sb : Ext4Sb) (bitmap : Nat → Bool) : Prop where
  le : sb.clustersPerGroup ≤ sb.bits
  padding : ∀ b, sb.clustersPerGroup ≤ b → bitmap b = true

theorem Padded.bound {bitmap : Nat → Bool} (padded : Padded sb bitmap) (free : bitmap b = false) :
    b < sb.clustersPerGroup := by
  by_contra ge
  have := padded.padding b (by omega)
  simp [this] at free

/-- The searches of one round find a run and the free block behind it. -/
theorem runAt_find {bitmap : Nat → Bool} (padded : Padded sb bitmap) (free : bitmap first = false) :
    RunAt (fun b => bitmap b = false) sb.clustersPerGroup first
      (mbFindNextBit bitmap sb.clustersPerGroup first)
      (if mbFindNextBit bitmap sb.clustersPerGroup first < sb.clustersPerGroup then
        mbFindNextZeroBit bitmap sb.clustersPerGroup
          (mbFindNextBit bitmap sb.clustersPerGroup first)
      else mbFindNextBit bitmap sb.clustersPerGroup first) := by
  have lt := padded.bound free
  obtain ⟨low, high, before, hit⟩ := mbFindNext_spec bitmap (Nat.le_of_lt lt)
  rw [mbFindNextBit]
  generalize mbFindNext bitmap sb.clustersPerGroup first = fin at *
  have used : bitmap fin = true := by
    by_cases inside : fin < sb.clustersPerGroup
    · exact hit inside
    · exact padded.padding fin (by omega)
  have ne : first ≠ fin := by
    rintro rfl
    simp [free] at used
  obtain ⟨zlow, zhigh, zbefore, zhit⟩ := mbFindNextZeroBit_spec bitmap high
  generalize mbFindNextZeroBit bitmap sb.clustersPerGroup fin = next at *
  split
  next inside =>
    refine ⟨by omega, before, by simp [used], zlow, fun b hb hb' => ?_, fun lt => ⟨?_, ?_⟩, zhigh⟩
    · simp [zbefore b hb hb']
    · exact zhit lt
    by_cases same : next = fin
    · have := zhit lt
      simp [same, used] at this
    · simp [zbefore (next - 1) (by omega) (by omega)]
  next out =>
    exact ⟨by omega, before, by simp [used], Nat.le_refl _, fun b hb hb' => absurd hb' (by omega),
      fun lt => absurd lt out, high⟩

theorem Rebuilt.bitmap {grp' : BuddyGroup} (rebuilt : Rebuilt grp grp') :
    grp'.bitmap = grp.bitmap := by
  rw [rebuilt]

theorem Padded.upto_all {bitmap : Nat → Bool} (padded : Padded sb bitmap)
    {top : Nat} (k i : Nat) : Maximal top (fun b => bitmap b = false) k i ↔
      Upto top (fun b => bitmap b = false) sb.clustersPerGroup k i := by
  constructor
  · intro tile
    refine ⟨tile, ?_⟩
    have pos := Nat.two_pow_pos k
    have size := succ_mul_two_pow i k
    have := padded.bound (tile.2.1 ((i + 1) * 2 ^ k - 1) (div_eq_iff_range.mpr (by omega)))
    omega
  · exact fun h => h.1

section
variable {cpg fin next : Nat} (run : RunAt f cpg first fin next)
include run

theorem RunAt.count_free (le : cpg ≤ n) :
    count n (fun b => f b ∧ b < next) = count n (fun b => f b ∧ b < first) + (fin - first) := by
  have lt := run.lt
  have := run.le
  have := run.inside
  rw [← count_union (a := first) (by omega) (fun b low _ h => by omega)]
  refine count_congr fun b _ => ⟨?_, ?_⟩
  · rintro ⟨free, high⟩
    by_cases before : b < first
    · exact .inr ⟨free, before⟩
    by_contra ge
    exact run.used b (by omega) high free
  · rintro (⟨low, high⟩ | ⟨free, high⟩)
    · exact ⟨run.free b low (by omega), by omega⟩
    · exact ⟨free, by omega⟩

theorem RunAt.count_start (start : first = 0 ∨ ¬ f (first - 1)) (le : cpg ≤ n) :
    count n (fun b => RunStart f b ∧ b < next) =
      count n (fun b => RunStart f b ∧ b < first) + 1 := by
  have lt := run.lt
  have := run.le
  have := run.inside
  rw [← count_insert (by omega) (fun h => Nat.lt_irrefl _ h.2)]
  refine count_congr fun b _ => ⟨?_, ?_⟩
  · rintro ⟨⟨free, edge⟩, high⟩
    by_cases before : b < first
    · exact .inr ⟨⟨free, edge⟩, before⟩
    by_contra ne
    by_cases inRun : b < fin
    · exact edge.elim (by omega) fun used => used (run.free (b - 1) (by omega) (by omega))
    · exact run.used b (by omega) high free
  · rintro (rfl | ⟨edge, high⟩)
    · exact ⟨⟨run.free b (Nat.le_refl b) lt, start⟩, by omega⟩
    · exact ⟨edge, by omega⟩

theorem RunAt.single (one : ¬ fin - first > 1) (sb : Ext4Sb) : ChunkAt sb first (fin - first) 0 := by
  have := run.lt
  refine ⟨by omega, ⟨first, by simp⟩, by simp; omega, fun _ h => ?_⟩
  omega

end

theorem generateRound (padded : Padded sb grp.bitmap) {fin next : Nat}
    (run : RunAt grp.Free sb.clustersPerGroup first fin next)
    (start : first = 0 ∨ ¬ grp.Free (first - 1))
    (shows : Shows sb.bits grp (Upto (sb.blkbits + 1) grp.Free first)) :
    (fin - first > 1 ∧ MisledRun sb first (fin - first) ∧
      ext4MbMarkFreeSimple sb grp first (fin - first) = none) ∨
    (fin - first > 1 → ¬ MisledRun sb first (fin - first)) ∧ ∃ grp',
      (if fin - first > 1 then ext4MbMarkFreeSimple sb grp first (fin - first)
        else some (grp.addCounter 0 1)) = some grp' ∧ Rebuilt grp grp' ∧
      Shows sb.bits grp' (Upto (sb.blkbits + 1) grp.Free next) := by
  have lt := run.lt
  have le := padded.le
  have behind := run.le
  have inside := run.inside
  have boundary := boundary_start (sb.blkbits + 1) start
  have sum : first + (fin - first) = fin := by omega
  have stop : ¬ grp.Free (first + (fin - first)) := by rw [sum]; exact run.stop
  have runs : ∀ b, first ≤ b → b < first + (fin - first) → grp.Free b :=
    fun b low high => run.free b low (by omega)
  by_cases many : fin - first > 1
  · have inBits : first + (fin - first) ≤ sb.bits := by omega
    have spec := markFreeLoop_takes (fin - first) grp inBits (Nat.le_refl _)
    have simple : ext4MbMarkFreeSimple sb grp first (fin - first) =
        markFreeLoop sb (fin - first) grp first (fin - first) := by
      rw [ext4MbMarkFreeSimple, if_neg (by omega)]
    by_cases misled : MisledRun sb first (fin - first)
    · exact .inl ⟨many, misled, simple.trans (spec.1 misled)⟩
    obtain ⟨chunks, takes, res⟩ := spec.2 misled
    obtain ⟨rebuilt, after⟩ := takes.shows shows boundary runs stop inBits
    rw [sum] at after
    refine .inr ⟨fun _ => misled, _, ?_, rebuilt, ?_⟩
    · rw [if_pos many, simple, res]
    · exact after.congr rfl rfl (upto_skip run.le run.used)
  refine .inr ⟨fun h => absurd h many, grp.addCounter 0 1, if_neg many,
    rebuilt_addCounter grp 0 1, ?_⟩
  have chunk := run.single many sb
  have tile := chunk.maximal boundary runs stop
  obtain ⟨_, upto⟩ := upto_chunk chunk.aligned boundary tile
  have fresh : ¬ Upto (sb.blkbits + 1) grp.Free first 0 (first / 2 ^ 0) := by
    rintro ⟨_, high⟩
    omega
  have after := shows.recordChunk first 0 (by simp; omega) fresh
  have next : fin = first + 2 ^ 0 := by rw [Nat.pow_zero]; omega
  refine (after.congr rfl rfl upto).congr rfl rfl ?_
  rw [← next]
  exact upto_skip run.le run.used

/-- At the end of the group nothing is left to be misled by. -/
theorem Padded.not_misledFrom {bitmap : Nat → Bool} (padded : Padded sb bitmap)
    (fin : sb.clustersPerGroup ≤ first) : ¬ MisledFrom sb (fun b => bitmap b = false) first := by
  have half := bits_eq sb
  have pos := Nat.two_pow_pos (sb.blkbits + 2)
  rintro ⟨_, ⟨zero, free, _⟩ | ⟨low, all⟩⟩
  · have := padded.bound free
    omega
  · have := padded.bound (all (2 ^ (sb.blkbits + 2)) (Nat.le_refl _) (by omega))
    omega

theorem Padded.count_below {bitmap : Nat → Bool} (padded : Padded sb bitmap)
    (free : ∀ b, p b → bitmap b = false) (n : Nat) :
    count n (fun b => p b ∧ b < sb.clustersPerGroup) = count n p :=
  count_congr fun b _ => ⟨fun h => h.1, fun h => ⟨h, padded.bound (free b h)⟩⟩

theorem generateLoop_spec {fuel : Nat} {grp : BuddyGroup} {first : Nat}
    (padded : Padded sb grp.bitmap)
    (shows : Shows sb.bits grp (Upto (sb.blkbits + 1) grp.Free first))
    (start : first < sb.clustersPerGroup → RunStart grp.Free first)
    (inside : first ≤ sb.clustersPerGroup) (enough : sb.clustersPerGroup - first ≤ fuel) :
    (MisledFrom sb grp.Free first → generateLoop sb fuel grp first
      (count sb.bits fun b => grp.Free b ∧ b < first)
      (count sb.bits fun b => RunStart grp.Free b ∧ b < first) = none) ∧
    (¬ MisledFrom sb grp.Free first → ∃ grp', generateLoop sb fuel grp first
      (count sb.bits fun b => grp.Free b ∧ b < first)
      (count sb.bits fun b => RunStart grp.Free b ∧ b < first) =
        some (grp', count sb.bits grp.Free, count sb.bits (RunStart grp.Free)) ∧
      Rebuilt grp grp' ∧ Shows sb.bits grp' (Maximal (sb.blkbits + 1) grp.Free)) := by
  induction fuel generalizing grp first with
  | zero =>
    obtain rfl : first = sb.clustersPerGroup := by omega
    refine ⟨fun misled => absurd misled (padded.not_misledFrom (Nat.le_refl _)),
      fun _ => ⟨grp, ?_, .refl grp, shows.congr rfl rfl padded.upto_all⟩⟩
    rw [generateLoop, padded.count_below (fun _ h => h), padded.count_below (fun _ h => h.1)]
  | succ fuel ih =>
    by_cases lt : first < sb.clustersPerGroup
    · obtain ⟨free, edge⟩ := start lt
      have run := runAt_find padded free
      rw [generateLoop, if_pos lt]
      dsimp only
      generalize mbFindNextBit grp.bitmap sb.clustersPerGroup first = fin at run ⊢
      rcases generateRound padded run edge shows with ⟨many, misled, failed⟩ | ⟨ok, grp', res,
        rebuilt, after⟩
      · rw [if_pos many, failed]
        exact ⟨fun _ => rfl, fun good => absurd (misled.misledFrom run many) good⟩
      rw [res]
      dsimp only
      rw [rebuilt.bitmap, ← run.count_free padded.le, ← run.count_start edge padded.le,
        ← run.misledFrom ok]
      generalize (if fin < sb.clustersPerGroup then
        mbFindNextZeroBit grp.bitmap sb.clustersPerGroup fin else fin) = next at *
      have behind := run.le
      have long := run.lt
      have same : grp'.Free = grp.Free := by
        funext b
        rw [BuddyGroup.Free, rebuilt.bitmap]
      have later := @ih grp' next
      rw [same, rebuilt.bitmap] at later
      obtain ⟨fails, works⟩ := later padded after
        (fun lt => ⟨(run.reached lt).1, .inr (run.reached lt).2⟩) run.inside (by omega)
      refine ⟨fails, fun good => ?_⟩
      obtain ⟨grp'', result', rebuilt', shows'⟩ := works good
      exact ⟨grp'', result', rebuilt.trans rebuilt', shows'⟩
    · obtain rfl : first = sb.clustersPerGroup := by omega
      refine ⟨fun misled => absurd misled (padded.not_misledFrom (Nat.le_refl _)),
        fun _ => ⟨grp, ?_, .refl grp, shows.congr rfl rfl padded.upto_all⟩⟩
      rw [generateLoop, if_neg lt, padded.count_below (fun _ h => h),
        padded.count_below (fun _ h => h.1)]

def BorderFails (sb : Ext4Sb) (f : Nat → Prop) : Prop :=
  sb.blkbits > 14 ∧
    (f 0 ∧ f 1 ∨ ∀ b, 2 ^ (sb.blkbits + 2) ≤ b → b < sb.bits → f b)

/-- The buddy and the counts are those of the bitmap. -/
structure Consistent (sb : Ext4Sb) (grp : BuddyGroup) : Prop where
  padded : Padded sb grp.bitmap
  shows : Shows sb.bits grp (Maximal (sb.blkbits + 1) grp.Free)
  free : grp.bbFree = count sb.bits grp.Free
  fragments : grp.bbFragments = count sb.bits (RunStart grp.Free)
  firstFree : ∀ b, grp.Free b → grp.bbFirstFree ≤ b
  largest : grp.bbLargestFreeOrder = largestFreeOrder grp.bbCounters (sb.blkbits + 1)

theorem Consistent.of_bitmap {bm : Nat → Bool} (bitmap : grp.bitmap = bm) (padded : Padded sb bm)
    (shows : Shows sb.bits grp (Maximal (sb.blkbits + 1) fun b => bm b = false))
    (free : grp.bbFree = count sb.bits fun b => bm b = false)
    (fragments : grp.bbFragments = count sb.bits (RunStart fun b => bm b = false))
    (firstFree : ∀ b, bm b = false → grp.bbFirstFree ≤ b)
    (largest : grp.bbLargestFreeOrder = largestFreeOrder grp.bbCounters (sb.blkbits + 1)) :
    Consistent sb grp := by
  subst bitmap
  exact ⟨padded, shows, free, fragments, firstFree, largest⟩

/-- The bitmap determines a consistent group, up to its hint and its flag. -/
theorem Consistent.unique {a b : BuddyGroup} (ha : Consistent sb a)
    (hb : Consistent sb b) (same : b.bitmap = a.bitmap) :
    b = { a with bbFirstFree := b.bbFirstFree, corrupt := b.corrupt } := by
  have free : b.Free = a.Free := by
    funext i
    rw [BuddyGroup.Free, same]
  obtain ⟨buddy, counters⟩ := ha.shows.unique (free ▸ hb.shows)
  have bbFree := hb.free
  have fragments := hb.fragments
  have largest := hb.largest
  rw [free, ← ha.free] at bbFree
  rw [free, ← ha.fragments] at fragments
  rw [counters, ← ha.largest] at largest
  cases b
  simp_all

/-- The first free block that the search finds. -/
theorem mbFindNextZeroBit_le (sb : Ext4Sb) {bitmap : Nat → Bool} (free : bitmap b = false) :
    mbFindNextZeroBit bitmap sb.clustersPerGroup 0 ≤ b := by
  obtain ⟨_, _, before, _⟩ := mbFindNextZeroBit_spec bitmap (Nat.zero_le sb.clustersPerGroup)
  by_contra lt
  have := before b (by omega) (by omega)
  simp [this] at free

theorem borderFails_iff (sb : Ext4Sb) (bitmap : Nat → Bool) :
    MisledFrom sb (fun b => bitmap b = false) (mbFindNextZeroBit bitmap sb.clustersPerGroup 0) ↔
      BorderFails sb fun b => bitmap b = false := by
  have half := bits_eq sb
  have pos := Nat.two_pow_pos (sb.blkbits + 2)
  constructor
  · rintro ⟨large, ⟨_, both⟩ | ⟨_, all⟩⟩
    · exact ⟨large, .inl both⟩
    · exact ⟨large, .inr all⟩
  rintro ⟨large, both | all⟩
  · have := mbFindNextZeroBit_le sb both.1
    exact ⟨large, .inl ⟨by omega, both⟩⟩
  · exact ⟨large, .inr ⟨mbFindNextZeroBit_le sb (all _ (Nat.le_refl _) (by omega)), all⟩⟩

/-- Below the first free block there is nothing to count. -/
theorem count_below_firstFree (sb : Ext4Sb) {bitmap : Nat → Bool}
    (free : ∀ b, p b → bitmap b = false) (n : Nat) :
    count n (fun b => p b ∧ b < mbFindNextZeroBit bitmap sb.clustersPerGroup 0) = 0 := by
  refine (count_congr fun b _ => iff_false_intro ?_).trans (count_false n)
  rintro ⟨mem, below⟩
  have := mbFindNextZeroBit_le sb (free b mem)
  omega

theorem ext4MbGenerateBuddy_spec {grp : BuddyGroup} (padded : Padded sb grp.bitmap)
    (empty : Shows sb.bits grp fun _ _ => False) :
    (BorderFails sb grp.Free → ext4MbGenerateBuddy sb grp = none) ∧
    (¬ BorderFails sb grp.Free → ∃ grp', ext4MbGenerateBuddy sb grp = some grp' ∧
      Consistent sb grp' ∧ grp'.bitmap = grp.bitmap ∧
      grp'.bbFirstFree = mbFindNextZeroBit grp.bitmap sb.clustersPerGroup 0 ∧
      (grp'.corrupt = true ↔ grp.corrupt = true ∨ grp.bbFree ≠ count sb.bits grp.Free)) := by
  obtain ⟨_, inside, _, hit⟩ := mbFindNextZeroBit_spec grp.bitmap (Nat.zero_le sb.clustersPerGroup)
  have nothing (k i : Nat) : Upto (sb.blkbits + 1) grp.Free
      (mbFindNextZeroBit grp.bitmap sb.clustersPerGroup 0) k i ↔ False := by
    refine iff_false_intro ?_
    rintro ⟨tile, high⟩
    have := mbFindNextZeroBit_le sb tile.2.1.first
    have := succ_mul_two_pow i k
    have := Nat.two_pow_pos k
    omega
  have start (lt : mbFindNextZeroBit grp.bitmap sb.clustersPerGroup 0 < sb.clustersPerGroup) :
      RunStart grp.Free (mbFindNextZeroBit grp.bitmap sb.clustersPerGroup 0) := by
    refine ⟨hit lt, ?_⟩
    by_contra edge
    have := mbFindNextZeroBit_le sb (not_not.mp (not_or.mp edge).2)
    omega
  have spec := @generateLoop_spec sb sb.clustersPerGroup
    { grp with bbFirstFree := mbFindNextZeroBit grp.bitmap sb.clustersPerGroup 0 }
    (mbFindNextZeroBit grp.bitmap sb.clustersPerGroup 0) padded
    (empty.congr rfl rfl nothing) start inside (by omega)
  rw [borderFails_iff, count_below_firstFree sb (fun _ h => h),
    count_below_firstFree sb (fun _ h => h.1)] at spec
  unfold ext4MbGenerateBuddy
  dsimp only
  refine ⟨fun fails => ?_, fun good => ?_⟩
  · rw [spec.1 fails]
  obtain ⟨grp', res, rebuilt, shows⟩ := spec.2 good
  have bitmap : grp'.bitmap = grp.bitmap := rebuilt.bitmap
  have first : grp'.bbFirstFree = mbFindNextZeroBit grp.bitmap sb.clustersPerGroup 0 := by
    rw [rebuilt]
  have same : grp'.bbFree = grp.bbFree := by rw [rebuilt]
  have flag : grp'.corrupt = grp.corrupt := by rw [rebuilt]
  have hint (b : Nat) (free : grp'.bitmap b = false) : grp'.bbFirstFree ≤ b := by
    rw [first]
    exact mbFindNextZeroBit_le sb (bitmap ▸ free)
  have free : grp.Free = grp'.Free := by
    funext b
    rw [BuddyGroup.Free, BuddyGroup.Free, bitmap]
  rw [res]
  dsimp only
  rw [← bitmap] at padded
  rw [same]
  rw [free] at shows ⊢
  split
  next wrong =>
    exact ⟨_, rfl, ⟨padded, shows.congr rfl rfl fun _ _ => Iff.rfl, rfl, rfl, hint, rfl⟩, bitmap,
      first, iff_of_true rfl (.inr fun equal => wrong equal.symm)⟩
  next right =>
    have equal : grp.bbFree = count sb.bits grp'.Free := by simpa [eq_comm] using right
    refine ⟨_, rfl, ⟨padded, shows.congr rfl rfl fun _ _ => Iff.rfl, equal, rfl, hint,
      rfl⟩, bitmap, first, ?_⟩
    rw [flag]
    exact ⟨.inl, fun h => h.resolve_right fun ne => ne equal⟩

theorem resetBuddy_shows (padded : Padded sb grp.bitmap)
    (shows : Shows sb.bits grp (Maximal (sb.blkbits + 1) grp.Free)) :
    Shows sb.bits (resetBuddy sb grp) fun _ _ => False where
  clear k i := by
    rw [and_false, iff_false, Bool.not_eq_false]
    have old := shows.clear k i
    simp only [resetBuddy]
    split_ifs with real
    · simp only [ext4SetBits_eq, sb.sMbMaxs_eq real.2]
      split
      · rfl
      next out =>
        by_contra clear
        obtain ⟨_, tile⟩ := old.mp (by simpa using clear)
        obtain ⟨_, high⟩ := padded.upto_all k i |>.mp tile
        exact out ⟨Nat.zero_le i, by
          rw [Nat.zero_add]
          exact tile_index_lt real.2 (high.trans padded.le)⟩
    · by_contra clear
      obtain ⟨pos, tile⟩ := old.mp (by simpa using clear)
      exact real ⟨pos, tile.1⟩
  counted k := by
    rw [count_false]
    show (if k < sb.blkbits + 2 then 0 else grp.bbCounters k) = _
    split
    · rfl
    next large =>
      rw [shows.counted, count_congr, count_false]
      exact fun i _ => iff_false_intro fun tile => large (by have := tile.1; omega)

/-- Building a consistent group anew changes nothing, or goes wrong. -/
theorem Consistent.regenerate (consistent : Consistent sb grp) :
    (BorderFails sb grp.Free → mbRegenerateBuddy sb grp = none) ∧
    (¬ BorderFails sb grp.Free → mbRegenerateBuddy sb grp =
      some { grp with bbFirstFree := mbFindNextZeroBit grp.bitmap sb.clustersPerGroup 0 }) := by
  have empty := resetBuddy_shows consistent.padded consistent.shows
  obtain ⟨fails, works⟩ := @ext4MbGenerateBuddy_spec sb (resetBuddy sb grp) consistent.padded empty
  refine ⟨fails, fun good => ?_⟩
  obtain ⟨grp', res, built, bitmap, first, corrupt⟩ := works good
  have flag : grp'.corrupt = grp.corrupt := by
    have same : (resetBuddy sb grp).bbFree = count sb.bits (resetBuddy sb grp).Free :=
      consistent.free
    rw [same] at corrupt
    have unchanged : grp'.corrupt = (resetBuddy sb grp).corrupt := by simpa using corrupt
    exact unchanged
  rw [mbRegenerateBuddy, res, consistent.unique built bitmap, first, flag]
  rfl

theorem initGroup_generate {bitmap : Nat → Bool} (padded : Padded sb bitmap) (bbFree : Int) :
    (BorderFails sb (fun b => bitmap b = false) →
      ext4MbGenerateBuddy sb (initGroup bitmap bbFree) = none) ∧
    (¬ BorderFails sb (fun b => bitmap b = false) → ∃ grp,
      ext4MbGenerateBuddy sb (initGroup bitmap bbFree) = some grp ∧ Consistent sb grp ∧
      grp.bitmap = bitmap ∧
      (grp.corrupt = true ↔ bbFree ≠ count sb.bits fun b => bitmap b = false)) := by
  have empty : Shows sb.bits (initGroup bitmap bbFree) fun _ _ => False :=
    ⟨fun k i => by simp [initGroup], fun k => by rw [count_false]; rfl⟩
  obtain ⟨fails, works⟩ := @ext4MbGenerateBuddy_spec sb (initGroup bitmap bbFree) padded empty
  refine ⟨fails, fun good => ?_⟩
  obtain ⟨grp, res, built, same, _, corrupt⟩ := works good
  exact ⟨grp, res, built, same, corrupt.trans (by simp [initGroup])⟩

end Linux318.Source.Fs
