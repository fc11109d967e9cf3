import Linux318.Lib.Buddy
import Linux318.Source.Fs.Ext4Buddy

/-!
# The buddy as a decomposition of the free blocks

Source: fs/ext4/mballoc.c:663-795. The clear bits of the orders from 1 on, with the rest of
the free blocks as chunks of order 0, cut the free blocks into chunks. Building the buddy
from scratch gives the maximal chunks, as long as `border` is not truncated to 0.
-/
namespace Linux318.Source.Fs
open Lib.Buddy

variable {f : Nat → Prop} {sb : Ext4Sb} {order first len top : Nat} {s : Tiling}

namespace Ext4Sb

abbrev bits (sb : Ext4Sb) : Nat := 2 ^ (sb.blkbits + 3)

theorem sMbMaxs_eq (sb : Ext4Sb) (le : order ≤ sb.blkbits + 1) :
    sb.sMbMaxs order = 2 ^ (sb.blkbits + 3 - order) := by
  unfold sMbMaxs
  split
  next zero =>
    subst zero
    rw [Nat.shiftLeft_eq, ← Nat.pow_add]
    rfl
  next positive =>
    rw [Nat.shiftLeft_eq, Nat.shiftRight_eq_div_pow, ← Nat.pow_add,
      Nat.pow_div (by omega) (by decide)]
    congr 1
    omega

theorem shiftLeft_three (sb : Ext4Sb) : 2 ^ sb.blkbits <<< 3 = sb.bits := by
  rw [Nat.shiftLeft_eq, ← Nat.pow_add]

end Ext4Sb

/-- The bitmaps and counters of a group stand for these chunks; `n` bounds their indices. -/
structure Shows (n : Nat) (grp : BuddyGroup) (s : Tiling) : Prop where
  clear : ∀ k i, grp.buddy k i = false ↔ 1 ≤ k ∧ s k i
  counted : ∀ k, grp.bbCounters k = count n (s k)

namespace BuddyGroup

section
variable (grp : BuddyGroup)
include grp

@[simp] theorem buddy_addCounter (order : Nat) (n : Int) :
    (grp.addCounter order n).buddy = grp.buddy := rfl

@[simp] theorem bitmap_addCounter (order : Nat) (n : Int) :
    (grp.addCounter order n).bitmap = grp.bitmap := rfl

@[simp] theorem bbCounters_setBuddy (order : Nat) (bm : Nat → Bool) :
    (grp.setBuddy order bm).bbCounters = grp.bbCounters := by
  unfold setBuddy
  split <;> rfl

theorem buddy_setBuddy (order o : Nat) (bm : Nat → Bool) :
    (grp.setBuddy order bm).buddy o = if order ≠ 0 ∧ o = order then bm else grp.buddy o := by
  unfold setBuddy
  by_cases zero : order = 0
  · simp [zero]
  · by_cases same : o = order <;> simp [zero]

theorem bitmap_setBuddy (order : Nat) (bm : Nat → Bool) :
    (grp.setBuddy order bm).bitmap = if order = 0 then bm else grp.bitmap := by
  unfold setBuddy
  split <;> rfl

end

end BuddyGroup

section
variable {n : Nat} {grp grp' : BuddyGroup}

theorem Shows.add (shows : Shows n grp s) {k i : Nat} (lt : i < n) (fresh : ¬ s k i)
    (buddy : ∀ l j, grp'.buddy l j = if 1 ≤ k ∧ l = k ∧ j = i then false else grp.buddy l j)
    (counters : ∀ l, grp'.bbCounters l = grp.bbCounters l + if l = k then 1 else 0) :
    Shows n grp' (withTile s k i) where
  clear l j := by
    rw [buddy, withTile]
    split
    next same => simp [same.1, same.2]
    next other =>
      rw [shows.clear]
      constructor
      · exact fun h => ⟨h.1, .inr h.2⟩
      rintro ⟨pos, same | tile⟩
      · exact absurd ⟨same.1 ▸ pos, same⟩ other
      · exact ⟨pos, tile⟩
  counted l := by
    rw [counters, shows.counted]
    by_cases same : l = k
    · subst same
      have := count_insert lt fresh
      rw [show count n (withTile s l i l) = count n (s l) + 1 by
        rw [← this]
        exact count_congr fun j _ => by simp [withTile]]
      simp
    · rw [if_neg same, show count n (withTile s k i l) = count n (s l) from
        count_congr fun j _ => by simp [withTile, same]]
      simp

theorem Shows.remove {s : Tiling} (shows : Shows n grp s) {k i : Nat} (lt : i < n) (tile : s k i)
    (buddy : ∀ l j, grp'.buddy l j = if 1 ≤ k ∧ l = k ∧ j = i then true else grp.buddy l j)
    (counters : ∀ l, grp'.bbCounters l = grp.bbCounters l - if l = k then 1 else 0) :
    Shows n grp' (withoutTile s k i) where
  clear l j := by
    rw [buddy, withoutTile]
    split
    next same => simp [same.2]
    next other =>
      rw [shows.clear]
      constructor
      · exact fun h => ⟨h.1, fun same => other ⟨same.1 ▸ h.1, same⟩, h.2⟩
      · exact fun h => ⟨h.1, h.2.2⟩
  counted l := by
    rw [counters, shows.counted]
    by_cases same : l = k
    · subst same
      have := count_erase lt tile
      rw [show count n (withoutTile s l i l) = count n (fun j => j ≠ i ∧ s l j) from
        count_congr fun j _ => by simp [withoutTile]]
      omega
    · rw [if_neg same, show count n (withoutTile s k i l) = count n (s l) from
        count_congr fun j _ => by simp [withoutTile, same]]
      simp

theorem Shows.congr {t : Tiling} (shows : Shows n grp s) (buddy : grp'.buddy = grp.buddy)
    (counters : grp'.bbCounters = grp.bbCounters) (same : ∀ k i, t k i ↔ s k i) :
    Shows n grp' t where
  clear k i := by rw [buddy, shows.clear, same]
  counted k := by
    rw [counters, shows.counted]
    exact congrArg _ (count_congr fun i _ => (same k i).symm)

/-- Groups that stand for the same chunks agree in bitmaps and counters. -/
theorem Shows.unique (shows : Shows n grp s) (shows' : Shows n grp' s) :
    grp'.buddy = grp.buddy ∧ grp'.bbCounters = grp.bbCounters := by
  refine ⟨?_, ?_⟩
  · funext k i
    have := (shows'.clear k i).trans (shows.clear k i).symm
    cases h : grp'.buddy k i <;> cases h' : grp.buddy k i <;> simp_all
  · funext k
    rw [shows'.counted, shows.counted]

end

theorem dvd_two_pow_iff_testBit {x k : Nat} : 2 ^ k ∣ x ↔ ∀ j < k, x.testBit j = false := by
  rw [Nat.dvd_iff_mod_eq_zero]
  constructor
  · intro zero j lt
    have := congrArg (Nat.testBit · j) zero
    simpa [lt] using this
  intro clear
  apply Nat.eq_of_testBit_eq
  intro j
  by_cases lt : j < k
  · simp [clear j lt]
  · simp [lt]

/-- `ffs` finds the largest power of two that divides. -/
theorem ffs_spec {x : Nat} (pos : x ≠ 0) : ∃ m, ffs x = m + 1 ∧ 2 ^ m ∣ x ∧ ¬ 2 ^ (m + 1) ∣ x := by
  induction x using Nat.strongRecOn with
  | ind x ih =>
    rw [ffs, if_neg pos]
    split
    next odd => exact ⟨0, rfl, Nat.one_dvd x, by rw [Nat.pow_one]; omega⟩
    next even =>
      obtain ⟨y, rfl⟩ : ∃ y, x = 2 * y := ⟨x / 2, by omega⟩
      rw [Nat.mul_div_cancel_left y (by decide)]
      obtain ⟨m, eq, dvd, max⟩ := ih y (by omega) (by omega)
      refine ⟨m + 1, by rw [eq], ?_, ?_⟩
      · rw [Nat.pow_succ, Nat.mul_comm]
        exact Nat.mul_dvd_mul_left 2 dvd
      · rw [Nat.pow_succ, Nat.mul_comm]
        exact fun h => max (Nat.dvd_of_mul_dvd_mul_left (by decide) h)

theorem dvd_or_two_pow {a k t : Nat} : 2 ^ k ∣ a ||| 2 ^ t ↔ 2 ^ k ∣ a ∧ k ≤ t := by
  rw [dvd_two_pow_iff_testBit, dvd_two_pow_iff_testBit]
  simp only [Nat.testBit_or, Nat.testBit_two_pow, Bool.or_eq_false_iff, decide_eq_false_iff_not]
  constructor
  · intro h
    refine ⟨fun j lt => (h j lt).1, ?_⟩
    by_contra gt
    exact (h t (by omega)).2 rfl
  · rintro ⟨clear, le⟩ j lt
    exact ⟨clear j lt, by omega⟩

theorem border_eq (sb : Ext4Sb) : border sb = if sb.blkbits ≤ 14 then 2 ^ (sb.blkbits + 1) else 0 := by
  have pow : 2 <<< sb.blkbits = 2 ^ (sb.blkbits + 1) := by
    rw [Nat.shiftLeft_eq, Nat.pow_succ, Nat.mul_comm]
  rw [border, pow]
  split
  next small => exact Nat.mod_eq_of_lt (Nat.pow_lt_pow_right (by decide) (by omega))
  next large => exact Nat.mod_eq_zero_of_dvd (Nat.pow_dvd_pow 2 (by omega))

/-- What one round of `ext4_mb_mark_free_simple` may take: the largest chunk that is
aligned at `first`, not longer than `len` and of an order that exists. -/
structure ChunkAt (sb : Ext4Sb) (first len order : Nat) : Prop where
  le : order ≤ sb.blkbits + 1
  aligned : 2 ^ order ∣ first
  fits : 2 ^ order ≤ len
  largest : order < sb.blkbits + 1 → ¬ (2 ^ (order + 1) ∣ first ∧ 2 ^ (order + 1) ≤ len)

/-- Where a truncated `border` misleads the loop: at block 0, and where a chunk of twice the
largest size is free. -/
def Misled (sb : Ext4Sb) (first len : Nat) : Prop :=
  sb.blkbits > 14 ∧ (first = 0 ∨ 2 ^ (sb.blkbits + 2) ∣ first ∧ 2 ^ (sb.blkbits + 2) ≤ len)

theorem le_log2_iff {k : Nat} (pos : len ≠ 0) : k ≤ fls len - 1 ↔ 2 ^ k ≤ len := by
  rw [fls, if_neg pos, Nat.add_sub_cancel, Nat.le_log2 pos]

theorem chunk_cases (sb : Ext4Sb) (first : Nat) (pos : len ≠ 0) :
    (∃ max, ffs (first ||| border sb) = max + 1 ∧
      ChunkAt sb first len (Nat.min max (fls len - 1)) ∧ ¬ Misled sb first len) ∨
    (Misled sb first len ∧ (ffs (first ||| border sb) = 0 ∨ ∃ max,
      ffs (first ||| border sb) = max + 1 ∧ Nat.min max (fls len - 1) > sb.blkbits + 1)) := by
  have minLe {max k : Nat} : k ≤ Nat.min max (fls len - 1) ↔ k ≤ max ∧ 2 ^ k ≤ len := by
    rw [← le_log2_iff pos]
    exact Nat.le_min
  have dvdLe {x m : Nat} (dvd : 2 ^ m ∣ x) (max : ¬ 2 ^ (m + 1) ∣ x) (k : Nat) :
      k ≤ m ↔ 2 ^ k ∣ x := by
    constructor
    · exact fun le => (Nat.pow_dvd_pow 2 le).trans dvd
    intro h
    by_contra gt
    exact max ((Nat.pow_dvd_pow 2 (by omega)).trans h)
  rw [border_eq]
  by_cases small : sb.blkbits ≤ 14
  · -- the border caps the order at the largest one
    rw [if_pos small]
    obtain ⟨m, eq, dvd, max⟩ := ffs_spec (x := first ||| 2 ^ (sb.blkbits + 1)) (by
      intro zero
      have := congrArg (Nat.testBit · (sb.blkbits + 1)) zero
      simp at this)
    refine .inl ⟨m, eq, ⟨?_, ?_, ?_, ?_⟩, fun misled => absurd misled.1 (by omega)⟩
    · have := (dvdLe dvd max _).mp (minLe.mp (Nat.le_refl (Nat.min m (fls len - 1)))).1
      exact (dvd_or_two_pow.mp this).2
    · have := (dvdLe dvd max _).mp (minLe.mp (Nat.le_refl (Nat.min m (fls len - 1)))).1
      exact (dvd_or_two_pow.mp this).1
    · exact (minLe.mp (Nat.le_refl _)).2
    · rintro lt ⟨aligned, fits⟩
      have := minLe.mpr ⟨(dvdLe dvd max _).mpr (dvd_or_two_pow.mpr ⟨aligned, lt⟩), fits⟩
      omega
  rw [if_neg small, Nat.or_zero]
  by_cases zero : first = 0
  · exact .inr ⟨⟨by omega, .inl zero⟩, .inl (by rw [zero, ffs]; rfl)⟩
  obtain ⟨m, eq, dvd, max⟩ := ffs_spec zero
  by_cases tooBig : 2 ^ (sb.blkbits + 2) ∣ first ∧ 2 ^ (sb.blkbits + 2) ≤ len
  · refine .inr ⟨⟨by omega, .inr tooBig⟩, .inr ⟨m, eq, ?_⟩⟩
    exact minLe.mpr ⟨(dvdLe dvd max _).mpr tooBig.1, tooBig.2⟩
  refine .inl ⟨m, eq, ⟨?_, ?_, ?_, ?_⟩, ?_⟩
  · by_contra gt
    have := minLe.mp (show sb.blkbits + 2 ≤ Nat.min m (fls len - 1) by omega)
    exact tooBig ⟨(dvdLe dvd max _).mp this.1, this.2⟩
  · exact (dvdLe dvd max _).mp (minLe.mp (Nat.le_refl _)).1
  · exact (minLe.mp (Nat.le_refl _)).2
  · rintro _ ⟨aligned, fits⟩
    have := minLe.mpr ⟨(dvdLe dvd max _).mpr aligned, fits⟩
    omega
  · rintro ⟨_, h | h⟩
    · exact zero h
    · exact tooBig h

def Upto (top : Nat) (f : Nat → Prop) (p : Nat) : Tiling :=
  fun k i => Maximal top f k i ∧ (i + 1) * 2 ^ k ≤ p

def Boundary (top : Nat) (f : Nat → Prop) (p : Nat) : Prop :=
  ∀ k i, Maximal top f k i → (i + 1) * 2 ^ k ≤ p ∨ p ≤ i * 2 ^ k

theorem succ_mul_two_pow (i k : Nat) : (i + 1) * 2 ^ k = i * 2 ^ k + 2 ^ k := by
  rw [Nat.add_mul, Nat.one_mul]

/-- The bitmap of an order has a bit for every chunk that ends inside the block. -/
theorem tile_index_lt {k i : Nat} (le : k ≤ sb.blkbits + 1)
    (fin : (i + 1) * 2 ^ k ≤ sb.bits) : i < 2 ^ (sb.blkbits + 3 - k) := by
  have whole : sb.bits = 2 ^ (sb.blkbits + 3 - k) * 2 ^ k := by
    rw [← Nat.pow_add, Nat.sub_add_cancel (by omega)]
  rw [whole] at fin
  exact Nat.le_of_mul_le_mul_right fin (Nat.two_pow_pos k)

theorem boundary_start (top : Nat) {p : Nat} (start : p = 0 ∨ ¬ f (p - 1)) : Boundary top f p := by
  intro k i tile
  by_contra across
  rcases start with rfl | used
  · omega
  · exact used (tile.2.1 (p - 1) (div_eq_iff_range.mpr (by omega)))

/-- Nothing is added while only used blocks are passed. -/
theorem upto_skip {p p' : Nat} (le : p ≤ p') (used : ∀ b, p ≤ b → b < p' → ¬ f b) (k i : Nat) :
    Upto top f p' k i ↔ Upto top f p k i := by
  constructor
  · rintro ⟨tile, fin⟩
    refine ⟨tile, ?_⟩
    by_contra gt
    have pos := Nat.two_pow_pos k
    have size := succ_mul_two_pow i k
    exact used ((i + 1) * 2 ^ k - 1) (by omega) (by omega)
      (tile.2.1 _ (div_eq_iff_range.mpr (by omega)))
  · exact fun h => ⟨h.1, h.2.trans le⟩

theorem div_mul_two_pow (aligned : 2 ^ order ∣ first) : first / 2 ^ order * 2 ^ order = first :=
    Nat.div_mul_cancel aligned

theorem ChunkAt.maximal (chunk : ChunkAt sb first len order)
    (boundary : Boundary (sb.blkbits + 1) f first) (run : ∀ b, first ≤ b → b < first + len → f b)
    (stop : ¬ f (first + len)) : Maximal (sb.blkbits + 1) f order (first / 2 ^ order) := by
  have pos := Nat.two_pow_pos order
  have fits := chunk.fits
  obtain ⟨k, tile⟩ := exists_maximal (sb.blkbits + 1) (run first (by omega) (by omega))
  obtain ⟨low, high⟩ := div_eq_iff_range.mp (rfl : first / 2 ^ k = first / 2 ^ k)
  have start : first / 2 ^ k * 2 ^ k = first := by
    rcases boundary k _ tile with before | behind <;> omega
  have size := succ_mul_two_pow (first / 2 ^ k) k
  have short : 2 ^ k ≤ len := by
    by_contra long
    exact stop (tile.2.1 _ (div_eq_iff_range.mpr (by omega)))
  have inside : Inside f order (first / 2 ^ order) := by
    intro b hb
    have := div_eq_iff_range.mp hb
    have := succ_mul_two_pow (first / 2 ^ order) order
    rw [div_mul_two_pow chunk.aligned] at *
    exact run b (by omega) (by omega)
  rcases Nat.lt_trichotomy k order with lt | eq | gt
  · -- a larger chunk at the same place lies inside
    refine absurd ?_ (tile.2.2 (by have := chunk.le; omega))
    rw [← div_two_pow_succ]
    exact inside.shrink_le lt
  · exact eq ▸ tile
  · -- the loop would have taken a larger chunk
    have top := tile.1
    refine absurd ⟨?_, ?_⟩ (chunk.largest (by omega))
    · exact (Nat.pow_dvd_pow 2 gt).trans ⟨_, by rw [Nat.mul_comm]; exact start.symm⟩
    · exact (Nat.pow_le_pow_right (by decide) gt).trans short

theorem upto_chunk (aligned : 2 ^ order ∣ first) (boundary : Boundary top f first)
    (tile : Maximal top f order (first / 2 ^ order)) : Boundary top f (first + 2 ^ order) ∧ ∀ k i,
      Upto top f (first + 2 ^ order) k i ↔
        withTile (Upto top f first) order (first / 2 ^ order) k i := by
  have start := div_mul_two_pow aligned
  have fin := succ_mul_two_pow (first / 2 ^ order) order
  -- a maximal chunk that starts in the new one is the new one
  have same {k i : Nat} (other : Maximal top f k i) (low : first ≤ i * 2 ^ k)
      (high : i * 2 ^ k < first + 2 ^ order) : k = order ∧ i = first / 2 ^ order :=
    (tiles_maximal top f).eq other tile (first_div k i) (div_eq_iff_range.mpr (by rw [fin]; omega))
  refine ⟨fun k i other => ?_, fun k i => ⟨?_, ?_⟩⟩
  · rcases boundary k i other with before | behind
    · exact .inl (by omega)
    by_cases inside : i * 2 ^ k < first + 2 ^ order
    · obtain ⟨rfl, rfl⟩ := same other behind inside
      exact .inl (by omega)
    · exact .inr (by omega)
  · rintro ⟨other, high⟩
    rcases boundary k i other with before | behind
    · exact .inr ⟨other, before⟩
    have := Nat.two_pow_pos k
    have := succ_mul_two_pow i k
    exact .inl (same other behind (by omega))
  · rintro (⟨rfl, rfl⟩ | ⟨other, high⟩)
    · exact ⟨tile, by omega⟩
    · exact ⟨other, by omega⟩

/-- The group has another buddy and other counters, and nothing else changed. -/
def Rebuilt (grp grp' : BuddyGroup) : Prop :=
  grp' = { grp with buddy := grp'.buddy, bbCounters := grp'.bbCounters }

theorem Rebuilt.refl (grp : BuddyGroup) : Rebuilt grp grp := rfl

theorem Rebuilt.trans {a b c : BuddyGroup} (ab : Rebuilt a b) (bc : Rebuilt b c) : Rebuilt a c := by
  unfold Rebuilt at *
  rw [bc, ab]

theorem rebuilt_addCounter (grp : BuddyGroup) (order : Nat) (n : Int) :
    Rebuilt grp (grp.addCounter order n) := rfl

theorem rebuilt_setBuddy (grp : BuddyGroup) (pos : order ≠ 0) (bm : Nat → Bool) :
    Rebuilt grp (grp.setBuddy order bm) := by
  unfold Rebuilt BuddyGroup.setBuddy
  rw [if_neg pos]

def recordChunk (grp : BuddyGroup) (first min : Nat) : BuddyGroup :=
  let grp := grp.addCounter min 1
  if min > 0 then grp.setBuddy min (setBit (grp.buddyOf min) (first >>> min) false) else grp

theorem recordChunk_rebuilt (grp : BuddyGroup) (first min : Nat) :
    Rebuilt grp (recordChunk grp first min) := by
  unfold recordChunk
  split
  next pos => exact (rebuilt_addCounter grp min 1).trans (rebuilt_setBuddy _ (by omega) _)
  · exact rebuilt_addCounter grp min 1

theorem recordChunk_bbCounters (grp : BuddyGroup) (first min l : Nat) :
    (recordChunk grp first min).bbCounters l = grp.bbCounters l + if l = min then 1 else 0 := by
  have counters : (recordChunk grp first min).bbCounters = (grp.addCounter min 1).bbCounters := by
    unfold recordChunk
    split
    · exact BuddyGroup.bbCounters_setBuddy _ _ _
    · rfl
  rw [counters]
  show (if l = min then grp.bbCounters l + 1 else grp.bbCounters l) = _
  split <;> simp

theorem Shows.recordChunk {n : Nat} {grp : BuddyGroup} (shows : Shows n grp s) (first min : Nat)
    (lt : first / 2 ^ min < n) (fresh : ¬ s min (first / 2 ^ min)) :
    Shows n (recordChunk grp first min) (withTile s min (first / 2 ^ min)) := by
  refine shows.add lt fresh (fun l j => ?_) fun l => ?_
  · unfold Fs.recordChunk
    by_cases pos : min > 0
    · rw [if_pos pos, BuddyGroup.buddy_setBuddy, Nat.shiftRight_eq_div_pow]
      by_cases order : l = min
      · subst order
        have ne : l ≠ 0 := by omega
        rw [if_pos ⟨ne, rfl⟩]
        simp only [setBit, BuddyGroup.buddyOf, if_neg ne, BuddyGroup.buddy_addCounter]
        by_cases same : j = first / 2 ^ l
        · rw [if_pos same, if_pos ⟨pos, trivial, same⟩]
        · rw [if_neg same, if_neg (fun h => same h.2.2)]
      · rw [if_neg (fun h => order h.2), if_neg (fun h => order h.2.1)]
        rfl
    · rw [if_neg pos, if_neg (fun h => pos h.1)]
      rfl
  · exact recordChunk_bbCounters grp first min l

/-- A run of free blocks on which a truncated `border` misleads the loop. -/
def MisledRun (sb : Ext4Sb) (first len : Nat) : Prop :=
  sb.blkbits > 14 ∧ len ≠ 0 ∧
    (first = 0 ∨ first ≤ 2 ^ (sb.blkbits + 2) ∧ sb.bits ≤ first + len)

theorem add_le_of_dvd {a b c : Nat} (da : c ∣ a) (db : c ∣ b) (lt : a < b) : a + c ≤ b := by
  obtain ⟨x, rfl⟩ := da
  obtain ⟨y, rfl⟩ := db
  have := Nat.mul_le_mul_left c (show x + 1 ≤ y from Nat.lt_of_mul_lt_mul_left lt)
  rwa [Nat.mul_add, Nat.mul_one] at this

theorem bits_eq (sb : Ext4Sb) : sb.bits = 2 * 2 ^ (sb.blkbits + 2) := by
  rw [Ext4Sb.bits, Nat.pow_succ, Nat.mul_comm]

theorem Misled.run (misled : Misled sb first len) (pos : len ≠ 0) (le : first + len ≤ sb.bits) :
    MisledRun sb first len := by
  obtain ⟨large, zero | ⟨dvd, long⟩⟩ := misled
  · exact ⟨large, pos, .inl zero⟩
  refine ⟨large, pos, ?_⟩
  have half := bits_eq sb
  by_cases zero : first = 0
  · exact .inl zero
  · have := Nat.le_of_dvd (by omega) dvd
    exact .inr (by omega)

theorem ChunkAt.misledRun (chunk : ChunkAt sb first len order) (ok : ¬ Misled sb first len)
    (le : first + len ≤ sb.bits) :
    MisledRun sb (first + 2 ^ order) (len - 2 ^ order) ↔ MisledRun sb first len := by
  have half := bits_eq sb
  have pos := Nat.two_pow_pos order
  constructor
  · rintro ⟨large, left, zero | ⟨low, high⟩⟩
    · omega
    · exact ⟨large, by omega, .inr (by omega)⟩
  rintro ⟨large, left, zero | ⟨low, high⟩⟩
  · exact absurd ⟨large, .inl zero⟩ ok
  have below : first ≠ 2 ^ (sb.blkbits + 2) := by
    rintro rfl
    exact ok ⟨large, .inr ⟨dvd_rfl, by omega⟩⟩
  have step := add_le_of_dvd chunk.aligned
    (Nat.pow_dvd_pow 2 (show order ≤ sb.blkbits + 2 by have := chunk.le; omega))
    (by omega : first < 2 ^ (sb.blkbits + 2))
  exact ⟨large, by omega, .inr (by omega)⟩

/-- The chunks, each with its first block and its order, that the rounds take from a run. -/
inductive Takes (sb : Ext4Sb) : Nat → Nat → List (Nat × Nat) → Prop
  | nil (first : Nat) : Takes sb first 0 []
  | cons {first len order : Nat} {chunks : List (Nat × Nat)} (chunk : ChunkAt sb first len order)
      (later : Takes sb (first + 2 ^ order) (len - 2 ^ order) chunks) :
      Takes sb first len ((first, order) :: chunks)

def recordChunks (grp : BuddyGroup) (chunks : List (Nat × Nat)) : BuddyGroup :=
  chunks.foldl (fun grp c => recordChunk grp c.1 c.2) grp

/-- The loop records chunks that it takes from the run, unless it is misled. -/
theorem markFreeLoop_takes (fuel : Nat) (grp : BuddyGroup) {first len : Nat}
    (le : first + len ≤ sb.bits) (enough : len ≤ fuel) :
    (MisledRun sb first len → markFreeLoop sb fuel grp first len = none) ∧
    (¬ MisledRun sb first len → ∃ chunks, Takes sb first len chunks ∧
      markFreeLoop sb fuel grp first len = some (recordChunks grp chunks)) := by
  induction fuel generalizing grp first len with
  | zero =>
    obtain rfl : len = 0 := by omega
    exact ⟨fun misled => absurd rfl misled.2.1, fun _ => ⟨[], .nil first, rfl⟩⟩
  | succ fuel ih =>
    by_cases pos : len = 0
    · subst pos
      refine ⟨fun misled => absurd rfl misled.2.1, fun _ => ⟨[], .nil first, ?_⟩⟩
      rfl
    rw [markFreeLoop, if_pos (by omega)]
    rcases chunk_cases sb first pos with ⟨max, eq, chunk, ok⟩ | ⟨misled, bad⟩
    · simp only [eq]
      rw [if_neg (by have := chunk.le; omega)]
      generalize Nat.min max (fls len - 1) = order at chunk
      have fits := chunk.fits
      have pow := Nat.two_pow_pos order
      have later := @ih (recordChunk grp first order) (first + 2 ^ order) (len - 2 ^ order)
        (by omega) (by omega)
      rw [chunk.misledRun ok le] at later
      refine ⟨later.1, fun good => ?_⟩
      obtain ⟨chunks, takes, res⟩ := later.2 good
      exact ⟨_, .cons chunk takes, res⟩
    · refine ⟨fun _ => ?_, fun good => absurd (misled.run pos le) good⟩
      rcases bad with zero | ⟨max, eq, large⟩
      · simp only [zero]
      · simp only [eq]
        rw [if_pos (by omega)]

/-- The chunks of a whole run of free blocks are the maximal ones. -/
theorem Takes.shows {grp : BuddyGroup} {chunks : List (Nat × Nat)}
    (takes : Takes sb first len chunks) (shows : Shows sb.bits grp (Upto (sb.blkbits + 1) f first))
    (boundary : Boundary (sb.blkbits + 1) f first) (run : ∀ b, first ≤ b → b < first + len → f b)
    (stop : ¬ f (first + len)) (le : first + len ≤ sb.bits) :
    Rebuilt grp (recordChunks grp chunks) ∧
    Shows sb.bits (recordChunks grp chunks) (Upto (sb.blkbits + 1) f (first + len)) := by
  induction takes generalizing grp with
  | nil => exact ⟨.refl grp, shows⟩
  | @cons first len order chunks chunk later ih =>
    have fits := chunk.fits
    have pow := Nat.two_pow_pos order
    have tile := chunk.maximal boundary run stop
    obtain ⟨boundary', upto⟩ := upto_chunk chunk.aligned boundary tile
    have small : first / 2 ^ order < sb.bits :=
      Nat.lt_of_le_of_lt (Nat.div_le_self _ _) (by omega)
    have fresh : ¬ Upto (sb.blkbits + 1) f first order (first / 2 ^ order) := by
      rintro ⟨_, high⟩
      rw [succ_mul_two_pow, div_mul_two_pow chunk.aligned] at high
      omega
    have shows' := (shows.recordChunk first order small fresh).congr rfl rfl upto
    have sum : first + 2 ^ order + (len - 2 ^ order) = first + len := by omega
    rw [sum] at ih
    obtain ⟨rebuilt, rest⟩ := ih shows' boundary'
      (fun b low high => run b (by omega) (by omega)) stop le
    exact ⟨(recordChunk_rebuilt grp first order).trans rebuilt, rest⟩

end Linux318.Source.Fs
