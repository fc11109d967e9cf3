import Linux318.Source.Fs.Ext4BuddyChunks

/-!
# Freeing an extent

Source: fs/ext4/mballoc.c:1302-1488. From order to order the freed region is a range of whole
chunks that is not yet in the buddy. At each border a chunk of the region is put into the buddy,
or the neighbour is taken out and joins the region, so that the region consists of pairs.
-/
namespace Linux318.Source.Fs
open Lib.Buddy

variable {grp : BuddyGroup}

/-- The state of the loop at order `k`: of the blocks `f` that are to be free, the chunks from
`a` to `c` (excluded) are not yet in the buddy. -/
structure Freeing (sb : Ext4Sb) (grp : BuddyGroup) (f : Nat → Prop) (s : Tiling) (k a c : Nat) :
    Prop where
  tiles : Tiles (sb.blkbits + 1) (fun b => ¬ (a ≤ b / 2 ^ k ∧ b / 2 ^ k < c) ∧ f b) s
  shows : Shows sb.bits grp s
  reduced : Reduced (sb.blkbits + 1) s
  region : ∀ b, a ≤ b / 2 ^ k → b / 2 ^ k < c → f b
  bound : ∀ b, f b → b < sb.bits

namespace Freeing

variable {sb : Ext4Sb} {grp grp' : BuddyGroup} {f : Nat → Prop} {s : Tiling}
  {k a c a' c' i : Nat}

section
variable (freeing : Freeing sb grp f s k a c)
include freeing

theorem index_lt (low : a ≤ i) (high : i < c) : i < sb.bits := by
  have first := first_div k i
  have := freeing.bound _ (freeing.region (i * 2 ^ k) (by omega) (by omega))
  exact Nat.lt_of_le_of_lt (Nat.le_mul_of_pos_right i (Nat.two_pow_pos k)) this

theorem not_tile (low : a ≤ i) (high : i < c) : ¬ s k i := by
  intro tile
  have first := first_div k i
  exact (freeing.tiles.inside tile (i * 2 ^ k) first).1 (by omega)

/-- A chunk of the region that stays single is put into the buddy. -/
theorem place (le : k ≤ sb.blkbits + 1) (mem : a ≤ i ∧ i < c) (alone : ∀ j, j / 2 = i / 2 → ¬ s k j)
    (left : ∀ j, (a' ≤ j ∧ j < c') ↔ (a ≤ j ∧ j < c) ∧ j ≠ i)
    (shows : Shows sb.bits grp' (withTile s k i)) : Freeing sb grp' f (withTile s k i) k a' c' where
  tiles := by
    refine (freeing.tiles.withTile le fun b own h => h.1 (own ▸ mem)).congr ?_ fun _ _ => Iff.rfl
    intro b
    rw [left]
    have inside : b / 2 ^ k = i → f b := fun own =>
      freeing.region b (own ▸ mem.1) (own ▸ mem.2)
    tauto
  shows := shows
  reduced := by
    rintro l lt j ⟨⟨same, own⟩ | left, ⟨same', own'⟩ | right⟩
    · omega
    · exact alone (2 * j + 1) (by omega) (same ▸ right)
    · exact alone (2 * j) (by omega) (same' ▸ left)
    · exact freeing.reduced l lt j ⟨left, right⟩
  region b low high := by
    have := (left _).mp ⟨low, high⟩
    exact freeing.region b this.1.1 this.1.2
  bound := freeing.bound

theorem drop (tile : s k i) (joined : ∀ j, (a' ≤ j ∧ j < c') ↔ (a ≤ j ∧ j < c) ∨ j = i)
    (shows : Shows sb.bits grp' (withoutTile s k i)) :
    Freeing sb grp' f (withoutTile s k i) k a' c' where
  tiles := by
    refine (freeing.tiles.withoutTile tile).congr (fun b => ?_) fun _ _ => Iff.rfl
    rw [joined]
    tauto
  shows := shows
  reduced l lt j both := freeing.reduced l lt j ⟨both.1.2, both.2.2⟩
  region b low high := by
    rcases (joined _).mp ⟨low, high⟩ with old | own
    · exact freeing.region b old.1 old.2
    · exact (freeing.tiles.inside tile b own).2
  bound := freeing.bound

end

/-- Pairs of chunks are chunks of the next order. -/
theorem up (freeing : Freeing sb grp f s k (2 * a) (2 * c)) : Freeing sb grp f s (k + 1) a c where
  tiles := by
    refine freeing.tiles.congr (fun b => ?_) fun _ _ => Iff.rfl
    rw [div_two_pow_succ]
    have : (a ≤ b / 2 ^ k / 2 ∧ b / 2 ^ k / 2 < c) ↔ 2 * a ≤ b / 2 ^ k ∧ b / 2 ^ k < 2 * c := by
      omega
    rw [this]
  shows := freeing.shows
  reduced := freeing.reduced
  region b low high := by
    rw [div_two_pow_succ] at low high
    exact freeing.region b (by omega) (by omega)
  bound := freeing.bound

section
variable (freeing : Freeing sb grp f s k a c)
include freeing

/-- With an empty region the buddy has the maximal chunks. -/
theorem finish (empty : c ≤ a) : Shows sb.bits grp (Maximal (sb.blkbits + 1) f) := by
  have tiles : Tiles (sb.blkbits + 1) f s := by
    refine freeing.tiles.congr (fun b => ?_) fun _ _ => Iff.rfl
    exact ⟨fun h => ⟨by omega, h⟩, fun h => h.2⟩
  exact freeing.shows.congr rfl rfl fun k i => (tiles.iff_maximal freeing.reduced k i).symm

theorem congr (buddy : grp'.buddy = grp.buddy)
    (counters : grp'.bbCounters = grp.bbCounters) : Freeing sb grp' f s k a c :=
  { freeing with shows := freeing.shows.congr buddy counters fun _ _ => Iff.rfl }

theorem leftPlace (le : k ≤ sb.blkbits + 1) (lt : a < c)
    (odd : a % 2 = 1) (neighbour : ¬ s k (a - 1)) :
    Freeing sb (placeChunk grp k a) f (withTile s k a) k (a + 1) c := by
  have alone (j : Nat) (pair : j / 2 = a / 2) : ¬ s k j := by
    by_cases own : j = a
    · exact freeing.not_tile (by omega) (by omega)
    · obtain rfl : j = a - 1 := by omega
      exact neighbour
  exact freeing.place le ⟨Nat.le_refl a, lt⟩ alone (by omega)
    (freeing.shows.placeChunk (freeing.index_lt (Nat.le_refl a) lt) (alone a rfl))

theorem leftDrop (lt : a < c) (odd : a % 2 = 1) (neighbour : s k (a - 1)) :
    Freeing sb (dropChunk grp k (a - 1)) f (withoutTile s k (a - 1)) k (a - 1) c := by
  have := freeing.index_lt (Nat.le_refl a) lt
  exact freeing.drop neighbour (by omega) (freeing.shows.dropChunk (by omega) neighbour)

theorem rightPlace (le : k ≤ sb.blkbits + 1) (lt : a < c) (odd : c % 2 = 1) (neighbour : ¬ s k c) :
    Freeing sb (placeChunk grp k (c - 1)) f (withTile s k (c - 1)) k a (c - 1) := by
  have alone (j : Nat) (pair : j / 2 = (c - 1) / 2) : ¬ s k j := by
    by_cases own : j = c
    · exact own ▸ neighbour
    · exact freeing.not_tile (by omega) (by omega)
  exact freeing.place le (by omega) alone (by omega)
    (freeing.shows.placeChunk (freeing.index_lt (by omega) (by omega)) (alone (c - 1) rfl))

theorem rightDrop (lt : a < c) (neighbour : s k c) :
    Freeing sb (dropChunk grp k c) f (withoutTile s k c) k a (c + 1) := by
  have first := first_div k c
  have := freeing.bound _ (freeing.tiles.inside neighbour _ first).2
  have small := Nat.lt_of_le_of_lt (Nat.le_mul_of_pos_right c (Nat.two_pow_pos k)) this
  exact freeing.drop neighbour (by omega) (freeing.shows.dropChunk small neighbour)

end

end Freeing

theorem rebuilt_placeChunk (grp : BuddyGroup) {k : Nat} (pos : 1 ≤ k) (i : Nat) :
    Rebuilt grp (placeChunk grp k i) :=
  (rebuilt_setBuddy grp (by omega) _).trans (rebuilt_addCounter _ k 1)

theorem rebuilt_dropChunk (grp : BuddyGroup) {k : Nat} (pos : 1 ≤ k) (i : Nat) :
    Rebuilt grp (dropChunk grp k i) :=
  (rebuilt_setBuddy grp (by omega) _).trans (rebuilt_addCounter _ k (-1))

theorem mbBuddyAdjustBorder_left (grp : BuddyGroup) {k a : Nat} (pos : 1 ≤ k) (odd : a % 2 = 1) :
    mbBuddyAdjustBorder grp k a (-1) =
      if grp.buddy k (a - 1) then (((a + 1 : Nat) : Int), placeChunk grp k a)
      else (((a - 1 : Nat) : Int), dropChunk grp k (a - 1)) := by
  have index : ((a : Int) + -1).toNat = a - 1 := by omega
  have buddy : grp.buddyOf k = grp.buddy k := if_neg (by omega)
  rw [mbBuddyAdjustBorder, index, placeChunk, dropChunk, buddy]
  split
  · exact congrArg (·, _) (by omega)
  · exact congrArg (·, _) (by omega)

theorem mbBuddyAdjustBorder_right (grp : BuddyGroup) {k c : Nat} (pos : 1 ≤ k) (odd : c % 2 = 1) :
    mbBuddyAdjustBorder grp k (c - 1) 1 =
      if grp.buddy k c then (((c - 1 : Nat) : Int) - 1, placeChunk grp k (c - 1))
      else (((c + 1 : Nat) : Int) - 1, dropChunk grp k c) := by
  have index : ((c : Int) - 1 + 1).toNat = c := by omega
  have index' : ((c : Int) - 1).toNat = c - 1 := by omega
  have buddy : grp.buddyOf k = grp.buddy k := if_neg (by omega)
  rw [mbBuddyAdjustBorder, index, index', placeChunk, dropChunk, buddy]
  split
  · exact congrArg (·, _) (by omega)
  · exact congrArg (·, _) (by omega)

namespace Freeing

variable {sb : Ext4Sb} {grp : BuddyGroup} {f : Nat → Prop} {s : Tiling} {k a c : Nat}

section
variable (freeing : Freeing sb grp f s k a c) (pos : 1 ≤ k) (le : k ≤ sb.blkbits + 1)
include freeing pos le

theorem adjustLeft (lt : a < c) : ∃ (grp' : BuddyGroup) (s' : Tiling) (a' : Nat),
      (if (a : Int) % 2 = 1 then mbBuddyAdjustBorder grp k a (-1) else ((a : Int), grp)) =
        ((a' : Int), grp') ∧ Rebuilt grp grp' ∧ Freeing sb grp' f s' k a' c ∧ a' % 2 = 0 ∧
      (a' < c ∨ a' = c ∧ c % 2 = 0) := by
  have clear := freeing.shows.clear k (a - 1)
  by_cases odd : a % 2 = 1
  · rw [if_pos (by omega), mbBuddyAdjustBorder_left grp pos odd]
    split
    next set =>
      have neighbour : ¬ s k (a - 1) := fun tile => by simp [clear.mpr ⟨pos, tile⟩] at set
      exact ⟨_, _, a + 1, rfl, rebuilt_placeChunk grp pos a, freeing.leftPlace le lt odd neighbour,
        by omega, by omega⟩
    next free =>
      have neighbour := (clear.mp (by simpa using free)).2
      exact ⟨_, _, a - 1, rfl, rebuilt_dropChunk grp pos _, freeing.leftDrop lt odd neighbour,
        by omega, by omega⟩
  · rw [if_neg (by omega)]
    exact ⟨grp, s, a, rfl, .refl grp, freeing, by omega, .inl lt⟩

theorem adjustRight (even : a % 2 = 0) (lt : a < c ∨ a = c ∧ c % 2 = 0) :
    ∃ (grp' : BuddyGroup) (s' : Tiling) (c' : Nat),
      (if ((c : Int) - 1) % 2 = 0 then mbBuddyAdjustBorder grp k (c - 1) 1
        else ((c : Int) - 1, grp)) = ((c' : Int) - 1, grp') ∧ Rebuilt grp grp' ∧
      Freeing sb grp' f s' k a c' ∧ c' % 2 = 0 ∧ a ≤ c' := by
  have clear := freeing.shows.clear k c
  by_cases odd : c % 2 = 1
  · rw [if_pos (by omega), mbBuddyAdjustBorder_right grp pos odd]
    split
    next set =>
      have neighbour : ¬ s k c := fun tile => by simp [clear.mpr ⟨pos, tile⟩] at set
      exact ⟨_, _, c - 1, rfl, rebuilt_placeChunk grp pos _,
        freeing.rightPlace le (by omega) odd neighbour, by omega, by omega⟩
    next free =>
      have neighbour := (clear.mp (by simpa using free)).2
      exact ⟨_, _, c + 1, rfl, rebuilt_dropChunk grp pos _, freeing.rightDrop (by omega) neighbour,
        by omega, by omega⟩
  · rw [if_neg (by omega)]
    exact ⟨grp, s, c, rfl, .refl grp, freeing, by omega, by omega⟩

end

/-- At the largest order all chunks of the region are put into the buddy. -/
theorem fill (freeing : Freeing sb grp f s (sb.blkbits + 1) a c) (lt : a < c) :
    Shows sb.bits ((grp.setBuddy (sb.blkbits + 1) (mbClearBits (grp.buddyOf (sb.blkbits + 1)) a
      (c - a))).addCounter (sb.blkbits + 1) (c - a : Nat)) (Maximal (sb.blkbits + 1) f) := by
  have inside := freeing.index_lt (i := c - 1) (by omega) (by omega)
  have sum : a + (c - a) = c := by omega
  have tiles : Tiles (sb.blkbits + 1) f (withTiles s (sb.blkbits + 1) fun j => a ≤ j ∧ j < c) := by
    refine (freeing.tiles.withTiles (Nat.le_refl _) fun b new old => old.1 new).congr (fun b => ?_)
      fun _ _ => Iff.rfl
    have := freeing.region b
    tauto
  have reduced : Reduced (sb.blkbits + 1)
      (withTiles s (sb.blkbits + 1) fun j => a ≤ j ∧ j < c) := by
    rintro l lt j ⟨⟨same, _⟩ | left, ⟨same, _⟩ | right⟩
    · omega
    · omega
    · omega
    · exact freeing.reduced l lt j ⟨left, right⟩
  refine Shows.congr ⟨fun l j => ?_,
    fun l => ?_⟩ rfl rfl fun k i => (tiles.iff_maximal reduced k i).symm
  · have old := freeing.shows.clear l j
    have buddy : grp.buddyOf (sb.blkbits + 1) = grp.buddy (sb.blkbits + 1) := if_neg (by omega)
    rw [BuddyGroup.buddy_addCounter, BuddyGroup.buddy_setBuddy, withTiles, buddy]
    by_cases same : l = sb.blkbits + 1
    · subst same
      rw [if_pos ⟨by omega, rfl⟩, mbClearBits_eq, sum]
      split
      next new => simp [new]
      next other => simp [other, old]
    · rw [if_neg (fun h => same h.2), old]
      simp [same]
  · rw [counters_setBit, freeing.shows.counted]
    by_cases same : l = sb.blkbits + 1
    · subst same
      have total := count_union (n := sb.bits) (m := c - a)
        (by omega) (fun i low high => freeing.not_tile low (by omega))
      rw [sum] at total
      rw [if_pos rfl, ← Int.natCast_add, ← total]
      exact congrArg Nat.cast (count_congr fun j _ => by simp [withTiles])
    · rw [if_neg same]
      exact congrArg Nat.cast (count_congr fun j _ => by simp [withTiles, same])

end Freeing

theorem buddyMarkFreeLoop_spec {sb : Ext4Sb} (fuel : Nat) {f : Nat → Prop}
    {s : Tiling} {k a c : Nat} (freeing : Freeing sb grp f s k a c) (pos : 1 ≤ k) (lt : a < c)
    (le : k ≤ sb.blkbits + 1) (sum : k + fuel = sb.blkbits + 2) :
    Rebuilt grp (buddyMarkFreeLoop sb fuel grp k a (c - 1)) ∧
    Shows sb.bits (buddyMarkFreeLoop sb fuel grp k a (c - 1)) (Maximal (sb.blkbits + 1) f) := by
  induction fuel generalizing grp s k a c with
  | zero => omega
  | succ fuel ih =>
    obtain ⟨grp1, s1, a', left, rebuilt1, freeing1, even1, lt1⟩ := freeing.adjustLeft pos le lt
    obtain ⟨grp2, s2, c', right, rebuilt2, freeing2, even2, le2⟩ :=
      freeing1.adjustRight pos le even1 lt1
    rw [buddyMarkFreeLoop]
    simp only [left, right]
    have rebuilt := rebuilt1.trans rebuilt2
    by_cases empty : c' ≤ a'
    · rw [if_pos (by omega)]
      exact ⟨rebuilt, freeing2.finish empty⟩
    rw [if_neg (by omega)]
    by_cases top : k = sb.blkbits + 1
    · subst top
      have size : (c' : Int) - 1 - a' + 1 = (c' - a' : Nat) := by omega
      rw [if_pos (.inr (if_pos (by omega))), size]
      exact ⟨(rebuilt.trans (rebuilt_setBuddy grp2 (by omega) _)).trans (rebuilt_addCounter _ _ _),
        freeing2.fill (by omega)⟩
    rw [if_neg (by
      rintro (same | none)
      · omega
      · rw [mbFindBuddy, if_neg (by omega)] at none
        cases none)]
    obtain ⟨x, rfl⟩ : ∃ x, a' = 2 * x := ⟨a' / 2, by omega⟩
    obtain ⟨y, rfl⟩ : ∃ y, c' = 2 * y := ⟨c' / 2, by omega⟩
    have low : ((2 * x : Nat) : Int) / 2 = x := by omega
    have high : (((2 * y : Nat) : Int) - 1) / 2 = (y : Int) - 1 := by omega
    rw [low, high]
    obtain ⟨later, shows⟩ := ih freeing2.up (by omega) (by omega) (by omega) (by omega)
    exact ⟨rebuilt.trans later, shows⟩

namespace Freeing

variable {sb : Ext4Sb} {grp : BuddyGroup} {f : Nat → Prop} {s : Tiling} {a c : Nat}

section
variable (freeing : Freeing sb grp f s 0 a c)
include freeing

/-- At order 0 a chunk is a free block whose neighbour is not free. -/
theorem tile_zero_iff {i j : Nat} (pair : j / 2 = i / 2)
    (inside : a ≤ j ∧ j < c) (out : ¬ (a ≤ i ∧ i < c)) : s 0 i ↔ f i := by
  constructor
  · intro tile
    exact (freeing.tiles.inside tile i (by simp)).2
  intro free
  refine freeing.tiles.single pair ⟨by simpa using out, free⟩ fun h => h.1 ?_
  simpa using inside

theorem zeroLeft (lt : a < c) {left : Bool} (leftFree : a % 2 = 1 → (left = true ↔ f (a - 1))) :
    ∃ s', Freeing sb (if a % 2 = 1 then grp.addCounter 0 (if left then -1 else 1) else grp) f s' 0
      (if a % 2 = 1 then if left then a - 1 else a + 1 else a) c := by
  by_cases odd : a % 2 = 1
  · have neighbour := freeing.tile_zero_iff (i := a - 1) (by omega) ⟨Nat.le_refl a, lt⟩ (by omega)
    rw [← leftFree odd] at neighbour
    simp only [if_pos odd]
    cases left with
    | true => exact ⟨_, (freeing.leftDrop lt odd (neighbour.mpr rfl)).congr rfl rfl⟩
    | false =>
      refine ⟨_, (freeing.leftPlace (by omega) lt odd ?_).congr rfl rfl⟩
      simp [neighbour]
  · simp only [if_neg odd]
    exact ⟨s, freeing⟩

theorem zeroRight (lt : c % 2 = 1 → a < c) {right : Bool}
    (rightFree : c % 2 = 1 → (right = true ↔ f c)) :
    ∃ s', Freeing sb (if c % 2 = 1 then grp.addCounter 0 (if right then -1 else 1) else grp) f s' 0
      a (if c % 2 = 1 then if right then c + 1 else c - 1 else c) := by
  by_cases odd : c % 2 = 1
  · have neighbour := freeing.tile_zero_iff (i := c) (j := c - 1) (by omega)
      (by have := lt odd; omega) (by omega)
    rw [← rightFree odd] at neighbour
    simp only [if_pos odd]
    cases right with
    | true => exact ⟨_, (freeing.rightDrop (lt odd) (neighbour.mpr rfl)).congr rfl rfl⟩
    | false =>
      refine ⟨_, (freeing.rightPlace (by omega) (lt odd) odd ?_).congr rfl rfl⟩
      simp [neighbour]
  · simp only [if_neg odd]
    exact ⟨s, freeing⟩

end

end Freeing

/-- What the borders of order 0 leave to the larger orders. -/
theorem freeBorders_eq (grp : BuddyGroup) (a c : Nat) (left right : Bool) :
    freeBorders grp a (c - 1) left right =
      (if a % 2 = 1 then if left then (a : Int) else a + 1 else a,
       if c % 2 = 1 then if right then (c : Int) - 1 else c - 1 - 1 else c - 1,
       if c % 2 = 1 then (if a % 2 = 1 then grp.addCounter 0 (if left then -1 else 1) else grp).addCounter
          0 (if right then -1 else 1)
        else if a % 2 = 1 then grp.addCounter 0 (if left then -1 else 1) else grp) := by
  have odd : (a : Int) % 2 = 1 ↔ a % 2 = 1 := by omega
  have even : ((c : Int) - 1) % 2 = 0 ↔ c % 2 = 1 := by omega
  simp only [freeBorders, odd, even, apply_ite Prod.fst, apply_ite Prod.snd]

section
variable {sb : Ext4Sb} {f : Nat → Prop} {s : Tiling} {a c : Nat}
  (freeing : Freeing sb grp f s 0 a c) (lt : a < c) {left right : Bool}
  (leftFree : a % 2 = 1 → (left = true ↔ f (a - 1))) (rightFree : c % 2 = 1 → (right = true ↔ f c))
include freeing lt leftFree rightFree

theorem freeBorders_spec :
    ∃ s' x y, Freeing sb (freeBorders grp a (c - 1) left right).2.2 f s' 0 (2 * x) (2 * y) ∧
      Rebuilt grp (freeBorders grp a (c - 1) left right).2.2 ∧ x ≤ y ∧
      ((freeBorders grp a (c - 1) left right).1 ≤ (freeBorders grp a (c - 1) left right).2.1 ↔
        x < y) ∧
      (x < y → (freeBorders grp a (c - 1) left right).1 / 2 = x ∧
        (freeBorders grp a (c - 1) left right).2.1 / 2 = (y : Int) - 1) := by
  obtain ⟨s1, freeing1⟩ := freeing.zeroLeft lt leftFree
  obtain ⟨s2, freeing2⟩ := freeing1.zeroRight (fun odd => by split_ifs <;> omega) rightFree
  rw [freeBorders_eq]
  dsimp only
  have rebuilt : Rebuilt grp (if a % 2 = 1 then grp.addCounter 0 (if left then -1 else 1)
      else grp) := by
    split
    · exact rebuilt_addCounter _ _ _
    · exact .refl grp
  refine ⟨s2, (if a % 2 = 1 then if left then a - 1 else a + 1 else a) / 2,
    (if c % 2 = 1 then if right then c + 1 else c - 1 else c) / 2, ?_, ?_, ?_, ?_, ?_⟩
  · convert freeing2 using 1 <;> split_ifs <;> omega
  · split
    · exact rebuilt.trans (rebuilt_addCounter _ _ _)
    · exact rebuilt
  · split_ifs <;> omega
  · split_ifs <;> omega
  · split_ifs <;> omega

/-- The borders and the larger orders together. -/
theorem freeChunks_spec {grp' : BuddyGroup}
    (res : grp' = (let borders := freeBorders grp a (c - 1) left right
      if borders.1 ≤ borders.2.1 then
        mbBuddyMarkFree sb borders.2.2 (borders.1 / 2) (borders.2.1 / 2)
      else borders.2.2)) :
    Rebuilt grp grp' ∧ Shows sb.bits grp' (Maximal (sb.blkbits + 1) f) := by
  obtain ⟨s', x, y, freeing', rebuilt, le, more, halves⟩ :=
    freeBorders_spec freeing lt leftFree rightFree
  by_cases left : x < y
  · obtain ⟨low, high⟩ := halves left
    rw [if_pos (more.mpr left), low, high] at res
    subst res
    obtain ⟨rebuilt', shows⟩ := buddyMarkFreeLoop_spec (sb.blkbits + 1) freeing'.up (by omega) left
      (by omega) (by omega)
    exact ⟨rebuilt.trans rebuilt', shows⟩
  · rw [if_neg (mt more.mp left)] at res
    subst res
    exact ⟨rebuilt, freeing'.finish (by omega)⟩

end

section
variable {sb : Ext4Sb} (consistent : Consistent sb grp) {first len : Nat}
  (inside : first + len ≤ sb.clustersPerGroup)
  (used : ∀ b, first ≤ b → b < first + len → grp.bitmap b = true)
include consistent inside used

/-- The buddy of a consistent group, where a used extent is to be freed. -/
theorem Consistent.freeing (grp' : BuddyGroup) (same : grp'.buddy = grp.buddy ∧ grp'.bbCounters =
    grp.bbCounters) : Freeing sb grp' (fun b => withExtent grp.bitmap first len false b = false)
      (Maximal (sb.blkbits + 1) grp.Free) 0 first (first + len) where
  tiles := by
    refine (tiles_maximal _ grp.Free).congr (fun b => ?_) fun _ _ => Iff.rfl
    rw [withExtent_false, Nat.pow_zero, Nat.div_one]
    constructor
    · rintro ⟨out, within | free⟩
      · exact absurd within out
      · exact free
    intro free
    refine ⟨fun within => ?_, .inr free⟩
    have set := used b within.1 within.2
    rw [show grp.bitmap b = false from free] at set
    cases set
  shows := consistent.shows.congr same.1 same.2 fun _ _ => Iff.rfl
  reduced := reduced_maximal _ _
  region b low high := by
    rw [Nat.pow_zero, Nat.div_one] at low high
    exact if_pos ⟨low, high⟩
  bound b free := by
    have := (consistent.padded.withExtent inside false).bound free
    exact Nat.lt_of_lt_of_le this consistent.padded.le

/-- Freeing a used extent keeps the group consistent. -/
theorem Consistent.mbFreeBlocks :
    ∃ grp', mbFreeBlocks sb grp first len = some grp' ∧ Consistent sb grp' ∧
      grp'.bitmap = (if grp.corrupt then grp.bitmap else withExtent grp.bitmap first len false) ∧
      grp'.corrupt = grp.corrupt := by
  have le := consistent.padded.le
  rw [Fs.mbFreeBlocks]
  dsimp only
  by_cases none : len = 0
  · subst none
    refine ⟨grp, rfl, consistent, ?_, rfl⟩
    split
    · rfl
    · funext b
      rw [withExtent, if_neg (by omega)]
  rw [if_neg none, sb.shiftLeft_three, if_neg (by omega)]
  by_cases corrupt : grp.corrupt = true
  · rw [if_pos corrupt, if_pos corrupt]
    exact ⟨grp, rfl, consistent, rfl, rfl⟩
  rw [if_neg corrupt, if_neg corrupt]
  have cleared : (mbTestAndClearBits grp.bitmap first len).2 =
      withExtent grp.bitmap first len false :=
    funext fun b => testAndClearLoop_snd _ _ _ _ b
  have first' : (mbTestAndClearBits grp.bitmap first len).1 = Option.none :=
    (testAndClearLoop_fst _ _ _ _).mpr ⟨rfl, used⟩
  rw [cleared, first']
  have last : first + len - 1 + 1 = first + len := by omega
  have cast : ((first + len - 1 : Nat) : Int) = ((first + len : Nat) : Int) - 1 := by omega
  rw [last, cast]
  generalize hl : (decide (first ≠ 0) && !grp.bitmap (first - 1)) = left
  generalize hr : (decide (first + len < sb.sMbMaxs 0) &&
    !withExtent grp.bitmap first len false (first + len)) = right
  generalize before : addFragments _ left right 1 = counted
  rw [addFragments_eq] at before
  have padded := consistent.padded.withExtent inside false
  have leftFree : left = true ↔ first ≠ 0 ∧ grp.bitmap (first - 1) = false := by
    rw [← hl]
    simp
  have behind : withExtent grp.bitmap first len false (first + len) =
      grp.bitmap (first + len) := if_neg (by omega)
  have rightFree : right = true ↔
      first + len < sb.sMbMaxs 0 ∧ grp.bitmap (first + len) = false := by
    rw [← hr, behind]
    simp
  have counts := consistent.padded.count_extent (by omega) inside used leftFree rightFree
  obtain ⟨grp', res⟩ : ∃ grp' : BuddyGroup, grp' =
      (let borders := freeBorders counted first ((first + len : Nat) - 1) left right
      if borders.1 ≤ borders.2.1 then
        mbBuddyMarkFree sb borders.2.2 (borders.1 / 2) (borders.2.1 / 2)
      else borders.2.2) := ⟨_, rfl⟩
  obtain ⟨rebuilt, shows⟩ := freeChunks_spec
    (consistent.freeing inside used counted (by rw [← before]; exact ⟨rfl, rfl⟩)) (by omega)
    (fun odd => by
      rw [leftFree, withExtent, if_neg (by omega)]
      exact ⟨fun h => h.2, fun h => ⟨by omega, h⟩⟩)
    (fun _ => by
      rw [rightFree, behind, sb.sMbMaxs_eq (Nat.zero_le _)]
      refine ⟨fun h => h.2, fun h => ⟨?_, h⟩⟩
      exact Nat.lt_of_lt_of_le (consistent.padded.bound h) le) res
  rw [← res]
  have bitmap : grp'.bitmap = withExtent grp.bitmap first len false := by
    rw [rebuilt, ← before]
  refine ⟨_, rfl, .of_bitmap bitmap padded (shows.congr rfl rfl fun _ _ => Iff.rfl) ?_ ?_ ?_ rfl,
    bitmap, ?_⟩
  · show grp'.bbFree = _
    rw [rebuilt, ← before]
    have : grp.bbFree = count sb.bits fun b => grp.bitmap b = false := consistent.free
    dsimp only
    omega
  · show grp'.bbFragments = _
    rw [rebuilt, ← before]
    have : grp.bbFragments = count sb.bits (RunStart fun b => grp.bitmap b = false) :=
      consistent.fragments
    dsimp only
    omega
  · show ∀ b, _ → grp'.bbFirstFree ≤ b
    rw [rebuilt, ← before]
    intro b free
    have old := consistent.firstFree b
    rw [withExtent_false] at free
    dsimp only
    split <;> rcases free with within | free
    · exact within.1
    · have := old free
      omega
    · omega
    · exact old free
  · show grp'.corrupt = grp.corrupt
    rw [rebuilt, ← before]

end

end Linux318.Source.Fs
