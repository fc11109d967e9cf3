import Linux318.Source.Fs.Ext4BuddyGenerate

/-!
# Single chunks and fragments

Source: fs/ext4/mballoc.c:1302-1390,1543-1616. Allocating and freeing put chunks into the buddy
and take them out one by one. The number of fragments follows from the neighbours of the
extent that changes.
-/
namespace Linux318.Source.Fs
open Lib.Buddy

def placeChunk (grp : BuddyGroup) (order i : Nat) : BuddyGroup :=
  (grp.setBuddy order (setBit (grp.buddyOf order) i false)).addCounter order 1

def dropChunk (grp : BuddyGroup) (order i : Nat) : BuddyGroup :=
  (grp.setBuddy order (setBit (grp.buddyOf order) i true)).addCounter order (-1)

/-- The group has another bitmap, another buddy and other counters, and nothing else changed. -/
def Touched (grp grp' : BuddyGroup) : Prop :=
  grp' = { grp with
    bitmap := grp'.bitmap, buddy := grp'.buddy, bbCounters := grp'.bbCounters }

theorem Touched.refl (grp : BuddyGroup) : Touched grp grp := rfl

theorem Touched.trans {a b c : BuddyGroup} (ab : Touched a b) (bc : Touched b c) : Touched a c := by
  unfold Touched at *
  rw [bc, ab]

theorem touched_setBuddy (grp : BuddyGroup) (order : Nat) (bm : Nat → Bool) (n : Int) :
    Touched grp ((grp.setBuddy order bm).addCounter order n) := by
  unfold Touched BuddyGroup.setBuddy
  split <;> rfl

theorem buddy_setBit (grp : BuddyGroup) (order i : Nat) (value : Bool) (n : Int) (l j : Nat) :
    ((grp.setBuddy order (setBit (grp.buddyOf order) i value)).addCounter order n).buddy l j =
      if 1 ≤ order ∧ l = order ∧ j = i then value else grp.buddy l j := by
  rw [BuddyGroup.buddy_addCounter, BuddyGroup.buddy_setBuddy]
  by_cases zero : order = 0
  · simp [zero]
  by_cases same : l = order
  · subst same
    have pos : 1 ≤ l := by omega
    simp [zero, pos, setBit, BuddyGroup.buddyOf]
  · simp [same]

theorem bitmap_setBit (grp : BuddyGroup) (order i : Nat) (value : Bool) (n : Int) (b : Nat) :
    ((grp.setBuddy order (setBit (grp.buddyOf order) i value)).addCounter order n).bitmap b =
      if order = 0 ∧ b = i then value else grp.bitmap b := by
  rw [BuddyGroup.bitmap_addCounter, BuddyGroup.bitmap_setBuddy]
  by_cases zero : order = 0
  · simp [zero, setBit, BuddyGroup.buddyOf]
  · simp [zero]

theorem counters_setBit (grp : BuddyGroup) (order : Nat) (bm : Nat → Bool) (n : Int) (l : Nat) :
    ((grp.setBuddy order bm).addCounter order n).bbCounters l =
      grp.bbCounters l + if l = order then n else 0 := by
  rw [BuddyGroup.addCounter]
  by_cases same : l = order <;> simp [same]

section
variable {n : Nat} {grp : BuddyGroup} {s : Tiling} (shows : Shows n grp s) {order i : Nat}
  (lt : i < n)
include n grp s shows order i lt

theorem Shows.placeChunk (fresh : ¬ s order i) :
    Shows n (placeChunk grp order i) (withTile s order i) :=
  shows.add lt fresh (buddy_setBit grp order i false 1) (counters_setBit grp order _ 1)

theorem Shows.dropChunk (tile : s order i) :
    Shows n (dropChunk grp order i) (withoutTile s order i) := by
  refine shows.remove lt tile (buddy_setBit grp order i true (-1)) fun l => ?_
  rw [Fs.dropChunk, counters_setBit]
  split <;> rfl

end

section
variable (grp : BuddyGroup) (ord start : Nat)
include grp ord start

theorem takeChunk_eq : takeChunk grp ord start = dropChunk grp ord (start / 2 ^ ord) := by
  rw [takeChunk, dropChunk, Nat.shiftRight_eq_div_pow]

theorem splitChunk_eq : splitChunk grp ord start =
      placeChunk (placeChunk (dropChunk grp (ord + 1) (start / 2 ^ (ord + 1))) ord
        (2 * (start / 2 ^ (ord + 1)))) ord (2 * (start / 2 ^ (ord + 1)) + 1) := by
  have cur : (start >>> ord) / 2 * 2 = 2 * (start / 2 ^ (ord + 1)) := by
    rw [Nat.shiftRight_eq_div_pow, div_two_pow_succ, Nat.mul_comm]
  rw [splitChunk, takeChunk_eq, cur]
  unfold placeChunk BuddyGroup.setBuddy BuddyGroup.buddyOf BuddyGroup.addCounter
  by_cases zero : ord = 0
  · simp [zero]
  simp only [zero, if_false]
  congr 1
  funext o
  split <;> rfl

theorem touched_splitChunk : Touched grp (splitChunk grp ord start) := by
  rw [splitChunk_eq]
  exact ((touched_setBuddy _ _ _ _).trans (touched_setBuddy _ _ _ _)).trans
    (touched_setBuddy _ _ _ _)

end

theorem bitmap_splitChunk (grp : BuddyGroup) (ord start b : Nat) :
    (splitChunk grp ord start).bitmap b =
      if ord = 0 ∧ (b = 2 * (start / 2 ^ (ord + 1)) ∨ b = 2 * (start / 2 ^ (ord + 1)) + 1) then false
      else grp.bitmap b := by
  rw [splitChunk_eq]
  rw [placeChunk, bitmap_setBit, placeChunk, bitmap_setBit, dropChunk, bitmap_setBit]
  grind

theorem count_erase_of {n a : Nat} {p : Nat → Prop} {mem : Bool} (lt : p a → a < n)
    (spec : mem = true ↔ p a) :
    (count n p : Int) = count n (fun b => b ≠ a ∧ p b) + if mem then 1 else 0 := by
  cases mem with
  | true =>
    have pa := spec.mp rfl
    rw [← count_erase (lt pa) pa]
    rfl
  | false =>
    have same : count n p = count n (fun b => b ≠ a ∧ p b) := by
      refine count_congr fun b _ => ⟨fun h => ⟨?_, h⟩, fun h => h.2⟩
      rintro rfl
      exact absurd (spec.mpr h) (by decide)
    rw [same]
    rfl

/-- The number of runs when an extent becomes free. -/
theorem count_runStart {n a m : Nat} {f : Nat → Prop} (pos : 0 < m) (le : a + m ≤ n)
    (bounded : ∀ b, f b → b < n) (used : ∀ b, a ≤ b → b < a + m → ¬ f b) {left right : Bool}
    (leftFree : left = true ↔ a ≠ 0 ∧ f (a - 1)) (rightFree : right = true ↔ f (a + m)) :
    (count n (RunStart fun b => (a ≤ b ∧ b < a + m) ∨ f b) : Int) =
      count n (RunStart f) + ((if left then 0 else 1) - if right then 1 else 0) := by
  let g : Nat → Prop := fun b => (a ≤ b ∧ b < a + m) ∨ f b
  have kept (b : Nat) : (b ≠ a + m ∧ RunStart f b) ↔ b ≠ a ∧ RunStart g b := by
    constructor
    · rintro ⟨ne, free, edge⟩
      have out : ¬ (a ≤ b ∧ b < a + m) := fun h => used b h.1 h.2 free
      refine ⟨by omega, .inr free, edge.imp_right fun last => ?_⟩
      rintro (inside | other)
      · omega
      · exact last other
    rintro ⟨ne, inside | free, edge⟩
    · rcases edge with zero | last
      · omega
      · exact absurd (.inl (by omega)) last
    refine ⟨?_, free, edge.imp_right fun last other => last (.inr other)⟩
    rintro rfl
    rcases edge with zero | last
    · omega
    · exact last (.inl (by omega))
  have before := count_erase_of (p := RunStart f) (fun h => bounded _ h.1)
    (rightFree.trans ⟨fun free => ⟨free, .inr (used _ (by omega) (by omega))⟩, fun h => h.1⟩)
  have after := @count_erase_of n a (RunStart g) (!left) (fun _ => by omega) (by
    rw [Bool.not_eq_true', ← Bool.not_eq_true, leftFree]
    constructor
    · intro edge
      refine ⟨.inl (by omega), ?_⟩
      by_cases zero : a = 0
      · exact .inl zero
      refine .inr ?_
      rintro (inside | free)
      · omega
      · exact edge ⟨zero, free⟩
    · rintro ⟨_, zero | last⟩ ⟨ne, free⟩
      · exact ne zero
      · exact last (.inr free))
  rw [after, before, count_congr fun b _ => kept b]
  cases left <;> cases right <;> simp

theorem addFragments_eq (grp : BuddyGroup) (left right : Bool) (gap : Int) :
    addFragments grp left right gap = { grp with
      bbFragments := grp.bbFragments +
        gap * ((if left then 0 else 1) - if right then 1 else 0) } := by
  cases left <;> cases right <;> simp [addFragments]
  rfl

/-- A bitmap with the bits of an extent set or cleared. -/
def withExtent (bitmap : Nat → Bool) (first len : Nat) (value : Bool) : Nat → Bool :=
  fun b => if first ≤ b ∧ b < first + len then value else bitmap b

theorem Padded.withExtent {sb : Ext4Sb} {bitmap : Nat → Bool} (padded : Padded sb bitmap)
    {first len : Nat} (inside : first + len ≤ sb.clustersPerGroup) (value : Bool) :
    Padded sb (withExtent bitmap first len value) where
  le := padded.le
  padding b high := by
    rw [Fs.withExtent, if_neg (by omega)]
    exact padded.padding b high

theorem withExtent_false (bitmap : Nat → Bool) (first len b : Nat) :
    withExtent bitmap first len false b = false ↔
      (first ≤ b ∧ b < first + len) ∨ bitmap b = false := by
  rw [withExtent]
  split
  next within => simp [within]
  next out => simp [out]

theorem withExtent_true (bitmap : Nat → Bool) (first len b : Nat) :
    withExtent bitmap first len true b = false ↔
      ¬ (first ≤ b ∧ b < first + len) ∧ bitmap b = false := by
  rw [withExtent]
  split
  next within => simp [within]
  next out => simp [out]

/-- The counts of the group when a used extent becomes free. -/
theorem Padded.count_extent {sb : Ext4Sb} {bitmap : Nat → Bool} (padded : Padded sb bitmap)
    {first len : Nat} (pos : 0 < len) (inside : first + len ≤ sb.clustersPerGroup)
    (used : ∀ b, first ≤ b → b < first + len → bitmap b = true) {left right : Bool}
    (leftFree : left = true ↔ first ≠ 0 ∧ bitmap (first - 1) = false)
    (rightFree : right = true ↔ first + len < sb.sMbMaxs 0 ∧ bitmap (first + len) = false) :
    count sb.bits (fun b => Fs.withExtent bitmap first len false b = false) =
      count sb.bits (fun b => bitmap b = false) + len ∧
    (count sb.bits (RunStart fun b => Fs.withExtent bitmap first len false b = false) : Int) =
      count sb.bits (RunStart fun b => bitmap b = false) +
        ((if left then 0 else 1) - if right then 1 else 0) := by
  have le := padded.le
  have both : (fun b => Fs.withExtent bitmap first len false b = false) =
      fun b => (first ≤ b ∧ b < first + len) ∨ bitmap b = false :=
    funext fun b => propext (withExtent_false bitmap first len b)
  have busy (b : Nat) (low : first ≤ b) (high : b < first + len) : ¬ bitmap b = false := by
    simp [used b low high]
  have bound (b : Nat) (free : bitmap b = false) : b < sb.bits :=
    Nat.lt_of_lt_of_le (padded.bound free) le
  rw [both]
  refine ⟨count_union (by omega) busy, count_runStart pos (by omega) bound busy leftFree ?_⟩
  rw [rightFree, sb.sMbMaxs_eq (Nat.zero_le _)]
  exact ⟨fun h => h.2, fun free => ⟨bound _ free, free⟩⟩

end Linux318.Source.Fs
