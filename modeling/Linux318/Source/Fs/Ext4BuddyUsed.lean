import Linux318.Source.Fs.Ext4BuddyChunks

/-!
# Allocating an extent

Source: fs/ext4/mballoc.c:1278-1300,1543-1616. The loop takes the chunks of a free extent one by
one, and splits the chunks that reach out of it. While it runs, two halves of one chunk may
stand beside each other, but only where the rest of the extent is.
-/
namespace Linux318.Source.Fs
open Lib.Buddy

variable {grp : BuddyGroup} {ord : Nat}

/-- The search finds the order of the chunk that holds a block. -/
theorem findOrderLoop_spec {buddy : Nat → Nat → Bool} {s : Tiling}
    (clear : ∀ k i, buddy k i = false ↔ 1 ≤ k ∧ s k i) (m left : Nat) {b k : Nat}
    (tile : s k (b / 2 ^ k)) (le : k ≤ m + left) (later : k = 0 ∨ m < k)
    (only : ∀ l, s l (b / 2 ^ l) → l = k) : findOrderLoop buddy left (m + 1) (b / 2 ^ m) = k := by
  induction left generalizing m with
  | zero =>
    rw [findOrderLoop]
    omega
  | succ left ih =>
    have half : (b / 2 ^ m) >>> 1 = b / 2 ^ (m + 1) := by
      rw [Nat.shiftRight_eq_div_pow, Nat.pow_one, div_two_pow_succ]
    rw [findOrderLoop, half]
    split
    next found => exact only _ ((clear _ _).mp found).2
    next other =>
      have ne : k ≠ m + 1 := by
        rintro rfl
        exact other ((clear _ _).mpr ⟨by omega, tile⟩)
      exact ih (m + 1) (by omega) (by omega)

theorem mbFindOrderForBlock_eq {sb : Ext4Sb} {f : Nat → Prop} {s : Tiling}
    (tiles : Tiles (sb.blkbits + 1) f s) (clear : ∀ k i, grp.buddy k i = false ↔ 1 ≤ k ∧ s k i)
    {b k : Nat} (tile : s k (b / 2 ^ k)) : mbFindOrderForBlock sb grp b = k := by
  have order := tiles.order tile
  have found := findOrderLoop_spec clear 0 (sb.blkbits + 1) tile (by omega) (by omega)
    (fun l other => tiles.disjoint other tile)
  rwa [Nat.pow_zero, Nat.div_one] at found

/-- The state of the loop with the extent from `start` to `fin` still to be taken; `f` are the
blocks that are free in the buddy. -/
structure Taking (sb : Ext4Sb) (grp : BuddyGroup) (f : Nat → Prop) (s : Tiling)
    (start fin : Nat) : Prop where
  tiles : Tiles (sb.blkbits + 1) f s
  shows : Shows sb.bits grp s
  rest : ∀ b, start ≤ b → b < fin → f b
  halves : ∀ k < sb.blkbits + 1, ∀ j, s k (2 * j) → s k (2 * j + 1) →
    ∃ b, start ≤ b ∧ b < fin ∧ b / 2 ^ (k + 1) = j
  clear : ∀ b, f b → grp.bitmap b = false
  bound : ∀ b, f b → b < sb.bits

theorem div_eq_aligned {start : Nat} (aligned : 2 ^ ord ∣ start) (b : Nat) :
    b / 2 ^ ord = start / 2 ^ ord ↔ start ≤ b ∧ b < start + 2 ^ ord := by
  rw [div_eq_iff_range, succ_mul_two_pow, div_mul_two_pow aligned]

namespace Taking

variable {sb : Ext4Sb} {grp : BuddyGroup} {f : Nat → Prop} {s : Tiling} {start fin : Nat}

section
variable (taking : Taking sb grp f s start fin)
include taking

theorem take (tile : s ord (start / 2 ^ ord)) (aligned : 2 ^ ord ∣ start)
    (fits : start + 2 ^ ord ≤ fin) :
    Taking sb (takeChunk grp ord start) (fun b => b / 2 ^ ord ≠ start / 2 ^ ord ∧ f b)
      (withoutTile s ord (start / 2 ^ ord)) (start + 2 ^ ord) fin where
  tiles := taking.tiles.withoutTile tile
  shows := by
    rw [takeChunk_eq]
    refine taking.shows.dropChunk ?_ tile
    have := taking.bound start (taking.tiles.inside tile start rfl)
    exact Nat.lt_of_le_of_lt (Nat.div_le_self _ _) this
  rest b low high := by
    refine ⟨fun same => ?_, taking.rest b (by omega) high⟩
    have := (div_eq_aligned aligned b).mp same
    omega
  halves k lt j left right := by
    obtain ⟨b, low, high, in'⟩ := taking.halves k lt j left.2 right.2
    refine ⟨b, ?_, high, in'⟩
    by_contra before
    -- the chunk that was taken is none of the two halves
    have taken : b / 2 ^ ord = start / 2 ^ ord := (div_eq_aligned aligned b).mpr (by omega)
    rw [div_two_pow_succ] at in'
    rcases Nat.mod_two_eq_zero_or_one (b / 2 ^ k) with even | odd
    · exact left.1 (taking.tiles.eq left.2 tile (by omega) taken)
    · exact right.1 (taking.tiles.eq right.2 tile (by omega) taken)
  clear b free := by
    rw [takeChunk_eq, dropChunk, bitmap_setBit, if_neg]
    · exact taking.clear b free.2
    · rintro ⟨rfl, same⟩
      exact free.1 (by rw [same]; simp)
  bound b free := taking.bound b free.2

/-- A chunk that reaches out of the extent is split. -/
theorem split (tile : s (ord + 1) (start / 2 ^ (ord + 1))) (lt : start < fin) :
    Taking sb (splitChunk grp ord start) f
      (withTile (withTile (withoutTile s (ord + 1) (start / 2 ^ (ord + 1))) ord
        (2 * (start / 2 ^ (ord + 1)))) ord (2 * (start / 2 ^ (ord + 1)) + 1)) start fin where
  tiles := taking.tiles.split tile
  shows := by
    have positive := Nat.two_pow_pos ord
    -- the halves lie inside the chunk, so they are no chunks themselves
    have inside (i : Nat) (half : i / 2 = start / 2 ^ (ord + 1)) : i < sb.bits ∧ ¬ s ord i := by
      have whole : i * 2 ^ ord / 2 ^ (ord + 1) = start / 2 ^ (ord + 1) := by
        rw [div_two_pow_succ, first_div, half]
      have := taking.bound _ (taking.tiles.inside tile _ whole)
      refine ⟨Nat.lt_of_le_of_lt (Nat.le_mul_of_pos_right i positive) this, fun own => ?_⟩
      have := (taking.tiles.eq own tile (first_div ord i) whole).1
      omega
    have left := inside (2 * (start / 2 ^ (ord + 1))) (by omega)
    have right := inside (2 * (start / 2 ^ (ord + 1)) + 1) (by omega)
    have := taking.bound start (taking.tiles.inside tile start rfl)
    rw [splitChunk_eq]
    refine ((taking.shows.dropChunk ?_ tile).placeChunk left.1 ?_).placeChunk right.1 ?_
    · exact Nat.lt_of_le_of_lt (Nat.div_le_self _ _) this
    · exact fun own => left.2 own.2
    rintro (same | own)
    · omega
    · exact right.2 own.2
  rest := taking.rest
  halves k lt' j left right := by
    by_cases new : k = ord ∧ j = start / 2 ^ (ord + 1)
    · exact ⟨start, Nat.le_refl start, lt, by rw [new.1, new.2]⟩
    rcases left with same | same | left
    · omega
    · omega
    rcases right with same | same | right
    · omega
    · omega
    · exact taking.halves k lt' j left.2 right.2
  clear b free := by
    rw [bitmap_splitChunk]
    split
    · rfl
    · exact taking.clear b free
  bound := taking.bound

theorem index_lt {i : Nat} (tile : s ord i) : i < sb.sMbMaxs ord := by
  have order := taking.tiles.order tile
  rw [sb.sMbMaxs_eq order]
  refine tile_index_lt order ?_
  have pos := Nat.two_pow_pos ord
  have size := succ_mul_two_pow i ord
  have := taking.bound _ (taking.tiles.inside tile ((i + 1) * 2 ^ ord - 1)
    (div_eq_iff_range.mpr (by omega)))
  omega

/-- A split does not change the bitmap, where the two blocks are free already. -/
theorem bitmap_split (tile : s (ord + 1) (start / 2 ^ (ord + 1))) :
    (splitChunk grp ord start).bitmap = grp.bitmap := by
  funext b
  rw [bitmap_splitChunk]
  split
  next blocks =>
    refine (taking.clear b (taking.tiles.inside tile b ?_)).symm
    rw [div_two_pow_succ, blocks.1, Nat.pow_zero]
    rw [blocks.1] at blocks
    omega
  · rfl

end

end Taking

theorem markUsedLoop_spec {sb : Ext4Sb} (fuel : Nat) {f : Nat → Prop}
    {s : Tiling} {start len : Nat} (ret : Nat) (taking : Taking sb grp f s start (start + len))
    (enough : len * (sb.blkbits + 3) < fuel)
    (more : ∀ k, s k (start / 2 ^ k) → 0 < len → len * (sb.blkbits + 3) + k < fuel) :
    ∃ ret' grp', markUsedLoop sb fuel grp start len ret = some (ret', grp') ∧
      Touched grp grp' ∧
      Shows sb.bits grp' (Maximal (sb.blkbits + 1) fun b => ¬ (start ≤ b ∧ b < start + len) ∧ f b) ∧
      ∀ b, ¬ (start ≤ b ∧ b < start + len) → grp'.bitmap b = grp.bitmap b := by
  induction fuel generalizing grp f s start len ret with
  | zero => omega
  | succ fuel ih =>
    rw [markUsedLoop]
    by_cases done : len = 0
    · subst done
      have reduced : Reduced (sb.blkbits + 1) s := by
        rintro k lt j ⟨left, right⟩
        obtain ⟨b, low, high, _⟩ := taking.halves k lt j left right
        omega
      refine ⟨ret, grp, rfl, .refl grp, ?_, fun b _ => rfl⟩
      have same : (fun b => ¬ (start ≤ b ∧ b < start + 0) ∧ f b) = f := by
        funext b
        exact propext ⟨fun h => h.2, fun h => ⟨by omega, h⟩⟩
      rw [same]
      exact taking.shows.congr rfl rfl fun k i => (taking.tiles.iff_maximal reduced k i).symm
    rw [if_neg done]
    obtain ⟨ord, tile⟩ := taking.tiles.covers (taking.rest start (Nat.le_refl _) (by omega))
    have found := mbFindOrderForBlock_eq taking.tiles taking.shows.clear tile
    have budget := more ord tile (by omega)
    simp only [found]
    by_cases whole : start >>> ord <<< ord = start ∧ len ≥ 2 ^ ord
    · have aligned : 2 ^ ord ∣ start := by
        refine Dvd.intro_left (start / 2 ^ ord) ?_
        rw [← Nat.shiftLeft_eq, ← Nat.shiftRight_eq_div_pow, whole.1]
      have sum : start + 2 ^ ord + (len - 2 ^ ord) = start + len := by omega
      have size := Nat.mul_le_mul_right (sb.blkbits + 3) (show len - 2 ^ ord + 1 ≤ len by omega)
      rw [Nat.add_mul] at size
      have taken := taking.take tile aligned (by omega)
      rw [if_pos whole, if_neg (by
        rw [Nat.shiftRight_eq_div_pow]
        exact Nat.not_le.mpr (taking.index_lt tile))]
      obtain ⟨ret', grp', res, touched, shows, frame⟩ := ih ret (by rwa [sum]) (by omega)
        (fun k tile' _ => by have := taken.tiles.order tile'; omega)
      have same : (fun b => ¬ (start + 2 ^ ord ≤ b ∧ b < start + 2 ^ ord + (len - 2 ^ ord)) ∧
          b / 2 ^ ord ≠ start / 2 ^ ord ∧ f b) =
          fun b => ¬ (start ≤ b ∧ b < start + len) ∧ f b := by
        funext b
        have inside := div_eq_aligned aligned b
        refine propext ⟨fun h => ⟨by omega, h.2.2⟩, fun h => ⟨by omega, by omega, h.2⟩⟩
      rw [same] at shows
      refine ⟨ret', grp', res, (touched_setBuddy grp ord _ (-1)).trans touched, shows,
        fun b out => ?_⟩
      rw [frame b (by omega), takeChunk_eq, dropChunk, bitmap_setBit, if_neg]
      rintro ⟨rfl, rfl⟩
      omega
    · rw [if_neg whole]
      cases ord with
      | zero => exact absurd ⟨by simp, by simp; omega⟩ whole
      | succ ord =>
        have halved := taking.split tile (by omega)
        have own : withTile (withTile (withoutTile s (ord + 1) (start / 2 ^ (ord + 1))) ord
            (2 * (start / 2 ^ (ord + 1)))) ord (2 * (start / 2 ^ (ord + 1)) + 1) ord
            (start / 2 ^ ord) := by
          rw [div_two_pow_succ]
          rcases Nat.mod_two_eq_zero_or_one (start / 2 ^ ord) with even | odd
          · exact .inr (.inl ⟨rfl, by omega⟩)
          · exact .inl ⟨rfl, by omega⟩
        obtain ⟨ret', grp', res, touched, shows, frame⟩ := ih
          (if ret = 0 then len ||| (ord + 1) <<< 16 else ret) halved (by omega)
          (fun k tile' _ => by have := halved.tiles.disjoint tile' own; omega)
        refine ⟨ret', grp', res, (touched_splitChunk grp ord start).trans touched, shows,
          fun b out => ?_⟩
        rw [frame b out, taking.bitmap_split tile]

/-- The buddy of a consistent group, where the extent is still to be taken. -/
theorem Consistent.taking {sb : Ext4Sb} (consistent : Consistent sb grp) {start len : Nat}
    (free : ∀ b, start ≤ b → b < start + len → grp.bitmap b = false) (grp' : BuddyGroup)
    (same : grp'.bitmap = grp.bitmap ∧ grp'.buddy = grp.buddy ∧ grp'.bbCounters = grp.bbCounters) :
    Taking sb grp' grp.Free (Maximal (sb.blkbits + 1) grp.Free) start (start + len) where
  tiles := tiles_maximal _ _
  shows := consistent.shows.congr same.2.1 same.2.2 fun _ _ => Iff.rfl
  rest := free
  halves k lt j left right := absurd ⟨left, right⟩ (reduced_maximal _ _ k lt j)
  clear b h := by rw [same.1, h]
  bound b h := Nat.lt_of_lt_of_le (consistent.padded.bound h) consistent.padded.le

/-- Allocating a free extent keeps the group consistent. -/
theorem Consistent.mbMarkUsed {sb : Ext4Sb} (consistent : Consistent sb grp) {start len : Nat}
    (pos : 0 < len) (free : ∀ b, start ≤ b → b < start + len → grp.bitmap b = false) :
    ∃ ret grp', mbMarkUsed sb grp start len = some (ret, grp') ∧ Consistent sb grp' ∧
      grp'.bitmap = withExtent grp.bitmap start len true ∧ grp'.corrupt = grp.corrupt := by
  have le := consistent.padded.le
  have inside := consistent.padded.bound (free (start + len - 1) (by omega) (by omega))
  rw [Fs.mbMarkUsed, sb.shiftLeft_three, if_neg (by omega)]
  dsimp only
  generalize hl : (decide (start ≠ 0) && !grp.bitmap (start - 1)) = left
  generalize hr : (decide (start + len < sb.sMbMaxs 0) && !grp.bitmap (start + len)) = right
  generalize before : addFragments _ left right (-1) = counted
  rw [addFragments_eq] at before
  have size := Nat.add_mul len 1 (sb.blkbits + 3)
  obtain ⟨ret, grp', res, touched, shows, frame⟩ := markUsedLoop_spec
    ((len + 1) * (sb.blkbits + 3)) 0
    (consistent.taking free counted (by rw [← before]; exact ⟨rfl, rfl, rfl⟩)) (by omega)
    (fun k tile _ => by have := tile.1; omega)
  have bitmap : ext4SetBits grp'.bitmap start len = withExtent grp.bitmap start len true := by
    funext b
    rw [ext4SetBits_eq, withExtent]
    split
    · rfl
    next out => rw [frame b out, ← before]
  -- the extent is used afterwards, and freeing it again would give the bitmap back
  have back : withExtent (withExtent grp.bitmap start len true) start len false = grp.bitmap := by
    funext b
    unfold withExtent
    grind
  have padded := consistent.padded.withExtent (show start + len ≤ sb.clustersPerGroup by omega) true
  have counts := @Padded.count_extent sb _ padded start len pos (by omega)
    (fun b low high => if_pos ⟨low, high⟩) left right
    (by rw [withExtent_true]; grind) (by rw [withExtent_true]; grind)
  rw [back] at counts
  have maximal : (fun b => withExtent grp.bitmap start len true b = false) =
      fun b => ¬ (start ≤ b ∧ b < start + len) ∧ grp.Free b :=
    funext fun b => propext (withExtent_true grp.bitmap start len b)
  rw [res]
  refine ⟨ret, _, rfl, .of_bitmap bitmap padded (shows.congr rfl rfl fun k i => by rw [maximal])
    ?_ ?_ ?_ rfl, bitmap, ?_⟩
  · show grp'.bbFree = _
    rw [touched, ← before]
    have : grp.bbFree = count sb.bits fun b => grp.bitmap b = false := consistent.free
    dsimp only
    omega
  · show grp'.bbFragments = _
    rw [touched, ← before]
    have : grp.bbFragments = count sb.bits (RunStart fun b => grp.bitmap b = false) :=
      consistent.fragments
    dsimp only
    omega
  · show ∀ b, _ → grp'.bbFirstFree ≤ b
    rw [touched, ← before]
    intro b h
    rw [withExtent_true] at h
    have := consistent.firstFree b h.2
    dsimp only
    split <;> omega
  · show grp'.corrupt = grp.corrupt
    rw [touched, ← before]

/-- Two tiles that follow each other: the tile of the first block behind a tile starts there. -/
theorem Tiles.next_start {top : Nat} {f : Nat → Prop} {s : Tiling} (tiles : Tiles top f s)
    {k l i : Nat} (tile : s k i) (next : s l ((i + 1) * 2 ^ k / 2 ^ l)) :
    (i + 1) * 2 ^ k / 2 ^ l * 2 ^ l = (i + 1) * 2 ^ k := by
  have size := succ_mul_two_pow i k
  have pos := Nat.two_pow_pos k
  have range := div_eq_iff_range.mp (Eq.refl ((i + 1) * 2 ^ k / 2 ^ l))
  by_contra ne
  -- the block in front would lie in both tiles
  have last : ((i + 1) * 2 ^ k - 1) / 2 ^ k = i := div_eq_iff_range.mpr (by omega)
  have both : ((i + 1) * 2 ^ k - 1) / 2 ^ l = (i + 1) * 2 ^ k / 2 ^ l :=
    div_eq_iff_range.mpr (by omega)
  obtain ⟨rfl, same⟩ := tiles.eq tile next last both
  rw [first_div] at same
  omega

section
variable {sb : Ext4Sb} {grp : BuddyGroup} (padded : Padded sb grp.bitmap)
  (clear : ∀ k i, grp.buddy k i = false ↔ 1 ≤ k ∧ Maximal (sb.blkbits + 1) grp.Free k i)
include padded clear

/-- The extent from `start` to the end of the chunk grows until it is long enough or a used block
follows. -/
theorem findExtentLoop_spec {needed start : Nat} (fuel : Nat) {order block feLen : Nat}
    (enough : needed ≤ feLen + fuel) (tile : Maximal (sb.blkbits + 1) grp.Free order block)
    (fin : start + feLen = (block + 1) * 2 ^ order)
    (free : ∀ b, start ≤ b → b < start + feLen → grp.Free b) :
    ∃ len, findExtentLoop sb grp needed fuel order block feLen = len ∧
      (∀ b, start ≤ b → b < start + len → grp.Free b) ∧ (needed ≤ len ∨ ¬ grp.Free (start + len)) := by
  induction fuel generalizing order block feLen with
  | zero => exact ⟨feLen, rfl, free, .inl enough⟩
  | succ fuel ih =>
    rw [findExtentLoop]
    split_ifs with more
    · rw [mbFindBuddy, if_neg (Nat.not_lt.mpr tile.1)]
      dsimp only
      by_cases last : block + 1 ≥ sb.sMbMaxs order
      · refine ⟨feLen, if_pos last, free, .inr fun at_ => ?_⟩
        have bound := padded.bound at_
        have le : sb.clustersPerGroup ≤ 2 ^ (sb.blkbits + 3) := padded.le
        rw [sb.sMbMaxs_eq tile.1] at last
        have size := Nat.mul_le_mul_right (2 ^ order) last
        rw [← Nat.pow_add, Nat.sub_add_cancel (by have := tile.1; omega)] at size
        exact absurd size (by omega)
      rw [if_neg last]
      by_cases used : grp.bitmap ((block + 1) * 2 ^ order) = true
      · refine ⟨feLen, if_pos used, free, .inr fun at_ => ?_⟩
        rw [BuddyGroup.Free, fin, used] at at_
        cases at_
      have tiles := tiles_maximal (sb.blkbits + 1) grp.Free
      obtain ⟨k, next⟩ := tiles.covers (by simpa using used)
      have starts := Tiles.next_start tiles tile next
      have size := succ_mul_two_pow ((block + 1) * 2 ^ order / 2 ^ k) k
      rw [if_neg used, mbFindOrderForBlock_eq tiles clear next, Nat.shiftRight_eq_div_pow]
      refine ih (by have := Nat.two_pow_pos k; omega) next (by omega) fun b low high => ?_
      by_cases old : b < start + feLen
      · exact free b low old
      · exact next.2.1 b (div_eq_iff_range.mpr (by omega))
    · exact ⟨feLen, rfl, free, .inl (by omega)⟩

theorem mbFindExtent_spec {block : Nat} (needed : Nat) (at_ : grp.Free block) :
    ∃ len, mbFindExtent sb grp block needed = some (block, len) ∧
      block + len ≤ sb.clustersPerGroup ∧ (∀ b, block ≤ b → b < block + len → grp.Free b) ∧
      (needed ≤ len ∨ ¬ grp.Free (block + len)) := by
  have tiles := tiles_maximal (sb.blkbits + 1) grp.Free
  obtain ⟨k, tile⟩ := tiles.covers at_
  have range := div_eq_iff_range.mp (Eq.refl (block / 2 ^ k))
  have size := succ_mul_two_pow (block / 2 ^ k) k
  obtain ⟨len, loop, free, long⟩ := findExtentLoop_spec padded clear needed (Nat.le_add_left ..) tile
    (show block + (2 ^ k - (block - block / 2 ^ k * 2 ^ k)) = _ by omega)
    fun b low high => tile.2.1 b (div_eq_iff_range.mpr (by omega))
  have le : sb.clustersPerGroup ≤ 2 ^ (sb.blkbits + 3) := padded.le
  have bound := padded.bound at_
  have inside : block + len ≤ sb.clustersPerGroup := by
    by_contra far
    have := padded.bound (free (block + len - 1) (by omega) (by omega))
    omega
  refine ⟨len, ?_, inside, free, long⟩
  have here : block / 2 ^ k * 2 ^ k + (block - block / 2 ^ k * 2 ^ k) = block := by omega
  simp only [mbFindExtent, sb.sMbMaxs_eq (Nat.zero_le _), mbFindOrderForBlock_eq tiles clear tile,
    Nat.shiftRight_eq_div_pow, Nat.shiftLeft_eq, loop, at_, here, Nat.sub_zero]
  rw [if_neg (by omega), if_neg Bool.false_ne_true, if_neg (by omega)]

end

end Linux318.Source.Fs
