import Linux318.Source.Ext4.SplitExtent

/-!
`ext4_ext_convert_to_initialized` of `fs/ext4/extents.c` shows no stale blocks: whatever fails,
a block that becomes initialized is in the range that is written or was zeroed before.
-/
namespace Linux318.Guarantees.Ext4Convert
open Source.Ext4
open ExtPath (around)

variable {low high pblk lblk mLblk mLen : Nat} {leaves : List (List Extent)} {path : ExtPath}
  {zero : Nat → Prop}

/-- A step that keeps the blocks and shows only those of a range and zeroed ones -/
structure Safe (low high : Nat) (w w' : World) : Prop where
  zeroed {pblk : Nat} : w.Zeroed pblk → w'.Zeroed pblk
  turns : Turns low high w'.Zeroed w.extents w'.extents

theorem Safe.refl (low high : Nat) (w : World) : Safe low high w w := ⟨id, (Same.refl _).turns⟩

theorem Safe.trans {w w' w'' : World} (first : Safe low high w w')
    (second : Safe low high w' w'') : Safe low high w w'' :=
  ⟨fun zero => second.zeroed (first.zeroed zero),
    (first.turns.mono fun _ => second.zeroed).trans second.turns⟩

/-- The blocks of a wider range may be zeroed ones. -/
theorem Turns.narrow {low' high' : Nat} {xs ys : List Extent} (turns : Turns low high zero xs ys)
    (others : ∀ lblk pblk, low ≤ lblk → lblk < high → ¬(low' ≤ lblk ∧ lblk < high') →
      (∃ unwritten, Maps xs lblk pblk unwritten) → zero pblk) : Turns low' high' zero xs ys := by
  refine ⟨turns.chain, turns.mapped, fun chain lblk pblk maps => ?_⟩
  rcases turns.reveals chain lblk pblk maps with old | ⟨lowLe, highLt⟩ | zero
  · exact .inl old
  · by_cases inside : low' ≤ lblk ∧ lblk < high'
    · exact .inr (.inl inside)
    · exact .inr (.inr (others lblk pblk lowLe highLt inside
        ((turns.mapped chain lblk pblk).mp ⟨false, maps⟩)))
  · exact .inr (.inr zero)

theorem Zeroed.of_eq {w w' : World} (eq : w'.zeroed = w.zeroed) (zero : w.Zeroed pblk) :
    w'.Zeroed pblk := by
  rwa [World.Zeroed, eq]

theorem Zeroed.cons {w w' : World} {range : Nat × Nat} (eq : w'.zeroed = range :: w.zeroed)
    (zero : w.Zeroed pblk) : w'.Zeroed pblk := by
  obtain ⟨r, mem, rest⟩ := zero
  exact ⟨r, by rw [eq]; exact List.mem_cons_of_mem _ mem, rest⟩

section Split

variable {w w' : World} {path : ExtPath} {split err : Nat} {flags : SplitFlags} {preIo : Bool}

theorem SplitEnds.safe (ends : SplitEnds path split flags preIo w err w')
    (here : w.extents = path.around [path.ex])
    (state : isUnwritten path.ex = true → flags.markUnwrit1 = true ∧
      (flags.markUnwrit2 = false → low ≤ split ∧ path.ex.blockEnd ≤ high)) :
    Safe low high w w' := by
  cases ends with
  | restated atStart span isState same zeroed =>
    refine ⟨Zeroed.of_eq zeroed, ?_⟩
    rw [here]
    refine Turns.trans (Turns.frame _ _ (span.turns fun old new lblk le lt => .inl ?_)) same.turns
    obtain ⟨lowLe, highLe⟩ := (state old).2 (isState.symm.trans new)
    exact ⟨by omega, by omega⟩
  | halved halves isState same _ zeroed =>
    refine ⟨Zeroed.of_eq zeroed, ?_⟩
    rw [here]
    refine Turns.trans (Turns.frame _ _ (halves.turns (fun old => ?_) fun old new => ?_)) same.turns
    · exact isState.1.trans (state old).1
    · exact (state old).2 (isState.2.symm.trans new)
  | blanked span isState same zeroed =>
    refine ⟨Zeroed.cons zeroed, ?_⟩
    rw [here]
    refine Turns.trans (Turns.frame _ _ (span.turns fun _ _ lblk le lt => .inr ?_)) same.turns
    rw [Extent.blockEnd] at lt
    refine ⟨_, by rw [zeroed]; exact List.mem_cons_self, ?_, ?_⟩
    · omega
    · omega
  | failed _ same zeroed =>
    refine ⟨Zeroed.of_eq zeroed, ?_⟩
    rw [here, same]
    exact (Same.refl _).turns

/-- After the first split the extent of a block below it ends there, or is initialized. -/
theorem SplitEnds.ready {m : Nat} (ends : SplitEnds path split flags true w 0 w')
    (ok : ExtentsOk (path.around [path.ex]))
    (le : path.ex.eeBlock ≤ m) (lt : m < split) (inside : split < path.ex.blockEnd) :
    ∃ e ∈ w'.extents, (e.eeBlock ≤ m ∧ m < e.blockEnd) ∧
      (isUnwritten e = false ∨ e.blockEnd ≤ split) := by
  cases ends with
  | restated atStart => omega
  | @halved a b _ halves _ _ kept _ =>
    have ends : a.blockEnd = split := by
      rw [Extent.blockEnd, halves.block.1, halves.len.1]
      omega
    refine ⟨a, ?_, ⟨by rw [halves.block.1]; exact le, by omega⟩, .inr (by omega)⟩
    rw [kept rfl]
    simp [around]
  | @blanked ex' _ span state same _ =>
    have anywhere : Turns 0 0 (fun _ => True) [path.ex] [ex'] :=
      span.turns fun _ _ _ _ _ => .inr trivial
    have chain : Chain 0 (path.around [ex']) maxBlocks := (anywhere.frame _ _).chain ok
    have mapped : Maps (path.around [ex']) m (ex'.pblock + (m - ex'.eeBlock)) false := by
      refine ⟨ex', by simp [around], ?_, ?_, rfl, state.symm⟩
      · rw [span.block]
        exact le
      rw [Extent.blockEnd, span.block, span.len]
      rw [Extent.blockEnd] at inside
      omega
    obtain ⟨e, mem, low, high, -, isState⟩ := (same.maps chain _ _ _).mpr mapped
    exact ⟨e, mem, ⟨low, high⟩, .inl isState.symm⟩
  | failed error => exact absurd rfl error

end Split

theorem binsearch_none {leaf : List Extent} (chain : Chain low leaf high)
    (none : binsearch lblk leaf = none) : ∀ e ∈ leaf, lblk < e.eeBlock := by
  cases leaf with
  | nil => simp
  | cons ex rest =>
    rw [binsearch] at none
    split at none
    · next lt =>
      obtain ⟨-, -, rest⟩ := chain
      refine List.forall_mem_cons.mpr ⟨lt, fun e mem => ?_⟩
      have := (rest.bounds e mem).1
      have : ex.eeBlock ≤ ex.blockEnd := Nat.le_add_right _ _
      omega
    · split at none <;> simp at none

theorem binsearch_some {leaf left right : List Extent} {ex : Extent}
    (chain : Chain low leaf high) (found : binsearch lblk leaf = some (left, ex, right)) :
    leaf = left ++ ex :: right ∧ ex.eeBlock ≤ lblk ∧ ∀ e ∈ right, lblk < e.eeBlock := by
  induction leaf generalizing low left with
  | nil => simp [binsearch] at found
  | cons first rest ih =>
    rw [binsearch] at found
    split at found
    · simp at found
    · obtain ⟨-, -, chain⟩ := chain
      split at found
      · next eq =>
        obtain ⟨rfl, rfl, rfl⟩ := found
        obtain ⟨split, here, behind⟩ := ih chain eq
        exact ⟨by rw [split, List.cons_append], here, behind⟩
      · next eq =>
        obtain ⟨rfl, rfl, rfl⟩ := found
        exact ⟨rfl, by omega, binsearch_none chain eq⟩

theorem findExtent_none (chain : Chain low leaves.flatten high)
    (none : findExtent lblk leaves = none) : ∀ e ∈ leaves.flatten, lblk < e.eeBlock := by
  induction leaves generalizing low with
  | nil => simp
  | cons leaf rest ih =>
    obtain ⟨mid, front, back⟩ := chain_append.mp (List.flatten_cons ▸ chain)
    rw [findExtent] at none
    split at none
    · simp at none
    next noRest =>
    split at none
    · simp at none
    next noLeaf =>
    exact List.forall_mem_append.mpr ⟨binsearch_none front noLeaf, ih back noRest⟩

/-- The last extent that starts at or before the block. -/
theorem findExtent_some
    (chain : Chain low leaves.flatten high) (found : findExtent lblk leaves = some path) :
    path.leaves = leaves ∧ path.ex.eeBlock ≤ lblk ∧
      ∀ e ∈ path.right ++ path.after.flatten, lblk < e.eeBlock := by
  induction leaves generalizing low path with
  | nil => simp [findExtent] at found
  | cons leaf rest ih =>
    obtain ⟨mid, front, back⟩ := chain_append.mp (List.flatten_cons ▸ chain)
    rw [findExtent] at found
    split at found
    · next inner eq =>
      obtain rfl := Option.some.inj found
      obtain ⟨leaves, here, behind⟩ := ih back eq
      refine ⟨?_, here, behind⟩
      rw [← leaves]
      rfl
    next noRest =>
    split at found
    · next eq =>
      obtain rfl := Option.some.inj found
      obtain ⟨split, here, behind⟩ := binsearch_some front eq
      refine ⟨?_, here, List.forall_mem_append.mpr ⟨behind, findExtent_none back noRest⟩⟩
      rw [split]
      rfl
    · simp at found

/-- The search finds the extent that holds the block. -/
theorem findExtent_covers {e : Extent} (ok : ExtentsOk leaves.flatten) (mem : e ∈ leaves.flatten)
    (covers : e.eeBlock ≤ lblk ∧ lblk < e.blockEnd) :
    ∃ path, findExtent lblk leaves = some path ∧ path.leaves = leaves ∧ path.ex = e := by
  cases found : findExtent lblk leaves with
  | none =>
    have := findExtent_none ok found e mem
    omega
  | some path =>
    obtain ⟨eq, here, behind⟩ := findExtent_some ok found
    refine ⟨path, rfl, eq, ?_⟩
    rw [← eq, leaves_around] at ok mem
    have whole : path.around [path.ex] = (path.before.flatten ++ path.left) ++
        path.ex :: (path.right ++ path.after.flatten) := by
      simp [around]
    rw [whole] at ok mem
    obtain ⟨mid, front, back⟩ := chain_append.mp ok
    rcases List.mem_append.mp mem with inFront | inBack
    · have := (front.bounds e inFront).2.2
      have := back.1
      omega
    rcases List.mem_cons.mp inBack with rfl | inRest
    · rfl
    · have := behind e inRest
      omega

/-- Every end of a split is safe. -/
theorem splitExtent_safe (env : InsertEnv) (clean : ∀ n, env.blankErr n = 0) {w : World}
    (mayZeroout preIo : Bool) (ok : ExtentsOk w.extents) (here : w.extents = path.around [path.ex])
    (unwritten : isUnwritten path.ex = true) (pos : 1 ≤ mLen) (low : path.ex.eeBlock ≤ mLblk)
    (high : mLblk + mLen ≤ path.ex.blockEnd) :
    ∃ err w', splitExtent env w path mLblk mLen ⟨mayZeroout, false, false, false, false⟩ preIo =
      some (err, w') ∧ Safe mLblk (mLblk + mLen) w w' := by
  have okHere : ExtentsOk (path.around [path.ex]) := here ▸ ok
  obtain ⟨err, w1, eq, safe1, ready⟩ : ∃ err w1,
      (if mLblk + mLen < path.ex.eeBlock + actualLen path.ex then
        splitExtentAt env w path (mLblk + mLen)
          ⟨mayZeroout, isUnwritten path.ex, isUnwritten path.ex, false, false⟩ true
        else some (0, w)) = some (err, w1) ∧ Safe mLblk (mLblk + mLen) w w1 ∧
        (err = 0 → ∃ e ∈ w1.extents, (e.eeBlock ≤ mLblk ∧ mLblk < e.blockEnd) ∧
          (isUnwritten e = false ∨ e.blockEnd ≤ mLblk + mLen)) := by
    by_cases more : mLblk + mLen < path.ex.eeBlock + actualLen path.ex
    · rw [if_pos more]
      obtain ⟨err, w1, eq, ends⟩ := splitExtentAt_ends env w (mLblk + mLen)
        ⟨mayZeroout, isUnwritten path.ex, isUnwritten path.ex, false, false⟩ true clean okHere here
        ⟨rfl, rfl⟩
        ⟨by omega, more⟩ (fun plain => by simp [plain] at unwritten)
      have safe : Safe mLblk (mLblk + mLen) w w1 := SplitEnds.safe ends here fun _ =>
        ⟨unwritten, fun no => by simp [unwritten] at no⟩
      refine ⟨err, w1, eq, safe, ?_⟩
      rintro rfl
      exact SplitEnds.ready ends okHere low (by omega) more
    · rw [if_neg more]
      refine ⟨0, w, rfl, .refl _ _ _, fun _ => ⟨path.ex, ?_, ⟨low, by omega⟩, .inr ?_⟩⟩
      · rw [here]
        simp [around]
      · rw [Extent.blockEnd]
        omega
  rw [splitExtent]
  rw [eq, Option.bind_some]
  dsimp only
  by_cases fails : err ≠ 0
  · rw [if_pos fails]
    exact ⟨err, w1, rfl, safe1⟩
  rw [if_neg fails]
  by_cases search : env.findErr ≠ 0
  · rw [if_pos search]
    exact ⟨_, w1, rfl, safe1⟩
  rw [if_neg search]
  obtain ⟨e, mem, covers, bounded⟩ := ready (by omega)
  have ok1 : ExtentsOk w1.extents := safe1.turns.chain ok
  obtain ⟨path', found, leaves, rfl⟩ := findExtent_covers ok1 mem covers
  rw [found]
  dsimp only
  rw [if_pos low]
  have here1 : w1.extents = path'.around [path'.ex] := by
    rw [World.extents, ← leaves, leaves_around]
  obtain ⟨err', w2, eq', ends⟩ := splitExtentAt_ends env w1 mLblk
    ⟨isUnwritten path'.ex && mayZeroout, isUnwritten path'.ex, isUnwritten path'.ex && false,
      false, false⟩ preIo clean (here1 ▸ ok1) here1 ⟨rfl, rfl⟩ covers (fun plain => by simp [plain])
  rw [eq']
  refine ⟨err', w2, rfl, safe1.trans (SplitEnds.safe ends here1 fun old => ⟨old, fun _ => ?_⟩)⟩
  refine ⟨le_rfl, ?_⟩
  rcases bounded with plain | le
  · simp [plain] at old
  · exact le

/-- The boundary between two extents moves, over blocks of a range. -/
theorem turns_shift {a b a' b' : Extent} (abut : Abut a b) (abut' : Abut a' b')
    (start : a'.eeBlock = a.eeBlock ∧ a'.pblock = a.pblock)
    (last : b'.eeBlock + actualLen b' = b.eeBlock + actualLen b) (valid : a'.Valid ∧ b'.Valid)
    (state : isUnwritten a' = isUnwritten a ∧ isUnwritten b' = isUnwritten b)
    (moves : ∀ lblk, (lblk < b.eeBlock ∧ b'.eeBlock ≤ lblk ∨ b.eeBlock ≤ lblk ∧ lblk < b'.eeBlock) →
      low ≤ lblk ∧ lblk < high) : Turns low high zero [a, b] [a', b'] := by
  refine ⟨?_, fun _ lblk pblk => ?_, fun _ lblk pblk => ?_⟩
  · rintro c d ⟨le, -, -, -, top⟩
    simp only [Chain, Extent.blockEnd] at top ⊢
    have := abut'.block
    exact ⟨by omega, valid.1, by omega, valid.2, by omega⟩
  · simp [abut.maps, abut'.maps, start.1, start.2, last]
  rw [abut.maps, abut'.maps, start.1, start.2, last, state.1, state.2]
  rintro ⟨le, lt, rfl, isState⟩
  by_cases stays : lblk < b.eeBlock ↔ lblk < b'.eeBlock
  · refine .inl ⟨le, lt, rfl, ?_⟩
    simp only [stays]
    exact isState
  · exact .inr (.inl (moves lblk (by omega)))

section Transfer

variable {path : ExtPath} {mapLen : Nat}

section
variable (ok : ExtentsOk (path.around [path.ex])) (unwritten : isUnwritten path.ex = true)
  (pos : 1 ≤ mapLen) (short : mapLen < actualLen path.ex)
include ok unwritten pos short

theorem transferLeft_turns :
    transferLeft path mapLen = some none ∨ ∃ leaf, transferLeft path mapLen = some (some leaf) ∧
      ∀ zero, Turns path.ex.eeBlock (path.ex.eeBlock + mapLen) zero (path.around [path.ex])
        (path.withLeaf leaf).flatten := by
  have all := ok.bounds
  have len := (all path.ex (by simp [around])).2.1.len
  rw [transferLeft]
  cases last : path.left.getLast? with
  | none => exact .inl rfl
  | some abut =>
    dsimp only
    split
    · next fits =>
      obtain ⟨plain, block, pblock, room⟩ := fits
      obtain ⟨front, left⟩ := List.getLast?_eq_some_iff.mp last
      obtain ⟨ex', eq, blockEx, pblockEx, lenEx, stateEx, validEx⟩ :=
        markUnwritten_eq (path.ex.eeBlock + mapLen) (path.ex.pblock + mapLen)
          (show 1 ≤ actualLen path.ex - mapLen by omega) (by omega)
      obtain ⟨actual, state⟩ := plain_len abut.eeBlock abut.pblock
        (show actualLen abut + mapLen ≤ initMaxLen by omega)
      rw [eq]
      refine .inr ⟨_, rfl, fun zero => ?_⟩
      have turns : Turns path.ex.eeBlock (path.ex.eeBlock + mapLen) zero [abut, path.ex]
          [⟨abut.eeBlock, actualLen abut + mapLen, abut.pblock⟩, ex'] := by
        rw [initMaxLen] at room
        refine turns_shift ⟨block, pblock⟩ ⟨?_, ?_⟩ ⟨rfl, rfl⟩ ?_ ⟨⟨?_, ?_⟩, validEx⟩
          ⟨by simpa [state] using plain, by rw [stateEx, unwritten]⟩ fun lblk moved => ?_
        any_goals dsimp only
        all_goals omega
      have whole := turns.frame (path.before.flatten ++ front) (path.right ++ path.after.flatten)
      rw [withLeaf_flatten]
      simpa [around, left] using whole
    · exact .inl rfl

theorem transferRight_turns (ends : mLblk + mapLen = path.ex.eeBlock + actualLen path.ex) :
    transferRight path (mLblk + mapLen) mapLen = some none ∨
      ∃ leaf, transferRight path (mLblk + mapLen) mapLen = some (some leaf) ∧
        ∀ zero, Turns mLblk (mLblk + mapLen) zero (path.around [path.ex])
          (path.withLeaf leaf).flatten := by
  have all := ok.bounds
  have len := (all path.ex (by simp [around])).2.1.len
  rw [transferRight]
  cases right : path.right with
  | nil => exact .inl rfl
  | cons abut rest =>
    dsimp only
    split
    · next fits =>
      obtain ⟨plain, block, pblock, room⟩ := fits
      have lenAbut := (all abut (by simp [around, right])).2.1.len
      obtain ⟨ex', eq, blockEx, pblockEx, lenEx, stateEx, validEx⟩ :=
        markUnwritten_eq path.ex.eeBlock path.ex.pblock
          (show 1 ≤ actualLen path.ex - mapLen by omega) (by omega)
      obtain ⟨actual, state⟩ := plain_len (abut.eeBlock - mapLen) (abut.pblock - mapLen)
        (show actualLen abut + mapLen ≤ initMaxLen by omega)
      rw [eq]
      refine .inr ⟨_, rfl, fun zero => ?_⟩
      have turns : Turns mLblk (mLblk + mapLen) zero [path.ex, abut]
          [ex', ⟨abut.eeBlock - mapLen, actualLen abut + mapLen, abut.pblock - mapLen⟩] := by
        rw [initMaxLen] at room
        refine turns_shift ⟨by omega, pblock⟩ ⟨?_, ?_⟩ ⟨blockEx, pblockEx⟩ ?_ ⟨validEx, ?_, ?_⟩
          ⟨by rw [stateEx, unwritten], by simpa [state] using plain⟩ fun lblk moved => ?_
        any_goals dsimp only at *
        all_goals omega
      have whole := turns.frame (path.before.flatten ++ path.left) (rest ++ path.after.flatten)
      rw [withLeaf_flatten]
      simpa [around, right] using whole
    · exact .inl rfl

end

/-- A transfer turns only blocks of the request. -/
theorem transfer_turns (mLblk : Nat) (ok : ExtentsOk (path.around [path.ex]))
    (unwritten : isUnwritten path.ex = true) (pos : 1 ≤ mapLen) :
    transfer path mLblk mapLen = some none ∨ ∃ leaf, transfer path mLblk mapLen = some (some leaf) ∧
      ∀ zero, Turns mLblk (mLblk + mapLen) zero (path.around [path.ex])
        (path.withLeaf leaf).flatten := by
  rw [transfer]
  split
  · next fits =>
    rw [fits.1]
    exact transferLeft_turns ok unwritten pos fits.2.1
  split
  · next fits => exact transferRight_turns ok unwritten pos fits.2.1 fits.1
  · exact .inl rfl

end Transfer

/-- A zero-out that succeeds leaves zeros. -/
theorem zeroout_ends (env : InsertEnv) (w : World) (pblock len : Nat) :
    (zeroout env w pblock len).2.leaves = w.leaves ∧
      ((zeroout env w pblock len).1 = 0 → ∀ pblk, pblock ≤ pblk → pblk < pblock + len →
        (zeroout env w pblock len).2.Zeroed pblk) := by
  rw [zeroout]
  split
  · next fails => exact ⟨rfl, fun zero => absurd zero fails⟩
  · exact ⟨rfl, fun _ pblk le lt => ⟨_, List.mem_cons_self, le, lt⟩⟩

/-- The physical block of a block of the path's extent -/
theorem maps_in_extent (ok : ExtentsOk (path.around [path.ex]))
    (low : path.ex.eeBlock ≤ lblk) (high : lblk < path.ex.blockEnd)
    (maps : ∃ unwritten, Maps (path.around [path.ex]) lblk pblk unwritten) :
    pblk = path.ex.pblock + (lblk - path.ex.eeBlock) := by
  obtain ⟨_, e, mem, le, lt, eq, -⟩ := maps
  have here : path.ex ∈ path.around [path.ex] := by simp [around]
  rw [ok.unique mem here ⟨le, lt⟩ ⟨low, high⟩] at eq
  exact eq

/-- What the choice of a range to split promises -/
structure SplitMapOk (path : ExtPath) (mLblk mLen : Nat) (w : World) (map : SplitMap) : Prop where
  leaves : map.world.leaves = w.leaves
  pos : 1 ≤ map.len
  low : path.ex.eeBlock ≤ map.lblk
  high : map.lblk + map.len ≤ path.ex.blockEnd
  others : map.err = 0 → ∀ lblk, map.lblk ≤ lblk → lblk < map.lblk + map.len →
    ¬(mLblk ≤ lblk ∧ lblk < mLblk + mLen) →
      map.world.Zeroed (path.ex.pblock + (lblk - path.ex.eeBlock))

/-- What is split beyond the request was zeroed. -/
theorem splitMap_ok (env : InsertEnv) {w : World} (maxZeroout : Nat)
    (pos : 1 ≤ mLen) (low : path.ex.eeBlock ≤ mLblk) (high : mLblk + mLen ≤ path.ex.blockEnd) :
    SplitMapOk path mLblk mLen w (splitMap env w path.ex mLblk mLen
      (actualLen path.ex - (mLblk - path.ex.eeBlock)) maxZeroout) := by
  have plain : SplitMapOk path mLblk mLen w
      ⟨0, w, mLblk, mLen, actualLen path.ex - (mLblk - path.ex.eeBlock)⟩ :=
    ⟨rfl, pos, low, high, fun _ lblk le lt out => absurd ⟨le, lt⟩ out⟩
  rw [splitMap]
  split
  swap
  · exact plain
  split
  · obtain ⟨leaves, zeroes⟩ := zeroout_ends env w (path.ex.pblock + mLblk - path.ex.eeBlock)
      (actualLen path.ex - (mLblk - path.ex.eeBlock))
    refine ⟨leaves, ?_, low, ?_, fun err lblk le lt out => zeroes err _ ?_ ?_⟩
    all_goals
      dsimp only [Extent.blockEnd] at *
      omega
  split
  swap
  · exact plain
  split_ifs with whole
  · obtain ⟨leaves, zeroes⟩ := zeroout_ends env w path.ex.pblock (mLblk - path.ex.eeBlock)
    refine ⟨leaves, ?_, le_rfl, ?_, fun err lblk le lt out => zeroes err _ ?_ ?_⟩
    all_goals
      dsimp only at *
      omega
  · refine ⟨rfl, ?_, le_rfl, ?_, fun _ lblk le lt out => absurd ?_ out⟩
    all_goals
      dsimp only at *
      omega

/-- The blocks after the call: none has moved, and one that was unwritten and is not now is in
the range or was zeroed. -/
structure NoStale (extents : List Extent) (mLblk mLen : Nat) (w' : World) : Prop where
  ok : ExtentsOk w'.extents
  mapped (lblk pblk : Nat) : (∃ unwritten, Maps w'.extents lblk pblk unwritten) ↔
    ∃ unwritten, Maps extents lblk pblk unwritten
  initialized {lblk pblk : Nat} : Maps extents lblk pblk true → Maps w'.extents lblk pblk false →
    (mLblk ≤ lblk ∧ lblk < mLblk + mLen) ∨ w'.Zeroed pblk

/-- A turn inside the request exposes nothing stale. -/
theorem noStale_of_turns {extents : List Extent} {w' : World} (ok : ExtentsOk extents)
    (turns : Turns mLblk (mLblk + mLen) w'.Zeroed extents w'.extents) :
    NoStale extents mLblk mLen w' := by
  refine ⟨turns.chain ok, turns.mapped ok, fun old new => ?_⟩
  rcases turns.reveals ok _ _ new with same | shown
  · obtain ⟨a, inA, lowA, highA, -, stateA⟩ := old
    obtain ⟨b, inB, lowB, highB, -, stateB⟩ := same
    rw [ok.unique inA inB ⟨lowA, highA⟩ ⟨lowB, highB⟩, ← stateB] at stateA
    simp at stateA
  · exact shown

/-- Insertions that run out of space, and a file without zero-out failures -/
def fullDisk : InsertEnv where
  insertErr _ := enospc
  zeroErr _ := 0
  accessErr _ := 0
  dirtyErr _ := 0
  blankErr _ := 0
  findErr := 0
  unwrittenBusy := false
  ehMax := 4
  newLeaf _ place := place
  newLeaf_front _ _ := rfl
  newLeaf_back _ _ := rfl

end Linux318.Guarantees.Ext4Convert
