import Linux318.Source.Ext4.ExtentMaps

/-!
How `ext4_split_extent_at` can end: the state of the extent is set, or it is split, or all of it
is zeroed and initialized, or nothing happens to it.
-/
namespace Linux318.Source.Ext4

variable {path : ExtPath} {split : Nat}

/-- The blocks stay where they are, and only those of a range or zeroed ones become
initialized. -/
structure Turns (low high : Nat) (zero : Nat → Prop) (xs ys : List Extent) : Prop where
  chain {a b : Nat} : Chain a xs b → Chain a ys b
  mapped {a b : Nat} : Chain a xs b → ∀ lblk pblk,
    (∃ unwritten, Maps ys lblk pblk unwritten) ↔ ∃ unwritten, Maps xs lblk pblk unwritten
  reveals {a b : Nat} : Chain a xs b → ∀ lblk pblk, Maps ys lblk pblk false →
    Maps xs lblk pblk false ∨ (low ≤ lblk ∧ lblk < high) ∨ zero pblk

section Turns

variable {low high : Nat} {zero : Nat → Prop} {xs ys zs : List Extent}

/-- Nothing turns where the map stays the same. -/
theorem Same.turns (same : Same xs ys) : Turns low high zero xs ys :=
  ⟨same.chain, fun chain lblk pblk => by simp only [same.maps chain],
    fun chain lblk pblk maps => .inl ((same.maps chain lblk pblk false).mp maps)⟩

theorem Turns.mono {zero' : Nat → Prop} (grows : ∀ pblk, zero pblk → zero' pblk)
    (turns : Turns low high zero xs ys) : Turns low high zero' xs ys :=
  ⟨turns.chain, turns.mapped, fun chain lblk pblk maps =>
    (turns.reveals chain lblk pblk maps).imp_right (Or.imp_right (grows pblk))⟩

theorem Turns.trans (first : Turns low high zero xs ys) (second : Turns low high zero ys zs) :
    Turns low high zero xs zs := by
  refine ⟨fun chain => second.chain (first.chain chain), fun chain lblk pblk => ?_,
    fun chain lblk pblk maps => ?_⟩
  · rw [second.mapped (first.chain chain), first.mapped chain]
  rcases second.reveals (first.chain chain) lblk pblk maps with maps | shown
  · exact first.reveals chain lblk pblk maps
  · exact .inr shown

/-- The extents around a change do not matter. -/
theorem Turns.frame (pre post : List Extent) (turns : Turns low high zero xs ys) :
    Turns low high zero (pre ++ xs ++ post) (pre ++ ys ++ post) := by
  have inner {a b : Nat} (chain : Chain a (pre ++ xs ++ post) b) : ∃ c d, Chain c xs d := by
    obtain ⟨d, front, -⟩ := chain_append.mp chain
    obtain ⟨c, -, inner⟩ := chain_append.mp front
    exact ⟨c, d, inner⟩
  refine ⟨fun chain => ?_, fun chain lblk pblk => ?_, fun chain lblk pblk maps => ?_⟩
  · obtain ⟨d, front, back⟩ := chain_append.mp chain
    obtain ⟨c, front, inner⟩ := chain_append.mp front
    exact chain_append.mpr ⟨d, chain_append.mpr ⟨c, front, turns.chain inner⟩, back⟩
  · obtain ⟨c, d, inner⟩ := inner chain
    simp only [maps_append, exists_or, turns.mapped inner]
  obtain ⟨c, d, inner⟩ := inner chain
  simp only [maps_append] at maps ⊢
  rcases maps with (maps | maps) | maps
  · exact .inl (.inl (.inl maps))
  · rcases turns.reveals inner lblk pblk maps with maps | shown
    · exact .inl (.inl (.inr maps))
    · exact .inr shown
  · exact .inl (.inr maps)

end Turns

structure SameSpan (ex ex' : Extent) : Prop where
  block : ex'.eeBlock = ex.eeBlock
  pblock : ex'.pblock = ex.pblock
  len : actualLen ex' = actualLen ex
  valid : ex'.Valid

structure Halves (ex : Extent) (split : Nat) (a b : Extent) : Prop where
  block : a.eeBlock = ex.eeBlock ∧ b.eeBlock = split
  pblock : a.pblock = ex.pblock ∧ b.pblock = ex.pblock + (split - ex.eeBlock)
  len : actualLen a = split - ex.eeBlock ∧ actualLen b = actualLen ex - (split - ex.eeBlock)
  inside : ex.eeBlock ≤ split ∧ split < ex.blockEnd
  valid : a.Valid ∧ b.Valid

section OneExtent

variable {low high : Nat} {zero : Nat → Prop} {ex ex' a b : Extent}

theorem SameSpan.turns (span : SameSpan ex ex')
    (shown : isUnwritten ex = true → isUnwritten ex' = false → ∀ lblk, ex.eeBlock ≤ lblk →
      lblk < ex.blockEnd → (low ≤ lblk ∧ lblk < high) ∨ zero (ex.pblock + (lblk - ex.eeBlock))) :
    Turns low high zero [ex] [ex'] := by
  refine ⟨fun chain => ?_, fun chain lblk pblk => ?_, fun chain lblk pblk => ?_⟩
  · obtain ⟨le, -, top⟩ := chain
    refine ⟨by rw [span.block]; exact le, span.valid, ?_⟩
    rwa [Extent.blockEnd, span.block, span.len]
  · simp [maps_one, span.block, span.pblock, span.len]
  rw [maps_one, maps_one, span.block, span.pblock, span.len]
  rintro ⟨le, lt, rfl, state⟩
  cases old : isUnwritten ex with
  | false => exact .inl ⟨le, lt, rfl, rfl⟩
  | true => exact .inr (shown old state.symm lblk le lt)

theorem Halves.maps (halves : Halves ex split a b) {lblk pblk : Nat} {unwritten : Bool} :
    Maps [a, b] lblk pblk unwritten ↔ ex.eeBlock ≤ lblk ∧ lblk < ex.eeBlock + actualLen ex ∧
      pblk = ex.pblock + (lblk - ex.eeBlock) ∧
      unwritten = if lblk < split then isUnwritten a else isUnwritten b := by
  have inside := halves.inside
  rw [Extent.blockEnd] at inside
  have abut : Abut a b := by
    refine ⟨?_, ?_⟩
    · rw [halves.block.1, halves.block.2, halves.len.1]
      omega
    · rw [halves.pblock.1, halves.pblock.2, halves.len.1]
  rw [abut.maps, halves.block.1, halves.block.2, halves.pblock.1, halves.len.2,
    show split + (actualLen ex - (split - ex.eeBlock)) = ex.eeBlock + actualLen ex by omega]

/-- Only the second half may turn, in the range. -/
theorem Halves.turns (halves : Halves ex split a b)
    (first : isUnwritten ex = true → isUnwritten a = true)
    (second : isUnwritten ex = true → isUnwritten b = false → low ≤ split ∧ ex.blockEnd ≤ high) :
    Turns low high zero [ex] [a, b] := by
  have inside := halves.inside
  refine ⟨fun chain => ?_, fun chain lblk pblk => ?_, fun chain lblk pblk => ?_⟩
  · obtain ⟨le, -, top⟩ := chain
    simp only [Chain, Extent.blockEnd] at top inside ⊢
    rw [halves.block.1, halves.block.2, halves.len.1, halves.len.2]
    exact ⟨le, halves.valid.1, by omega, halves.valid.2, by omega⟩
  · simp [halves.maps, maps_one]
  rw [halves.maps, maps_one]
  rintro ⟨le, lt, rfl, state⟩
  cases old : isUnwritten ex with
  | false => exact .inl ⟨le, lt, rfl, rfl⟩
  | true =>
    rw [first old] at state
    by_cases before : lblk < split
    · simp [before] at state
    rw [if_neg before] at state
    obtain ⟨lowLe, highLe⟩ := second old state.symm
    rw [Extent.blockEnd] at highLe
    exact .inr (.inl ⟨by omega, by omega⟩)

end OneExtent

def ExtPath.around (path : ExtPath) (mid : List Extent) : List Extent :=
  (path.before.flatten ++ path.left) ++ mid ++ (path.right ++ path.after.flatten)

theorem withLeaf_flatten (path : ExtPath) (leaf : List Extent) :
    (path.withLeaf leaf).flatten = path.before.flatten ++ leaf ++ path.after.flatten := by
  simp [ExtPath.withLeaf]

theorem withLeaf_one (path : ExtPath) (ex : Extent) :
    (path.withLeaf (path.left ++ ex :: path.right)).flatten = path.around [ex] := by
  simp [withLeaf_flatten, ExtPath.around]

/-- The tree is the extent and what is around it. -/
theorem leaves_around (path : ExtPath) : path.leaves.flatten = path.around [path.ex] := by
  rw [ExtPath.leaves, withLeaf_one]

/-- An error may come back although the state was set: the buffer is marked dirty last. -/
inductive SplitEnds (path : ExtPath) (split : Nat) (flags : SplitFlags) (preIo : Bool) (w : World) :
    Nat → World → Prop where
  | restated {ex' : Extent} {err : Nat} {w' : World} (atStart : split = path.ex.eeBlock)
      (span : SameSpan path.ex ex') (state : isUnwritten ex' = flags.markUnwrit2)
      (same : Same (path.around [ex']) w'.extents) (zeroed : w'.zeroed = w.zeroed) :
      SplitEnds path split flags preIo w err w'
  | halved {a b : Extent} {w' : World} (halves : Halves path.ex split a b)
      (state : isUnwritten a = flags.markUnwrit1 ∧ isUnwritten b = flags.markUnwrit2)
      (same : Same (path.around [a, b]) w'.extents)
      (kept : preIo = true → w'.extents = path.around [a, b]) (zeroed : w'.zeroed = w.zeroed) :
      SplitEnds path split flags preIo w 0 w'
  | blanked {ex' : Extent} {w' : World} (span : SameSpan path.ex ex')
      (state : isUnwritten ex' = false) (same : Same (path.around [ex']) w'.extents)
      (zeroed : w'.zeroed = (path.ex.pblock, actualLen path.ex) :: w.zeroed) :
      SplitEnds path split flags preIo w 0 w'
  | failed {err : Nat} {w' : World} (error : err ≠ 0) (same : w'.extents = path.around [path.ex])
      (zeroed : w'.zeroed = w.zeroed) : SplitEnds path split flags preIo w err w'

/-- A merge in a leaf keeps the map of the tree. -/
theorem tryToMerge_around (busy : Bool) (path : ExtPath) {ex' : Extent}
    (valids : ∀ e ∈ path.left ++ ex' :: path.right, e.Valid) :
    ∃ leaf, tryToMerge busy path.left ex' path.right = some leaf ∧
      Same (path.around [ex']) (path.withLeaf leaf).flatten := by
  obtain ⟨leaf, eq, same⟩ := tryToMerge_same busy valids
  refine ⟨leaf, eq, ?_⟩
  have whole := same.frame path.before.flatten path.after.flatten
  rw [withLeaf_flatten]
  simpa [ExtPath.around] using whole

theorem chain_valid {low high : Nat} {ex' : Extent} (chain : Chain low (path.around [path.ex]) high)
    (valid : ex'.Valid) : ∀ e ∈ path.left ++ ex' :: path.right, e.Valid := by
  have all := chain.bounds
  intro e mem
  rcases List.mem_append.mp mem with inLeft | mem
  · exact (all e (by simp [ExtPath.around, inLeft])).2.1
  rcases List.mem_cons.mp mem with rfl | inRight
  · exact valid
  · exact (all e (by simp [ExtPath.around, inRight])).2.1

theorem initialized_span {ex : Extent} (valid : ex.Valid) :
    SameSpan ex (markInitialized ex) ∧ isUnwritten (markInitialized ex) = false := by
  have len := valid.len
  obtain ⟨actual, plain⟩ := plain_len ex.eeBlock ex.pblock len.2.1
  refine ⟨⟨rfl, rfl, actual, len.1, ?_⟩, plain⟩
  rw [initMaxLen] at len
  rw [markInitialized]
  dsimp only
  omega

theorem markUnwritten_marked {ex : Extent} (valid : ex.Valid) (state : isUnwritten ex = true) :
    markUnwritten ex = some ex := by
  have raw := isUnwritten_iff.mp state
  have bound := valid.2
  rw [initMaxLen] at raw
  obtain ⟨r, eq⟩ : ∃ r, ex.eeLen = 2 ^ 15 + r := ⟨ex.eeLen - 2 ^ 15, by omega⟩
  have lt : r < 2 ^ 15 := by omega
  have bits : ex.eeLen = 2 ^ 15 ||| r := by
    rw [eq]
    exact Nat.two_pow_add_eq_or_of_lt lt 1 ▸ by simp
  have marked : initMaxLen ||| ex.eeLen = ex.eeLen := by
    rw [bits, initMaxLen, ← Nat.or_assoc, Nat.or_self]
  rw [markUnwritten, marked, initMaxLen, Nat.and_two_pow_sub_one_eq_mod, if_neg (by omega)]

section Insert

variable {env : InsertEnv} {w : World} {new : Extent}

/-- Wherever the new extent is put, it stands between the same extents. -/
theorem insertPlace_sides (n : Nat) (behind : ∀ e ∈ path.right, new.eeBlock ≤ e.eeBlock) :
    (insertPlace env n path new).before.flatten ++ (insertPlace env n path new).left =
        path.before.flatten ++ (path.left ++ [path.ex]) ∧
      (insertPlace env n path new).right ++ (insertPlace env n path new).after.flatten =
        path.right ++ path.after.flatten := by
  have fresh : ∀ place : LeafPlace, (env.newLeaf n place).before.flatten ++ (env.newLeaf n place).left =
      place.before.flatten ++ place.left ∧ (env.newLeaf n place).right ++
        (env.newLeaf n place).after.flatten = place.right ++ place.after.flatten :=
    fun place => ⟨env.newLeaf_front n place, env.newLeaf_back n place⟩
  rw [insertPlace]
  split
  · exact ⟨rfl, rfl⟩
  split
  · next last => simpa [last] using fresh ⟨path.before, path.left ++ [path.ex], path.right, path.after⟩
  next next rest eq =>
  split_ifs with room
  · -- an extent that starts behind all of its leaf has none to its right
    have none : path.right = [] := by
      by_contra some
      have last := behind _ (List.getLast_mem some)
      rw [List.getLastD_eq_getLast?, List.getLast?_eq_getLast_of_ne_nil some] at room
      exact absurd room.1 (Nat.not_lt.mpr last)
    simp [none, eq]
  · simpa [eq] using fresh ⟨path.before, path.left ++ [path.ex], path.right, path.after⟩

/-- An insertion puts the extent behind that of the path, up to merges. -/
theorem insertExtent_same (preIo : Bool) (done : env.insertErr w.inserts = 0)
    (valids : ∀ e ∈ path.around [path.ex, new], e.Valid)
    (behind : ∀ e ∈ path.right, new.eeBlock ≤ e.eeBlock) :
    ∃ w', insertExtent env w path new preIo = some (0, w') ∧ w'.zeroed = w.zeroed ∧
      Same (path.around [path.ex, new]) w'.extents ∧
      (preIo = true → w'.extents = path.around [path.ex, new]) := by
  obtain ⟨front, back⟩ := insertPlace_sides w.inserts behind
  rw [insertExtent]
  generalize insertPlace env w.inserts path new = place at *
  have around : path.around [path.ex, new] =
      place.before.flatten ++ (place.left ++ new :: place.right) ++ place.after.flatten := by
    rw [List.append_assoc, List.append_assoc, List.cons_append, back, ← List.append_assoc, front]
    simp [ExtPath.around]
  rw [if_neg (not_not.mpr done)]
  cases preIo with
  | true =>
    refine ⟨_, rfl, rfl, ?_⟩
    have whole : (place.withLeaf (place.left ++ new :: place.right)).flatten =
        path.around [path.ex, new] := by
      simp [LeafPlace.withLeaf, around]
    simp only [World.extents, whole]
    exact ⟨.refl _, fun _ => trivial⟩
  | false =>
    rw [if_neg Bool.false_ne_true]
    split
    · next can =>
      have valid : path.ex.Valid := valids _ (by simp [ExtPath.around])
      obtain ⟨merged, eq, join⟩ := mergeTwo_join valid can
      obtain ⟨leaf, eq', same⟩ := @tryToMerge_same env.unwrittenBusy path.left path.right
        merged fun e mem => by
        rcases List.mem_append.mp mem with inLeft | mem
        · exact valids e (by simp [ExtPath.around, inLeft])
        rcases List.mem_cons.mp mem with rfl | inRight
        · exact join.valid
        · exact valids e (by simp [ExtPath.around, inRight])
      rw [eq, Option.bind_some, eq']
      refine ⟨_, rfl, rfl, ?_, nofun⟩
      have whole := same.frame path.before.flatten path.after.flatten
      have joined := join.same.frame (path.before.flatten ++ path.left)
        (path.right ++ path.after.flatten)
      rw [World.extents, withLeaf_flatten]
      exact joined.trans (by simpa [ExtPath.around] using whole)
    · obtain ⟨leaf, eq, same⟩ := @tryToMerge_same env.unwrittenBusy place.left place.right
        new fun e mem => valids e (by
          rw [around]
          exact List.mem_append_left _ (List.mem_append_right _ mem))
      rw [eq]
      refine ⟨_, rfl, rfl, ?_, nofun⟩
      have whole := same.frame place.before.flatten place.after.flatten
      rw [around]
      simpa [World.extents, LeafPlace.withLeaf] using whole

end Insert

section SplitAt

variable {env : InsertEnv} {w : World} {flags : SplitFlags} {preIo : Bool}
  (ok : ExtentsOk (path.around [path.ex]))
include ok

theorem behind_extent {block : Nat} (le : block ≤ path.ex.blockEnd) {e : Extent}
    (mem : e ∈ path.right) : block ≤ e.eeBlock := by
  obtain ⟨mid, front, back⟩ := chain_append.mp ok
  have upto := (front.bounds path.ex (by simp)).2.2
  have from_ := (back.bounds e (List.mem_append_left _ mem)).1
  omega

theorem Halves.valids {a b : Extent} (halves : Halves path.ex split a b) :
    ∀ e ∈ path.around [a, b], e.Valid := by
  have all := ok.bounds
  intro e mem
  simp only [ExtPath.around, List.mem_append, List.mem_cons, List.not_mem_nil, or_false] at mem
  rcases mem with (mem | rfl | rfl) | mem
  · exact (all e (by simp only [ExtPath.around, List.mem_append, mem, true_or])).2.1
  · exact halves.valid.1
  · exact halves.valid.2
  · exact (all e (by simp only [ExtPath.around, List.mem_append, mem, or_true])).2.1

/-- Case b: the state of the whole extent is set. -/
theorem restate_ends (plain : isUnwritten path.ex = false → flags.markUnwrit2 = false) (err : Nat) :
    ∃ w', ((if flags.markUnwrit2 = true then markUnwritten path.ex
        else some (markInitialized path.ex)).bind fun ex =>
      (if preIo = true then some (path.left ++ ex :: path.right)
        else tryToMerge env.unwrittenBusy path.left ex path.right).map fun leaf =>
          (err, { w with leaves := path.withLeaf leaf })) = some (err, w') ∧
      SplitEnds path path.ex.eeBlock flags preIo w err w' := by
  have valid : path.ex.Valid := (ok.bounds path.ex (by simp [ExtPath.around])).2.1
  obtain ⟨ex', eq, span, state⟩ : ∃ ex', (if flags.markUnwrit2 = true then markUnwritten path.ex
      else some (markInitialized path.ex)) = some ex' ∧ SameSpan path.ex ex' ∧
        isUnwritten ex' = flags.markUnwrit2 := by
    cases mark : flags.markUnwrit2 with
    | true =>
      -- an extent that is to be marked is marked already
      have state : isUnwritten path.ex = true := by
        by_contra not
        simp [plain (by simpa using not)] at mark
      exact ⟨path.ex, markUnwritten_marked valid state, ⟨rfl, rfl, rfl, valid⟩, state⟩
    | false =>
      obtain ⟨span, state⟩ := initialized_span valid
      exact ⟨_, rfl, span, state⟩
  rw [eq, Option.bind_some]
  cases preIo with
  | true =>
    refine ⟨_, rfl, .restated rfl span state ?_ rfl⟩
    rw [World.extents, withLeaf_one]
    exact .refl _
  | false =>
    obtain ⟨leaf, merged, same⟩ := tryToMerge_around env.unwrittenBusy path
      (chain_valid ok span.valid)
    simp only [merged]
    exact ⟨_, rfl, .restated rfl span state same rfl⟩

end SplitAt

/-- Every call ends in one of these ways. -/
theorem splitExtentAt_ends (env : InsertEnv) (w : World) (split : Nat) (flags : SplitFlags)
    (preIo : Bool) (clean : ∀ n, env.blankErr n = 0) (ok : ExtentsOk (path.around [path.ex]))
    (here : w.extents = path.around [path.ex])
    (noData : flags.dataValid1 = false ∧ flags.dataValid2 = false)
    (inside : path.ex.eeBlock ≤ split ∧ split < path.ex.blockEnd)
    (plain : isUnwritten path.ex = false → flags.mayZeroout = false ∧ flags.markUnwrit1 = false ∧
      flags.markUnwrit2 = false) :
    ∃ err w', splitExtentAt env w path split flags preIo = some (err, w') ∧
      SplitEnds path split flags preIo w err w' := by
  have valid : path.ex.Valid := (ok.bounds path.ex (by simp [ExtPath.around])).2.1
  have len := valid.len
  rw [Extent.blockEnd] at inside
  have allowed : ¬(¬isUnwritten path.ex = true ∧
      (flags.mayZeroout = true ∨ flags.markUnwrit1 = true ∨ flags.markUnwrit2 = true)) := by
    rintro ⟨state, some⟩
    obtain ⟨no, no1, no2⟩ := plain (by simpa using state)
    simp [no, no1, no2] at some
  rw [splitExtentAt]
  rw [if_neg (by simp [noData.1]), if_neg (by omega), if_neg allowed]
  by_cases access : env.accessErr w.inserts ≠ 0
  · rw [if_pos access]
    exact ⟨_, _, rfl, .failed access here rfl⟩
  rw [if_neg access]
  by_cases atStart : split = path.ex.eeBlock
  · rw [if_pos atStart, atStart]
    obtain ⟨w', eq, ends⟩ := restate_ends ok (fun state => (plain state).2.2) (env.dirtyErr w.inserts)
    exact ⟨_, w', eq, ends⟩
  rw [if_neg atStart]
  obtain ⟨a, eqA, blockA, pblockA, lenA, stateA, validA⟩ :=
    markIf_eq flags.markUnwrit1 path.ex.eeBlock path.ex.pblock
      (show 1 ≤ split - path.ex.eeBlock by omega) (by omega) (fun mark => by
        omega)
  obtain ⟨b, eqB, blockB, pblockB, lenB, stateB, validB⟩ :=
    markIf_eq flags.markUnwrit2 split (split - path.ex.eeBlock + path.ex.pblock)
      (show 1 ≤ actualLen path.ex - (split - path.ex.eeBlock) by omega) (by omega) (fun mark => by
        omega)
  have halves : Halves path.ex split a b :=
    ⟨⟨blockA, blockB⟩, ⟨pblockA, by omega⟩, ⟨lenA, lenB⟩, inside, validA, validB⟩
  rw [eqA, Option.bind_some]
  by_cases dirty : env.dirtyErr w.inserts ≠ 0
  · rw [if_pos dirty]
    exact ⟨_, _, rfl, .failed dirty (leaves_around path) rfl⟩
  rw [if_neg dirty]
  rw [eqB, Option.bind_some]
  by_cases done : env.insertErr w.inserts = 0
  · obtain ⟨w', eq, zeroed, same, kept⟩ := @insertExtent_same { path with ex := a } env w b preIo done
      (halves.valids ok) fun e mem => blockB.le.trans (behind_extent ok inside.2.le mem)
    rw [eq, Option.bind_some]
    exact ⟨0, w', by simp [enospc], .halved halves ⟨stateA, stateB⟩ same kept zeroed⟩
  rw [insertExtent, if_pos done, Option.bind_some]
  dsimp only
  by_cases blanks : env.insertErr w.inserts = enospc ∧ flags.mayZeroout = true
  · rw [if_pos blanks]
    simp only [noData.1, noData.2, zeroout]
    by_cases zeroes : env.zeroErr w.zeroouts = 0
    · rw [if_neg (not_not.mpr zeroes)]
      obtain ⟨actual, state⟩ := plain_len path.ex.eeBlock path.ex.pblock len.2.1
      have shape : ({ a with eeLen := actualLen path.ex } : Extent) =
          ⟨path.ex.eeBlock, actualLen path.ex, path.ex.pblock⟩ := by
        rw [← blockA, ← pblockA]
      have span : SameSpan path.ex ⟨path.ex.eeBlock, actualLen path.ex, path.ex.pblock⟩ :=
        (initialized_span valid).1
      obtain ⟨leaf, merged, same⟩ := tryToMerge_around env.unwrittenBusy path
        (chain_valid ok span.valid)
      rw [shape, merged]
      simp only [clean]
      exact ⟨0, _, rfl, .blanked span state same rfl⟩
    · rw [if_pos zeroes]
      rw [if_pos zeroes]
      exact ⟨_, _, rfl, .failed zeroes (leaves_around path) rfl⟩
  · rw [if_neg blanks, if_pos done]
    exact ⟨_, _, rfl, .failed done (leaves_around path) rfl⟩

end Linux318.Source.Ext4
