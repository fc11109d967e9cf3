import Linux318.Source.Ext4.Extents

/-!
Sequences of extents, judged by their map of blocks: what a merge keeps, and how far a change of
a few extents shows through the whole sequence.
-/
namespace Linux318.Source.Ext4
open List

variable {unwritten : Bool} {lblk : Nat}

section Lengths

variable {ex ex' : Extent}

theorem isUnwritten_iff : isUnwritten ex = true ↔ initMaxLen < ex.eeLen := decide_eq_true_iff

theorem Extent.Valid.len (valid : ex.Valid) : 1 ≤ actualLen ex ∧ actualLen ex ≤ initMaxLen ∧
    (isUnwritten ex = true → actualLen ex < initMaxLen) := by
  obtain ⟨pos, bound⟩ := valid
  rw [isUnwritten_iff, actualLen, initMaxLen]
  split_ifs with plain
  · omega
  · omega

variable {len : Nat}

theorem plain_len (block pblock : Nat) (le : len ≤ initMaxLen) :
    actualLen ⟨block, len, pblock⟩ = len ∧ isUnwritten ⟨block, len, pblock⟩ = false := by
  simp only [actualLen, isUnwritten, if_pos le, decide_eq_false_iff_not, true_and]
  omega

theorem markUnwritten_eq (block pblock : Nat) (pos : 1 ≤ len) (lt : len < initMaxLen) :
    ∃ ex, markUnwritten ⟨block, len, pblock⟩ = some ex ∧ ex.eeBlock = block ∧ ex.pblock = pblock ∧
      actualLen ex = len ∧ isUnwritten ex = true ∧ ex.Valid := by
  have low : len &&& (initMaxLen - 1) = len := by
    rw [initMaxLen] at lt ⊢
    rw [Nat.and_two_pow_sub_one_eq_mod, Nat.mod_eq_of_lt lt]
  have sum : initMaxLen ||| len = initMaxLen + len := (Nat.two_pow_add_eq_or_of_lt lt 1).symm ▸ by
    simp [initMaxLen]
  rw [markUnwritten]
  rw [low, if_neg (by omega)]
  refine ⟨_, rfl, rfl, rfl, ?_, ?_, ?_⟩
  · rw [actualLen, if_neg (by dsimp only; omega)]
    dsimp only
    omega
  · rw [isUnwritten_iff]
    dsimp only
    omega
  · rw [Extent.Valid]
    dsimp only
    rw [initMaxLen] at *
    omega

theorem markIf_eq (mark : Bool) (block pblock : Nat) (pos : 1 ≤ len)
    (le : len ≤ initMaxLen) (lt : mark = true → len < initMaxLen) :
    ∃ ex, markIf mark ⟨block, len, pblock⟩ = some ex ∧ ex.eeBlock = block ∧ ex.pblock = pblock ∧
      actualLen ex = len ∧ isUnwritten ex = mark ∧ ex.Valid := by
  cases mark with
  | true => exact markUnwritten_eq block pblock pos (lt rfl)
  | false =>
    obtain ⟨actual, plain⟩ := plain_len block pblock le
    refine ⟨_, rfl, rfl, rfl, actual, plain, pos, ?_⟩
    dsimp only
    rw [initMaxLen] at le
    omega

end Lengths

variable {pblk : Nat} {a b : Extent}

section Sequences

variable {xs ys zs : List Extent} {low high : Nat}

theorem maps_append : Maps (xs ++ ys) lblk pblk unwritten ↔
      Maps xs lblk pblk unwritten ∨ Maps ys lblk pblk unwritten := by
  simp only [Maps, mem_append, or_and_right, exists_or]

theorem chain_append : Chain low (xs ++ ys) high ↔ ∃ mid, Chain low xs mid ∧ Chain mid ys high := by
  induction xs generalizing low with
  | nil =>
    constructor
    · exact fun chain => ⟨low, le_rfl, chain⟩
    rintro ⟨mid, le, chain⟩
    cases ys with
    | nil => exact le.trans chain
    | cons y ys => exact ⟨le.trans chain.1, chain.2⟩
  | cons x xs ih =>
    simp only [cons_append, Chain, ih]
    constructor
    · rintro ⟨le, valid, mid, front, back⟩
      exact ⟨mid, ⟨le, valid, front⟩, back⟩
    · rintro ⟨mid, ⟨le, valid, front⟩, back⟩
      exact ⟨le, valid, mid, front, back⟩

theorem Chain.bounds (chain : Chain low xs high) : ∀ ex ∈ xs, low ≤ ex.eeBlock ∧ ex.Valid ∧
    ex.blockEnd ≤ high := by
  induction xs generalizing low with
  | nil => simp
  | cons x xs ih =>
    obtain ⟨le, valid, rest⟩ := chain
    have step : x.eeBlock ≤ x.blockEnd := Nat.le_add_right _ _
    refine forall_mem_cons.mpr ⟨⟨le, valid, ?_⟩, fun ex mem => ?_⟩
    · cases xs with
      | nil => exact rest
      | cons y ys =>
        obtain ⟨first, -, last⟩ := ih rest y mem_cons_self
        have : y.eeBlock ≤ y.blockEnd := Nat.le_add_right _ _
        omega
    · obtain ⟨first, rest⟩ := ih rest ex mem
      exact ⟨by omega, rest⟩

/-- The extents have the blocks of others, with the same state. -/
structure Same (extents extents' : List Extent) : Prop where
  chain {low high : Nat} : Chain low extents high → Chain low extents' high
  maps {low high : Nat} : Chain low extents high → ∀ lblk pblk unwritten,
    Maps extents' lblk pblk unwritten ↔ Maps extents lblk pblk unwritten

theorem Same.refl (xs : List Extent) : Same xs xs := ⟨id, fun _ _ _ _ => Iff.rfl⟩

theorem Same.trans (first : Same xs ys) (second : Same ys zs) : Same xs zs :=
  ⟨fun chain => second.chain (first.chain chain), fun chain lblk pblk unwritten => by
    rw [second.maps (first.chain chain), first.maps chain]⟩

theorem Same.frame (pre post : List Extent) (same : Same xs ys) :
    Same (pre ++ xs ++ post) (pre ++ ys ++ post) := by
  refine ⟨fun chain => ?_, fun chain lblk pblk unwritten => ?_⟩
  · obtain ⟨mid', front, back⟩ := chain_append.mp chain
    obtain ⟨mid, front, inner⟩ := chain_append.mp front
    exact chain_append.mpr ⟨mid', chain_append.mpr ⟨mid, front, same.chain inner⟩, back⟩
  · obtain ⟨mid', front, -⟩ := chain_append.mp chain
    obtain ⟨mid, -, inner⟩ := chain_append.mp front
    simp only [maps_append, same.maps inner]

/-- A block is in one extent. -/
theorem Chain.unique (chain : Chain low xs high) (inA : a ∈ xs) (inB : b ∈ xs)
    (coversA : a.eeBlock ≤ lblk ∧ lblk < a.blockEnd)
    (coversB : b.eeBlock ≤ lblk ∧ lblk < b.blockEnd) : a = b := by
  induction xs generalizing low with
  | nil => simp at inA
  | cons x xs ih =>
    obtain ⟨-, -, rest⟩ := chain
    have behind := rest.bounds
    rcases mem_cons.mp inA with isA | inA
    · rcases mem_cons.mp inB with isB | inB
      · rw [isA, isB]
      have := (behind b inB).1
      rw [isA] at coversA
      omega
    · rcases mem_cons.mp inB with isB | inB
      · have := (behind a inA).1
        rw [isB] at coversB
        omega
      · exact ih rest inA inB

end Sequences

theorem maps_one {ex : Extent} :
    Maps [ex] lblk pblk unwritten ↔ ex.eeBlock ≤ lblk ∧ lblk < ex.eeBlock + actualLen ex ∧
      pblk = ex.pblock + (lblk - ex.eeBlock) ∧ unwritten = isUnwritten ex := by
  simp only [Maps, mem_singleton, exists_eq_left, Extent.blockEnd]

structure Abut (a b : Extent) : Prop where
  block : a.eeBlock + actualLen a = b.eeBlock
  pblock : a.pblock + actualLen a = b.pblock

theorem Abut.maps (abut : Abut a b) :
    Maps [a, b] lblk pblk unwritten ↔ a.eeBlock ≤ lblk ∧ lblk < b.eeBlock + actualLen b ∧
      pblk = a.pblock + (lblk - a.eeBlock) ∧
      unwritten = if lblk < b.eeBlock then isUnwritten a else isUnwritten b := by
  have block := abut.block
  have pblock := abut.pblock
  have pair : [a, b] = [a] ++ [b] := rfl
  rw [pair, maps_append, maps_one, maps_one]
  split_ifs with lt
  · constructor
    · rintro (⟨le, -, eq, state⟩ | ⟨le, -⟩)
      · exact ⟨le, by omega, eq, state⟩
      · omega
    · rintro ⟨le, -, eq, state⟩
      exact .inl ⟨le, by omega, eq, state⟩
  · constructor
    · rintro (⟨le, high, -⟩ | ⟨le, high, eq, state⟩)
      · omega
      · exact ⟨by omega, by omega, by omega, state⟩
    · rintro ⟨le, high, eq, state⟩
      exact .inr ⟨by omega, by omega, by omega, state⟩

structure JoinOf (a b ex : Extent) : Prop where
  block : ex.eeBlock = a.eeBlock
  pblock : ex.pblock = a.pblock
  len : actualLen ex = actualLen a + actualLen b
  state : isUnwritten ex = isUnwritten a ∧ isUnwritten b = isUnwritten a
  abuts : Abut a b
  valid : ex.Valid

theorem JoinOf.same {ex : Extent} (join : JoinOf a b ex) : Same [a, b] [ex] := by
  have block := join.abuts.block
  refine ⟨?_, fun _ lblk pblk unwritten => ?_⟩
  · rintro low high ⟨le, -, mid, -, top⟩
    simp only [Chain, Extent.blockEnd, join.block, join.len] at mid top ⊢
    exact ⟨le, join.valid, by omega⟩
  · rw [maps_one, join.abuts.maps, join.block, join.pblock, join.len, join.state.1, join.state.2,
      ite_self, ← block, Nat.add_assoc]

/-- Two extents that can be merged map what one does. -/
theorem mergeTwo_join {busy : Bool} (valid : a.Valid)
    (can : canExtentsBeMerged busy a b = true) : ∃ ex, mergeTwo a b = some ex ∧ JoinOf a b ex := by
  rw [canExtentsBeMerged] at can
  split at can
  · simp at can
  next state =>
  split at can
  · simp at can
  next block =>
  split at can
  · simp at can
  split at can
  · simp at can
  next marked =>
  have pblock : a.pblock + actualLen a = b.pblock := of_decide_eq_true can
  have lenA := valid.len.1
  have lt : isUnwritten a = true → actualLen a + actualLen b < initMaxLen := by
    intro unwritten
    rw [unwrittenMaxLen] at marked
    by_contra not
    exact marked ⟨unwritten, .inr (by omega)⟩
  obtain ⟨ex, eq, isBlock, isPblock, len, isState, valid⟩ :=
    markIf_eq (isUnwritten a) a.eeBlock a.pblock (show 1 ≤ actualLen a + actualLen b by omega)
      (by omega) lt
  exact ⟨ex, eq, isBlock, isPblock, len, ⟨isState, (not_not.mp state).symm⟩,
    ⟨not_not.mp block, pblock⟩, valid⟩

theorem tryToMergeRight_same (busy : Bool) {ex : Extent} {right : List Extent} (valid : ex.Valid)
    (valids : ∀ e ∈ right, e.Valid) : ∃ extents done,
      tryToMergeRight busy ex right = some (extents, done) ∧ Same (ex :: right) extents ∧
        (done = false → extents = ex :: right) := by
  induction right generalizing ex with
  | nil => exact ⟨[ex], false, rfl, .refl _, fun _ => rfl⟩
  | cons next rest ih =>
    obtain ⟨validNext, valids⟩ := forall_mem_cons.mp valids
    rw [tryToMergeRight]
    split_ifs with can
    · obtain ⟨merged, eq, join⟩ := mergeTwo_join valid can
      obtain ⟨extents, done, eq', same, -⟩ := ih join.valid valids
      rw [eq, Option.bind_some, eq']
      refine ⟨extents, true, rfl, ?_, by simp⟩
      have step := join.same.frame [] rest
      exact step.trans same
    · exact ⟨_, false, rfl, .refl _, fun _ => rfl⟩

/-- Merging keeps the map of blocks. -/
theorem tryToMerge_same (busy : Bool) {left right : List Extent} {ex : Extent}
    (valids : ∀ e ∈ left ++ ex :: right, e.Valid) :
    ∃ leaf, tryToMerge busy left ex right = some leaf ∧ Same (left ++ ex :: right) leaf := by
  obtain ⟨validLeft, validRight⟩ := forall_mem_append.mp valids
  obtain ⟨valid, validRest⟩ := forall_mem_cons.mp validRight
  obtain ⟨extents, done, eq, same, -⟩ := tryToMergeRight_same busy valid validRest
  rw [tryToMerge]
  cases last : left.getLast? with
  | none =>
    rw [List.getLast?_eq_none_iff.mp last, eq]
    exact ⟨extents, rfl, same⟩
  | some prev =>
    obtain ⟨front, rfl⟩ := List.getLast?_eq_some_iff.mp last
    obtain ⟨extents', done', eq', same', unmerged⟩ := tryToMergeRight_same busy
      (validLeft prev (by simp)) validRight
    dsimp only
    rw [eq']
    cases done' with
    | true =>
      have whole := same'.frame front []
      simpa using whole
    | false =>
      rw [eq]
      have whole := same.frame (front ++ [prev]) []
      simpa using whole

end Linux318.Source.Ext4
