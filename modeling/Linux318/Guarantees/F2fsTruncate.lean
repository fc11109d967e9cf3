import Linux318.Source.F2fs.NodeLoops
import Mathlib.Tactic.IntervalCases

/-!
# Truncation in f2fs

Source: fs/f2fs/node.c. Truncation of a file from the first block of a direct node on: the nodes
of the tail are freed once each, the pointers to them are cleared, and all else is kept. The
double indirect node is also freed if the truncation starts inside its first slot and that slot is
a hole.
-/
namespace Linux318.Guarantees
open List Source.F2fs

variable {p : List Nat} {b j i start : Nat} {path : NodePath}

/-- The first direct node at or below a place, counted from the first one of the file. -/
def firstDnode : List Nat → Nat
  | [b] => [0, 1, 2, 2 + nidsPerBlock].getD b (2 + 2 * nidsPerBlock)
  | [j, b] => if b = 4 then 2 + 2 * nidsPerBlock + j * nidsPerBlock
      else [0, 1, 2].getD b (2 + nidsPerBlock) + j
  | [j, i, _] => 2 + 2 * nidsPerBlock + i * nidsPerBlock + j
  | _ => 0

/-- The first block of the file that a place stands for. -/
def firstBlock (directIndex : Nat) (p : List Nat) : Nat :=
  directIndex + firstDnode p * addrsPerBlock

/-- The places that start at or behind a block. -/
def InTail (directIndex start : Nat) (p : List Nat) : Prop :=
  p ≠ [] ∧ start ≤ firstBlock directIndex p

/-- The places that are cut off: those of the tail, and the double indirect node if the tail
starts inside its first slot and nothing is there. -/
def IsCut (s : NodeState) (ino directIndex start : Nat) (p : List Nat) : Prop :=
  InTail directIndex start p ∨
    (p = [4] ∧ firstBlock directIndex [4] < start ∧ start < firstBlock directIndex [1, 4] ∧
      nidAt s ino [0, 4] = 0)

/-- The call succeeds; exactly the nodes at the places of `IsCut` are freed, each once, and exactly
the pointers to them are cleared. -/
def RemovesTail (s : NodeState) (ino directIndex start : Nat) : Prop :=
  ∃ s', truncateInodeBlocks ino directIndex s start = some (0, s') ∧
    Cut s s' ino (IsCut s ino directIndex start) (IsCut s ino directIndex start)

/-- The number of direct nodes that a file may have. -/
def dnodesPerFile : Nat := 2 + 2 * nidsPerBlock + nidsPerBlock * nidsPerBlock

section
variable {s : NodeState} {ino directIndex k : Nat}

/-- The places that are cut off, for the direct node with number `k`. -/
theorem isCut_iff : IsCut s ino directIndex (directIndex + k * addrsPerBlock) p ↔
    (p ≠ [] ∧ k ≤ firstDnode p) ∨ (p = [4] ∧ 2 + 2 * nidsPerBlock < k ∧ k < 2 + 3 * nidsPerBlock ∧
      nidAt s ino [0, 4] = 0) := by
  have le (n : Nat) : directIndex + k * addrsPerBlock ≤ directIndex + n * addrsPerBlock ↔ k ≤ n := by
    rw [addrsPerBlock]
    omega
  have lt (n : Nat) : directIndex + k * addrsPerBlock < directIndex + n * addrsPerBlock ↔ k < n := by
    rw [addrsPerBlock]
    omega
  have gt (n : Nat) : directIndex + n * addrsPerBlock < directIndex + k * addrsPerBlock ↔ n < k := by
    rw [addrsPerBlock]
    omega
  simp only [IsCut, InTail, firstBlock, le, lt, gt]
  rfl

theorem slotFrom_iff_tail {ofs : Nat} (place : IsPlace p) (lt : b < 5)
    (direct : b < 2 → ofs = 0) (bound : ofs < nidsPerBlock)
    (start : k = firstDnode [b] + (if b = 4 then ofs * nidsPerBlock else ofs)) :
    SlotFrom b ofs p ↔ p ≠ [] ∧ k ≤ firstDnode p := by
  rw [start]
  rw [nidsPerBlock] at bound
  rcases place.shape with rfl | ⟨c, rfl, small⟩ | ⟨j, c, rfl, bound', _, small⟩ | ⟨j, i, rfl, bound', _⟩
  · simp [SlotFrom]
  · interval_cases b <;> interval_cases c <;> simp [SlotFrom, firstDnode, nidsPerBlock] <;> omega
  · rw [nidsPerBlock] at bound'
    interval_cases b <;> interval_cases c <;> simp [SlotFrom, firstDnode, nidsPerBlock] <;> omega
  · rw [nidsPerBlock] at bound'
    interval_cases b <;> simp [SlotFrom, firstDnode, nidsPerBlock] <;> omega

theorem getNodePath_direct (directIndex : Nat) (lt : k < 2) : ∃ noffset,
    getNodePath directIndex (directIndex + k * addrsPerBlock) =
      some ⟨1, [nodeDir1Block + k, 0], noffset⟩ := by
  unfold getNodePath addrsPerBlock nidsPerBlock
  rcases (by omega : k = 0 ∨ k = 1) with rfl | rfl
  · simp
  · simp

theorem getNodePath_indirect (directIndex : Nat) (low : 2 ≤ b) (high : b < 4) (lt : j < nidsPerBlock)
    (eq : k = firstDnode [b] + j) : ∃ noffset,
    getNodePath directIndex (directIndex + k * addrsPerBlock) =
      some ⟨2, [nodeDir1Block + b, j, 0], noffset⟩ := by
  rw [nidsPerBlock] at lt
  rw [getNodePath, Nat.add_sub_cancel_left]
  unfold addrsPerBlock nidsPerBlock
  rcases (by omega : b = 2 ∨ b = 3) with rfl | rfl
  · simp only [firstDnode, nidsPerBlock, getD_cons_succ, getD_cons_zero] at eq
    refine ⟨[0, 3, 4 + j], ?_⟩
    rw [if_neg (by omega), if_neg (by omega), if_neg (by omega), if_pos (by omega)]
    rw [show (k * 1018 - 1018 - 1018) / 1018 = j by omega,
      show (k * 1018 - 1018 - 1018) % 1018 = 0 by omega]
  simp only [firstDnode, nidsPerBlock, getD_cons_succ, getD_cons_zero] at eq
  refine ⟨[0, 4 + 1018, 5 + 1018 + j], ?_⟩
  rw [if_neg (by omega), if_neg (by omega), if_neg (by omega), if_neg (by omega), if_pos (by omega)]
  rw [show (k * 1018 - 1018 - 1018 - 1018 * 1018) / 1018 = j by omega,
    show (k * 1018 - 1018 - 1018 - 1018 * 1018) % 1018 = 0 by omega]

/-- The path over both indirect levels. -/
theorem getNodePath_double (directIndex : Nat) (bound : i < nidsPerBlock) (lt : j < nidsPerBlock)
    (eq : k = 2 + 2 * nidsPerBlock + i * nidsPerBlock + j) : ∃ noffset,
    getNodePath directIndex (directIndex + k * addrsPerBlock) =
      some ⟨3, [nodeDir1Block + 4, i, j, 0], noffset⟩ := by
  rw [nidsPerBlock] at bound lt
  rw [nidsPerBlock] at eq
  rw [getNodePath, Nat.add_sub_cancel_left]
  unfold addrsPerBlock nidsPerBlock
  refine ⟨[0, 5 + 1018 * 2, 6 + 1018 * 2 + i * (1018 + 1), 7 + 1018 * 2 + i * (1018 + 1) + j], ?_⟩
  rw [if_neg (by omega), if_neg (by omega), if_neg (by omega), if_neg (by omega),
    if_neg (by omega), if_pos (by omega)]
  rw [show (k * 1018 - 1018 - 1018 - 1018 * 1018 - 1018 * 1018) / (1018 * 1018) = i by omega,
    show (k * 1018 - 1018 - 1018 - 1018 * 1018 - 1018 * 1018) / 1018 % 1018 = j by omega,
    show (k * 1018 - 1018 - 1018 - 1018 * 1018 - 1018 * 1018) % 1018 = 0 by omega]

theorem truncateInodeBlocks_skip (tree : TreeOk s ino)
    (found : getNodePath directIndex start = some path)
    (skip : path.level < 2 ∨ path.offset.getD (path.level - 1) 0 = 0) : ∃ nofs : Int, 0 ≤ nofs ∧
      truncateInodeBlocks ino directIndex s start = truncateSlots ino s path.offset nofs := by
  obtain ⟨page, read, _⟩ := (Cut.refl s ino).getNodePage (p := []) tree trivial id tree.inode
  have read : getNodePage s ino = .ok page := read
  refine ⟨_, ?_, by simp only [truncateInodeBlocks, found, read, if_pos skip]; rfl⟩
  split <;> omega

theorem truncateInodeBlocks_within (tree : TreeOk s ino)
    (found : getNodePath directIndex start = some path)
    (skip : ¬ (path.level < 2 ∨ path.offset.getD (path.level - 1) 0 = 0)) {err : Int}
    {offset : List Nat} {s' : NodeState}
    (call : truncatePartialNodes s ino path.offset path.level = (err, offset, s'))
    (goes : ¬ (err < 0 ∧ err ≠ -enoent)) : ∃ nofs : Int, 0 ≤ nofs ∧
      truncateInodeBlocks ino directIndex s start = truncateSlots ino s' offset nofs := by
  obtain ⟨page, read, _⟩ := (Cut.refl s ino).getNodePage (p := []) tree trivial id tree.inode
  have read : getNodePage s ino = .ok page := read
  refine ⟨_, ?_, by simp only [truncateInodeBlocks, found, read, if_neg skip, call, if_neg goes]; rfl⟩
  split <;> split <;> omega

/-- `truncate_partial_nodes` with a path that can be read. -/
theorem truncatePartialNodes_eq {offset : List Nat} (idx : Nat) {nid : Nat} {ret freed : Int}
    {s1 : NodeState} (some : getNid s ino (offset.getD 0 0 - nodeDir1Block) ≠ 0)
    (read : readPath s offset idx 0 (getNid s ino (offset.getD 0 0 - nodeDir1Block)) = .ok nid)
    (from' : offset.getD (idx + 1) 0 = start) (pos : start ≠ 0)
    (loop : dnodeLoop nid (nidsPerBlock - start) start 0 0 s = (ret, freed, s1)) (nonneg : 0 ≤ ret) :
    truncatePartialNodes s ino offset (idx + 2) =
      (ret, (offset.set idx (offset.getD idx 0 + 1)).set (idx + 1) 0, s1) := by
  simp only [truncatePartialNodes, Nat.add_sub_cancel, if_neg some, read, from', loop,
    if_neg (Int.not_lt.mpr nonneg), if_neg pos]

section
variable (tree : TreeOk s ino) (b ofs : Nat) (offset : List Nat) (lt : b < 5)
  (direct : b < 2 → ofs = 0) {nofs : Int} (nonneg : 0 ≤ nofs)
  (first : offset.getD 0 0 = nodeDir1Block + b) (second : offset.getD 1 0 = ofs)
include tree lt direct nonneg first second

/-- The loop over the slots cuts the rest of them. -/
theorem truncateSlots_cut {s1 : NodeState} {D C : List Nat → Prop} (cut : Cut s s1 ino D C)
    (fresh : SlotFresh b ofs D C) (later : ∀ q, SlotFrom (b + 1) 0 q → ¬ D q ∧ ¬ C q) :
    ∃ s', truncateSlots ino s1 offset nofs = some (0, s') ∧
      Cut s s' ino (fun q => D q ∨ SlotFrom b ofs q) (fun q => C q ∨ SlotFrom b ofs q) := by
  obtain ⟨s', res, cut'⟩ := slotLoop_cut tree (4 - b) (by omega) direct nonneg cut fresh later b
  refine ⟨s', ?_, cut'⟩
  rw [truncateSlots, ← res]
  congr 1
  omega

/-- The slots are cut off from an offset on, with nothing cut off before. -/
theorem truncateSlots_whole : ∃ s', truncateSlots ino s offset nofs = some (0, s') ∧
      Cut s s' ino (SlotFrom b ofs) (SlotFrom b ofs) := by
  obtain ⟨s', res, cut⟩ := truncateSlots_cut tree b ofs offset lt direct nonneg first second
    (Cut.refl s ino) ⟨id, id, id, fun _ _ => ⟨id, id⟩⟩ fun _ _ => ⟨id, id⟩
  refine ⟨s', res, cut.congr (fun q _ _ => ?_) fun q _ _ => ?_⟩
  all_goals rw [false_or]

end

theorem not_childFrom_nil (p : List Nat) (i : Nat) : ¬ ChildFrom p i [] := by
  rintro ⟨_, _, _, eq⟩
  cases eq

theorem slotFresh_of_later {D : List Nat → Prop} (inode : ¬ D [])
    (later : ∀ q, SlotFrom b 0 q → ¬ D q) : SlotFresh b 0 D D := by
  have top := later [b] (.inr ⟨rfl, rfl⟩)
  refine ⟨inode, top, top, fun {q} place here => ?_⟩
  have inside := later q ((slotFrom_iff b 0 place).mpr (.inl here))
  exact ⟨inside, inside⟩

/-- The tail starts at a slot of the inode, or at one of the double indirect node. -/
theorem truncate_skip (tree : TreeOk s ino) (b ofs : Nat) (lt : b < 5)
    (indirect : b < 4 → ofs = 0) (bound : ofs < nidsPerBlock)
    (start : k = firstDnode [b] + (if b = 4 then ofs * nidsPerBlock else ofs))
    (found : getNodePath directIndex (directIndex + k * addrsPerBlock) = some path)
    (skip : path.level < 2 ∨ path.offset.getD (path.level - 1) 0 = 0)
    (first : path.offset.getD 0 0 = nodeDir1Block + b) (second : path.offset.getD 1 0 = ofs) :
    RemovesTail s ino directIndex (directIndex + k * addrsPerBlock) := by
  have direct : b < 2 → ofs = 0 := fun low => indirect (by omega)
  obtain ⟨nofs, nonneg, res⟩ := truncateInodeBlocks_skip tree found skip
  obtain ⟨s', slots, cut⟩ := truncateSlots_whole tree b ofs _ lt direct nonneg first second
  have out : ¬ (2 + 2 * nidsPerBlock < k ∧ k < 2 + 3 * nidsPerBlock) := by
    rw [start]
    interval_cases b <;> simp [firstDnode, nidsPerBlock] at indirect ⊢ <;> omega
  refine ⟨s', res.trans slots, cut.congr (fun p place _ => ?_) fun p place _ => ?_⟩
  all_goals
    rw [slotFrom_iff_tail place lt direct bound start, isCut_iff]
    exact (or_iff_left fun extra => out ⟨extra.2.1, extra.2.2.1⟩).symm

theorem truncate_indirect (tree : TreeOk s ino) (low : 2 ≤ b) (high : b < 4)
    (pos : j ≠ 0) (lt : j < nidsPerBlock) (start : k = firstDnode [b] + j) :
    RemovesTail s ino directIndex (directIndex + k * addrsPerBlock) := by
  obtain ⟨noffset, found⟩ := getNodePath_indirect directIndex low high lt start
  have skip : ¬ ((2 : Nat) < 2 ∨ [nodeDir1Block + b, j, 0].getD (2 - 1) 0 = 0) := by simpa using pos
  have place : IsPlace [b] := (by omega : b < 5)
  have from' : k = firstDnode [b] + (if b = 4 then j * nidsPerBlock else j) := by
    rw [if_neg (by omega)]
    exact start
  have tail (p : List Nat) (place : IsPlace p) :
      SlotFrom b j p ↔ IsCut s ino directIndex (directIndex + k * addrsPerBlock) p := by
    rw [slotFrom_iff_tail place (by omega) (by omega) lt from', isCut_iff]
    refine (or_iff_left fun extra => ?_).symm
    have := extra.2.1
    rw [start] at this
    rw [nidsPerBlock] at lt
    interval_cases b <;> simp [firstDnode, nidsPerBlock] at this <;> omega
  have top : getNid s ino (nodeDir1Block + b - nodeDir1Block) = nidAt s ino [b] := by
    rw [Nat.add_sub_cancel_left]
    rfl
  by_cases hole : nidAt s ino [b] = 0
  · have call : truncatePartialNodes s ino [nodeDir1Block + b, j, 0] 2 =
        (0, [nodeDir1Block + b, j, 0], s) := by
      simp only [truncatePartialNodes, getD_cons_zero, top, hole, if_pos]
    obtain ⟨nofs, nonneg, res⟩ := truncateInodeBlocks_within tree found skip call (by decide)
    obtain ⟨s', slots, cut⟩ := truncateSlots_whole tree b j [nodeDir1Block + b, j, 0] (by omega)
      (by omega) nonneg rfl rfl
    exact ⟨s', res.trans slots, cut.congr (fun p place _ => tail p place)
      fun p place _ => tail p place⟩
  obtain ⟨page, read, _⟩ := (Cut.refl s ino).getNodePage tree place id hole
  obtain ⟨ret, s1, loop, nonneg, cut1⟩ := dnodeLoop_cut tree place
    (fun i bound => (⟨bound, low, by omega⟩ : IsPlace [i, b])) hole (nidsPerBlock - j) j 0 0
    (Cut.refl s ino) id (fun _ _ _ => ⟨id, id⟩) rfl (by decide)
  have call : truncatePartialNodes s ino [nodeDir1Block + b, j, 0] 2 =
      (ret, [nodeDir1Block + (b + 1), 0, 0], s1) := by
    refine truncatePartialNodes_eq 0 (top.trans_ne hole) ?_ rfl pos loop nonneg
    rw [getD_cons_zero, top, readPath, read]
  obtain ⟨nofs, positive, res⟩ := truncateInodeBlocks_within tree found skip call (by omega)
  have later (q : List Nat) (inside : SlotFrom (b + 1) 0 q) : ¬ (False ∨ ChildFrom [b] j q) := by
    rintro (none | ⟨i, _, _, rfl⟩)
    · exact none
    · rcases inside with less | ⟨eq, _⟩ <;> omega
  have fresh := slotFresh_of_later (fun none => none.elim id (not_childFrom_nil [b] j)) later
  obtain ⟨s', slots, cut⟩ := truncateSlots_cut tree (b + 1) 0 [nodeDir1Block + (b + 1), 0, 0]
    (by omega) (fun _ => rfl) positive rfl rfl cut1 fresh
    fun q inside => ⟨later q (slotFrom_mono inside), later q (slotFrom_mono inside)⟩
  have split (p : List Nat) (place : IsPlace p) :
      (False ∨ ChildFrom [b] j p) ∨ SlotFrom (b + 1) 0 p ↔
        IsCut s ino directIndex (directIndex + k * addrsPerBlock) p := by
    rw [← tail p place, slotFrom_iff b j place, inSlot_indirect low high j place, false_or]
    refine or_congr_left (or_iff_left ?_).symm
    exact fun both => pos both.1
  exact ⟨s', res.trans slots, cut.congr (fun p place _ => split p place)
    fun p place _ => split p place⟩

/-- What is cut off if the tail starts at the direct node `j` of the child `i`. -/
def CutInside (s : NodeState) (ino i j : Nat) : List Nat → Prop
  | [c] => c = 4 ∧ i = 0 ∧ nidAt s ino [0, 4] = 0
  | [l, c] => c = 4 ∧ i < l
  | [l, m, _] => i < m ∨ m = i ∧ j ≤ l
  | _ => False

/-- The cut when it starts under the double indirect node. -/
theorem isCut_iff_inside (bound : i < nidsPerBlock) (pos : j ≠ 0) (lt : j < nidsPerBlock)
    (start : k = 2 + 2 * nidsPerBlock + i * nidsPerBlock + j) (place : IsPlace p) :
    IsCut s ino directIndex (directIndex + k * addrsPerBlock) p ↔ CutInside s ino i j p := by
  rw [isCut_iff, start]
  rw [nidsPerBlock] at bound lt ⊢
  rcases place.shape with rfl | ⟨c, rfl, small⟩ | ⟨l, c, rfl, bound', _, small⟩ | ⟨l, m, rfl, bound', _⟩
  · simp [CutInside]
  · interval_cases c <;> simp [CutInside, firstDnode, nidsPerBlock] <;> omega
  · rw [nidsPerBlock] at bound'
    interval_cases c <;> simp [CutInside, firstDnode, nidsPerBlock] <;> omega
  · rw [nidsPerBlock] at bound'
    simp [CutInside, firstDnode, nidsPerBlock]
    omega

/-- The child is a hole: its slot is passed over. -/
theorem slotFrom_iff_inside (tree : TreeOk s ino) (hole : nidAt s ino [i, 4] = 0)
    (place : IsPlace p) (some : nidAt s ino p ≠ 0) : SlotFrom 4 i p ↔ CutInside s ino i j p := by
  rcases place.shape with rfl | ⟨c, rfl, small⟩ | ⟨l, c, rfl, _, _, small⟩ | ⟨l, m, rfl, _⟩
  · rfl
  · constructor
    · rintro (more | ⟨rfl, rfl⟩)
      · omega
      · exact ⟨rfl, rfl, hole⟩
    · rintro ⟨rfl, rfl, _⟩
      exact .inr ⟨rfl, rfl⟩
  · have other : ¬ (c = 4 ∧ l = i) := by
      rintro ⟨rfl, rfl⟩
      exact some hole
    simp only [SlotFrom, CutInside]
    omega
  · have other : m ≠ i := by
      rintro rfl
      exact some (nidAt_below tree hole l)
    simp only [SlotFrom, CutInside, true_and]
    omega

/-- The child is there: its tail is cut off first. -/
theorem childFrom_iff_inside (some : nidAt s ino [i, 4] ≠ 0) (place : IsPlace p) :
    (False ∨ ChildFrom [i, 4] j p) ∨ SlotFrom 4 (i + 1) p ↔ CutInside s ino i j p := by
  rcases place.shape with rfl | ⟨c, rfl, small⟩ | ⟨l, c, rfl, _, _, small⟩ | ⟨l, m, rfl, bound, _⟩
  · simp [ChildFrom, SlotFrom, CutInside]
  · simp only [ChildFrom, SlotFrom, List.cons.injEq, reduceCtorEq, and_false, exists_false,
      false_or, or_false]
    constructor
    · omega
    · rintro ⟨rfl, rfl, hole⟩
      exact absurd hole some
  · simp only [ChildFrom, SlotFrom, CutInside, List.cons.injEq, reduceCtorEq, and_false, exists_false,
      false_or]
    omega
  · have here : ChildFrom [i, 4] j [l, m, 4] ↔ m = i ∧ j ≤ l := by
      simp [ChildFrom, bound, and_comm]
    rw [here]
    simp only [SlotFrom, CutInside, true_and, false_or]
    omega

/-- The tail starts inside a child of the double indirect node. -/
theorem truncate_double (tree : TreeOk s ino) (bound : i < nidsPerBlock) (pos : j ≠ 0)
    (lt : j < nidsPerBlock) (start : k = 2 + 2 * nidsPerBlock + i * nidsPerBlock + j) :
    RemovesTail s ino directIndex (directIndex + k * addrsPerBlock) := by
  obtain ⟨noffset, found⟩ := getNodePath_double directIndex bound lt start
  have skip : ¬ ((3 : Nat) < 2 ∨ [nodeDir1Block + 4, i, j, 0].getD (3 - 1) 0 = 0) := by
    simpa using pos
  have place : IsPlace [4] := (by decide : 4 < 5)
  have placeI : IsPlace [i, 4] := ⟨bound, by decide, by decide⟩
  have top : getNid s ino (nodeDir1Block + 4 - nodeDir1Block) = nidAt s ino [4] := rfl
  have inside {p : List Nat} (placeP : IsPlace p) :
      IsCut s ino directIndex (directIndex + k * addrsPerBlock) p ↔ CutInside s ino i j p :=
    isCut_iff_inside bound pos lt start placeP
  by_cases absent : nidAt s ino [i, 4] = 0
  · -- The path ends in a hole, and the loop starts at its slot.
    obtain ⟨err, call, goes⟩ : ∃ err, truncatePartialNodes s ino [nodeDir1Block + 4, i, j, 0] 3 =
        (err, [nodeDir1Block + 4, i, j, 0], s) ∧ ¬ (err < 0 ∧ err ≠ -enoent) := by
      by_cases hole : nidAt s ino [4] = 0
      · refine ⟨0, ?_, by decide⟩
        simp only [truncatePartialNodes, getD_cons_zero, top, hole, if_pos]
      obtain ⟨page, read, entries⟩ := (Cut.refl s ino).getNodePage tree place id hole
      have next : page i = 0 := (entries i).trans absent
      have none : getNodePage s 0 = .error (-enoent) := by
        rw [getNodePage, tree.reads, tree.null]
      have path : readPath s [nodeDir1Block + 4, i, j, 0] 1 0 (nidAt s ino [4]) =
          .error (-enoent) := by
        rw [readPath, read]
        simp [next, readPath, none]
      refine ⟨-enoent, ?_, fun both => both.2 rfl⟩
      simp only [truncatePartialNodes, getD_cons_zero, top, if_neg hole]
      rw [path]
    obtain ⟨nofs, nonneg, res⟩ := truncateInodeBlocks_within tree found skip call goes
    obtain ⟨s', slots, cut⟩ := truncateSlots_whole tree 4 i [nodeDir1Block + 4, i, j, 0] (by decide)
      (by omega) nonneg rfl rfl
    refine ⟨s', res.trans slots, cut.congr (fun p place some => ?_) fun p place some => ?_⟩
    all_goals rw [inside place, slotFrom_iff_inside tree absent place some]
  have present : nidAt s ino [4] ≠ 0 := fun hole => absent (nidAt_below tree hole i)
  obtain ⟨page, read, entries⟩ := (Cut.refl s ino).getNodePage tree place id present
  obtain ⟨page', read', _⟩ := (Cut.refl s ino).getNodePage tree placeI id absent
  have next : page i = nidAt s ino [i, 4] := entries i
  obtain ⟨ret, s1, loop, nonneg, cut1⟩ := dnodeLoop_cut tree placeI
    (fun l small => (⟨small, bound, rfl⟩ : IsPlace [l, i, 4])) absent (nidsPerBlock - j) j 0 0
    (Cut.refl s ino) id (fun _ _ _ => ⟨id, id⟩) rfl (by decide)
  have path : readPath s [nodeDir1Block + 4, i, j, 0] 1 0 (nidAt s ino [4]) =
      .ok (nidAt s ino [i, 4]) := by
    rw [readPath, read]
    simp [next, readPath, read']
  have call : truncatePartialNodes s ino [nodeDir1Block + 4, i, j, 0] 3 =
      (ret, [nodeDir1Block + 4, i + 1, 0, 0], s1) := by
    refine truncatePartialNodes_eq 1 (top.trans_ne present) ?_ rfl pos loop nonneg
    rw [getD_cons_zero]
    exact path
  obtain ⟨nofs, positive, res⟩ := truncateInodeBlocks_within tree found skip call (by omega)
  have other (q : List Nat) (ne : ∀ l, q ≠ [l, i, 4]) : ¬ (False ∨ ChildFrom [i, 4] j q) := by
    rintro (none | ⟨l, _, _, eq⟩)
    · exact none
    · exact ne l eq
  have apart (q : List Nat) (inside : SlotFrom 5 0 q) := other q fun l eq => by
    subst eq
    rcases inside with less | ⟨eq, _⟩ <;> omega
  have later {q : List Nat} (here : InSlot 4 (i + 1) q) := other q fun l eq => by
    subst eq
    have := here.2
    omega
  obtain ⟨s', slots, cut⟩ := truncateSlots_cut tree 4 (i + 1) [nodeDir1Block + 4, i + 1, 0, 0]
    (by decide) (by omega) positive rfl rfl cut1
    ⟨other [] (by simp), other [4] (by simp), other [4] (by simp),
      fun _ here => ⟨later here, later here⟩⟩ fun q none => ⟨apart q none, apart q none⟩
  refine ⟨s', res.trans slots, cut.congr (fun p place _ => ?_) fun p place _ => ?_⟩
  all_goals rw [inside place, childFrom_iff_inside absent place]

end

/-- Truncating from the first block of a direct node on frees the nodes of the tail. -/
theorem truncateInodeBlocks_exact (s : NodeState) (ino directIndex : Nat) (tree : TreeOk s ino)
    (k : Nat) (lt : k < dnodesPerFile) :
    RemovesTail s ino directIndex (directIndex + k * addrsPerBlock) := by
  have small : 0 < nidsPerBlock := by decide
  have two : firstDnode [2] = 2 := rfl
  have three : firstDnode [3] = 2 + nidsPerBlock := rfl
  have four : firstDnode [4] = 2 + 2 * nidsPerBlock := rfl
  rcases Nat.lt_or_ge k 2 with low | low
  · obtain ⟨noffset, found⟩ := getNodePath_direct directIndex low
    refine truncate_skip tree k 0 (by omega) (fun _ => rfl) small ?_ found
      (.inl Nat.one_lt_two) rfl rfl
    interval_cases k <;> rfl
  have indirect (b j : Nat) (lowB : 2 ≤ b) (highB : b < 4) (bound : j < nidsPerBlock)
      (start : k = firstDnode [b] + j) :
      RemovesTail s ino directIndex (directIndex + k * addrsPerBlock) := by
    by_cases first : j = 0
    · subst first
      obtain ⟨noffset, found⟩ := getNodePath_indirect directIndex lowB highB bound start
      refine truncate_skip tree b 0 (by omega) (fun _ => rfl) small ?_ found (.inr rfl) rfl rfl
      rw [if_neg (by omega), start]
    · exact truncate_indirect tree lowB highB first bound start
  rw [dnodesPerFile] at lt
  rcases Nat.lt_or_ge k (2 + nidsPerBlock) with below | above
  · exact indirect 2 (k - 2) (by decide) (by decide) (by omega) (by omega)
  rcases Nat.lt_or_ge k (2 + 2 * nidsPerBlock) with below | above
  · exact indirect 3 (k - 2 - nidsPerBlock) (by decide) (by decide) (by omega) (by omega)
  obtain ⟨i, j, bound, bound', start⟩ : ∃ i j, i < nidsPerBlock ∧ j < nidsPerBlock ∧
      k = 2 + 2 * nidsPerBlock + i * nidsPerBlock + j := by
    rw [nidsPerBlock] at *
    exact ⟨(k - 2 - 2 * 1018) / 1018, (k - 2 - 2 * 1018) % 1018, by omega, by omega, by omega⟩
  by_cases first : j = 0
  · subst first
    obtain ⟨noffset, found⟩ := getNodePath_double directIndex bound bound' start
    refine truncate_skip tree 4 i (by decide) (by omega) bound ?_ found (.inr rfl) rfl rfl
    rw [if_pos rfl, four, start, Nat.add_zero]
  · exact truncate_double tree bound first bound' start

/-- The ids in a file with a direct node and a double indirect one, whose second child has one
direct node. -/
def smallNid (nid j : Nat) : Nat :=
  if nid = 4 ∧ j = 0 then 6 else if nid = 4 ∧ j = 4 then 5
  else if nid = 5 ∧ j = 1 then 7 else if nid = 7 ∧ j = 0 then 8 else 0

def smallFile : NodeState where
  page nid := if 4 ≤ nid ∧ nid ≤ 8 then some (smallNid nid) else none
  readError _ := none
  freed := []

theorem smallFile_getNid (nid j : Nat) : getNid smallFile nid j = smallNid nid j := by
  rw [getNid, smallFile]
  by_cases inside : 4 ≤ nid ∧ nid ≤ 8
  · simp only [if_pos inside]
  · simp only [if_neg inside]
    rw [smallNid, if_neg (by omega), if_neg (by omega), if_neg (by omega), if_neg (by omega)]

def smallPlace : Nat → List Nat
  | 4 => [] | 6 => [0] | 5 => [4] | 7 => [1, 4] | _ => [0, 1, 4]

theorem smallFile_nidAt (place : IsPlace p) (some : nidAt smallFile 4 p ≠ 0) :
    smallPlace (nidAt smallFile 4 p) = p ∧ 4 ≤ nidAt smallFile 4 p ∧ nidAt smallFile 4 p ≤ 8 := by
  rcases place.shape with rfl | ⟨b, rfl, _⟩ | ⟨j, b, rfl, _⟩ | ⟨j, i, rfl, _⟩
  · decide
  all_goals simp only [nidAt, smallFile_getNid, smallNid] at some ⊢
  · grind [smallPlace]
  · grind [smallPlace]
  · grind [smallPlace]

theorem smallFile_ok : TreeOk smallFile 4 where
  inode := by decide
  null := rfl
  reads _ := rfl
  present place some := ⟨_, if_pos (smallFile_nidAt place some).2⟩
  distinct place place' same some := by
    rw [← (smallFile_nidAt place some).1, same, (smallFile_nidAt place' (same ▸ some)).1]

theorem truncateInodeBlocks_exact_smallFile :
    RemovesTail smallFile 4 923 (923 + 2040 * addrsPerBlock) :=
  truncateInodeBlocks_exact smallFile 4 923 smallFile_ok 2040 (by decide)

/-- The truncation starts inside the first slot of the double indirect node, which is a hole; the
node is freed, although it starts before. -/
theorem truncateInodeBlocks_frees_hollow :
    firstBlock 923 [4] < 923 + 2040 * addrsPerBlock ∧ nidAt smallFile 4 [4] = 5 ∧
      (truncateInodeBlocks 4 923 smallFile (923 + 2040 * addrsPerBlock)).map (·.2.freed) =
        some [8, 7, 5] := by
  decide +kernel

end Linux318.Guarantees
