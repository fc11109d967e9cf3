import Linux318.Source.F2fs.NodeTruncate

/-!
What each loop of the truncation cuts off: the slots from its start on, with all that is
below them.
-/
namespace Linux318.Source.F2fs

variable {p q : List Nat} {i b ofs : Nat} {nofs : Int}

section
variable {s0 s : NodeState} {ino : Nat} {D C : List Nat → Prop}

def ChildFrom (p : List Nat) (i : Nat) (q : List Nat) : Prop :=
  ∃ k, i ≤ k ∧ k < nidsPerBlock ∧ q = k :: p

theorem childFrom_succ (lt : i < nidsPerBlock) :
    ChildFrom p i q ↔ q = i :: p ∨ ChildFrom p (i + 1) q := by
  constructor
  · rintro ⟨k, le, bound, rfl⟩
    rcases Nat.eq_or_lt_of_le le with rfl | less
    · exact .inl rfl
    · exact .inr ⟨k, less, bound, rfl⟩
  · rintro (rfl | ⟨k, le, bound, rfl⟩)
    · exact ⟨i, Nat.le_refl i, lt, rfl⟩
    · exact ⟨k, by omega, bound, rfl⟩

theorem not_childFrom (le : nidsPerBlock ≤ i) : ¬ ChildFrom p i q := by
  rintro ⟨k, low, bound, _⟩
  omega

theorem truncateDnode_cut (tree : TreeOk s0 ino) (cut : Cut s0 s ino D C)
    (place : IsPlace p) (left : ¬ D p) (some : nidAt s0 ino p ≠ 0) :
    truncateDnode s (nidAt s0 ino p) = (1, truncateNode s (nidAt s0 ino p)) := by
  obtain ⟨page, read, _⟩ := cut.getNodePage tree place left some
  rw [truncateDnode, if_neg some, read]

section
variable (tree : TreeOk s0 ino) (place : IsPlace p)
  (children : ∀ i < nidsPerBlock, IsPlace (i :: p)) (some : nidAt s0 ino p ≠ 0)
include tree place children some

theorem dnodeLoop_cut (left i : Nat) (ret freed : Int) (cut : Cut s0 s ino D C) (notP : ¬ D p)
    (fresh : ∀ k, i ≤ k → k < nidsPerBlock → ¬ D (k :: p) ∧ ¬ C (k :: p))
      (count : left = nidsPerBlock - i) (nonneg : 0 ≤ ret) :
    ∃ ret' s', dnodeLoop (nidAt s0 ino p) left i ret freed s = (ret', freed + left, s') ∧ 0 ≤ ret' ∧
      Cut s0 s' ino (fun q => D q ∨ ChildFrom p i q) (fun q => C q ∨ ChildFrom p i q) := by
  induction left generalizing s D C i ret freed with
  | zero =>
    refine ⟨ret, s, by simp [dnodeLoop], nonneg, cut.congr ?_ ?_⟩
    all_goals exact fun q _ _ => (or_iff_left (not_childFrom (by omega))).symm
  | succ left ih =>
    have lt : i < nidsPerBlock := by omega
    obtain ⟨notD, notC⟩ := fresh i (Nat.le_refl i) lt
    rw [dnodeLoop, cut.getNid_kept tree place notP some notC]
    have later {E : List Nat → Prop} {q : List Nat} :
        (E q ∨ q = i :: p) ∨ ChildFrom p (i + 1) q ↔ E q ∨ ChildFrom p i q := by
      rw [childFrom_succ lt, or_assoc]
    by_cases hole : nidAt s0 ino (i :: p) = 0
    · obtain ⟨ret', s', res, nonneg', cut'⟩ := ih (i + 1) ret (freed + 1) cut notP
        (fun k le bound => fresh k (by omega) bound) (by omega) nonneg
      refine ⟨ret', s', ?_, nonneg', cut'.congr ?_ ?_⟩
      · simp only [hole, res]
        push_cast
        rw [Int.add_assoc, Int.add_comm 1]
      all_goals
        intro q _ some
        rw [childFrom_succ lt]
        have : q ≠ i :: p := fun eq => some (eq ▸ hole)
        tauto
    have freed' := cut.free tree (children i lt) notD hole
    have apart : ¬ p = i :: p := fun eq => absurd (congrArg List.length eq) (by simp)
    have cleared := freed'.clear tree (children i lt) place (not_or.mpr ⟨notP, apart⟩) some
    obtain ⟨ret', s', res, nonneg', cut'⟩ := ih (i + 1) 1 (freed + 1) cleared
      (not_or.mpr ⟨notP, apart⟩) (fun k le bound => by
        obtain ⟨left, right⟩ := fresh k (by omega) bound
        have : ¬ k :: p = i :: p := fun eq => absurd (List.cons.inj eq).1 (by omega)
        exact ⟨not_or.mpr ⟨left, this⟩, not_or.mpr ⟨right, this⟩⟩) (by omega) (by decide)
    refine ⟨ret', s', ?_, nonneg', cut'.congr (fun q _ _ => later) fun q _ _ => later⟩
    rw [if_neg hole, truncateDnode_cut tree cut (children i lt) notD hole]
    simp only [res]
    push_cast
    rw [Int.add_assoc, Int.add_comm 1]

/-- `truncate_nodes` at an indirect node. -/
theorem truncateNodes_two (ofs : Nat) (nofs : Int) (cut : Cut s0 s ino D C) (notP : ¬ D p)
    (fresh : ∀ k, ofs ≤ k → k < nidsPerBlock → ¬ D (k :: p) ∧ ¬ C (k :: p)) :
    ∃ s', truncateNodes 2 s (nidAt s0 ino p) nofs ofs =
        (((nidsPerBlock - ofs : Nat) : Int) + (if ofs = 0 then 1 else 0), s') ∧
      Cut s0 s' ino (fun q => (D q ∨ ChildFrom p ofs q) ∨ (ofs = 0 ∧ q = p))
        (fun q => C q ∨ ChildFrom p ofs q) := by
  obtain ⟨page, read, _⟩ := cut.getNodePage tree place notP some
  obtain ⟨ret, s', res, nonneg, cut'⟩ := dnodeLoop_cut tree place children some
    (nidsPerBlock - ofs) ofs 0 0 cut notP fresh rfl (by decide)
  simp only [truncateNodes, if_neg some, read, res, if_neg (Int.not_lt.mpr nonneg), removeIndirect]
  have apart : ¬ (D p ∨ ChildFrom p ofs p) := by
    refine not_or.mpr ⟨notP, ?_⟩
    rintro ⟨k, _, _, eq⟩
    exact absurd (congrArg List.length eq) (by simp)
  by_cases zero : ofs = 0
  · refine ⟨_, by rw [if_pos zero, if_pos zero, Int.zero_add], (cut'.free tree place apart some).congr
      (fun q _ _ => ?_) fun q _ _ => Iff.rfl⟩
    simp [zero]
  · refine ⟨s', by rw [if_neg zero, if_neg zero, Int.zero_add, Int.add_zero], cut'.congr
      (fun q _ _ => ?_) fun q _ _ => Iff.rfl⟩
    simp [zero]

end

def SubtreeFrom (i : Nat) (q : List Nat) : Prop :=
  ∃ k, i ≤ k ∧ k < nidsPerBlock ∧ (q = [k, 4] ∨ ChildFrom [k, 4] 0 q)

theorem subtreeFrom_succ (lt : i < nidsPerBlock) :
    SubtreeFrom i q ↔ (q = [i, 4] ∨ ChildFrom [i, 4] 0 q) ∨ SubtreeFrom (i + 1) q := by
  constructor
  · rintro ⟨k, le, bound, below⟩
    rcases Nat.eq_or_lt_of_le le with rfl | less
    · exact .inl below
    · exact .inr ⟨k, less, bound, below⟩
  · rintro (below | ⟨k, le, bound, below⟩)
    · exact ⟨i, Nat.le_refl i, lt, below⟩
    · exact ⟨k, by omega, bound, below⟩

theorem SubtreeFrom.place (below : SubtreeFrom i q) : IsPlace q := by
  obtain ⟨k, _, bound, rfl | ⟨j, _, bound', rfl⟩⟩ := below
  · exact ⟨bound, by decide, by decide⟩
  · exact ⟨bound', bound, rfl⟩

theorem not_subtreeFrom (le : nidsPerBlock ≤ i) : ¬ SubtreeFrom i q := by
  rintro ⟨k, low, bound, _⟩
  omega

theorem nodesLoop_cut (tree : TreeOk s0 ino) (some : nidAt s0 ino [4] ≠ 0) (left i : Nat)
    (childNofs : Int) (cut : Cut s0 s ino D C) (notP : ¬ D [4])
    (fresh : ∀ q, SubtreeFrom i q → ¬ D q ∧ ¬ C q) (count : left = nidsPerBlock - i) :
    ∃ nofs' s', nodesLoop (truncateNodes 2) (nidAt s0 ino [4]) left i childNofs s = (.ok nofs', s') ∧
      childNofs ≤ nofs' ∧
      Cut s0 s' ino (fun q => D q ∨ SubtreeFrom i q) (fun q => C q ∨ SubtreeFrom i q) := by
  induction left generalizing s D C i childNofs with
  | zero =>
    refine ⟨childNofs, s, by simp [nodesLoop], Int.le_refl _, cut.congr ?_ ?_⟩
    all_goals exact fun q _ _ => (or_iff_left (not_subtreeFrom (by omega))).symm
  | succ left ih =>
    have lt : i < nidsPerBlock := by omega
    have placeTop : IsPlace [4] := by simp [IsPlace]
    have place : IsPlace [i, 4] := by simp [IsPlace, lt]
    have children : ∀ k < nidsPerBlock, IsPlace [k, i, 4] := fun k bound => by
      simp [IsPlace, lt, bound]
    obtain ⟨notD, notC⟩ := fresh [i, 4] ⟨i, Nat.le_refl i, lt, .inl rfl⟩
    have freshBelow (q : List Nat) (below : ChildFrom [i, 4] 0 q) : ¬ D q ∧ ¬ C q :=
      fresh q ⟨i, Nat.le_refl i, lt, .inr below⟩
    rw [nodesLoop, cut.getNid_kept tree placeTop notP some notC]
    by_cases hole : nidAt s0 ino [i, 4] = 0
    · obtain ⟨nofs', s', res, le, cut'⟩ := ih (i + 1) (childNofs + (nidsPerBlock + 1)) cut notP
        (fun q later => fresh q ((subtreeFrom_succ lt).mpr (.inr later))) (by omega)
      refine ⟨nofs', s', by simp [hole, res], by omega, cut'.congr ?_ ?_⟩
      all_goals
        intro q _ some
        rw [subtreeFrom_succ lt]
        have here : q ≠ [i, 4] := fun eq => some (eq ▸ hole)
        have below : ¬ ChildFrom [i, 4] 0 q := by
          rintro ⟨k, _, _, rfl⟩
          exact some (nidAt_below tree hole k)
        tauto
    obtain ⟨s1, result1, cut1⟩ := truncateNodes_two tree place children hole 0 childNofs cut notD
      fun k low bound => freshBelow _ ⟨k, low, bound, rfl⟩
    have shorter {q : List Nat} (len : q.length < 2) : ¬ (q = [i, 4] ∨ ChildFrom [i, 4] 0 q) := by
      rintro (rfl | ⟨k, _, _, rfl⟩)
      · simp at len
      · simp at len
    have removed : Cut s0 s1 ino (fun q => D q ∨ (q = [i, 4] ∨ ChildFrom [i, 4] 0 q))
        (fun q => C q ∨ ChildFrom [i, 4] 0 q) :=
      cut1.congr (fun q _ _ => by tauto) fun q _ _ => Iff.rfl
    have cleared : Cut s0 (setNid s1 (nidAt s0 ino [4]) i 0) ino
        (fun q => D q ∨ (q = [i, 4] ∨ ChildFrom [i, 4] 0 q))
        (fun q => C q ∨ (q = [i, 4] ∨ ChildFrom [i, 4] 0 q)) :=
      (removed.clear tree place placeTop (not_or.mpr ⟨notP, shorter (by simp)⟩) some).congr
        (fun q _ _ => Iff.rfl) fun q _ _ => by tauto
    obtain ⟨nofs', s', res, le, cut'⟩ := ih (i + 1) (childNofs + (nidsPerBlock + 1)) cleared
      (not_or.mpr ⟨notP, shorter (by simp)⟩) (fun q later => by
        obtain ⟨left, right⟩ := fresh q ((subtreeFrom_succ lt).mpr (.inr later))
        have apart : ¬ (q = [i, 4] ∨ ChildFrom [i, 4] 0 q) := by
          obtain ⟨k, more, _, rfl | ⟨j, _, _, rfl⟩⟩ := later
          · rintro (eq | ⟨_, _, _, eq⟩)
            · exact absurd (List.cons.inj eq).1 (by omega)
            · simp at eq
          · rintro (eq | ⟨_, _, _, eq⟩)
            · simp at eq
            · exact absurd (List.cons.inj (List.cons.inj eq).2).1 (by omega)
        exact ⟨not_or.mpr ⟨left, apart⟩, not_or.mpr ⟨right, apart⟩⟩) (by omega)
    have result1 : truncateNodes 2 s (nidAt s0 ino [i, 4]) childNofs 0 =
        ((nidsPerBlock : Int) + 1, s1) := result1
    refine ⟨nofs', s', ?_, by omega, cut'.congr (fun q _ _ => ?_) fun q _ _ => ?_⟩
    · simp [if_neg hole, result1, res]
    · rw [subtreeFrom_succ lt, or_assoc]
    · rw [subtreeFrom_succ lt, or_assoc]

/-- `truncate_nodes` at the double indirect node. -/
theorem truncateNodes_three (tree : TreeOk s0 ino) (some : nidAt s0 ino [4] ≠ 0) (ofs : Nat)
    (nonneg : 0 ≤ nofs) (cut : Cut s0 s ino D C) (notP : ¬ D [4])
    (fresh : ∀ q, SubtreeFrom ofs q → ¬ D q ∧ ¬ C q) :
    ∃ freed s', truncateNodes 3 s (nidAt s0 ino [4]) nofs ofs = (freed, s') ∧ 0 ≤ freed ∧
      Cut s0 s' ino (fun q => (D q ∨ SubtreeFrom ofs q) ∨ (ofs = 0 ∧ q = [4]))
        (fun q => C q ∨ SubtreeFrom ofs q) := by
  have place : IsPlace [4] := by simp [IsPlace]
  obtain ⟨page, read, _⟩ := cut.getNodePage tree place notP some
  obtain ⟨nofs', s', res, le, cut'⟩ := nodesLoop_cut tree some (nidsPerBlock - ofs) ofs
    (nofs + ofs * (nidsPerBlock + 1) + 1) cut notP fresh rfl
  have start : 0 ≤ (ofs : Int) * (nidsPerBlock + 1) := Int.mul_nonneg (by omega) (by omega)
  rw [truncateNodes, if_neg some, read]
  simp only [res, removeIndirect]
  have apart : ¬ (D [4] ∨ SubtreeFrom ofs [4]) := by
    refine not_or.mpr ⟨notP, ?_⟩
    rintro ⟨k, _, _, eq | ⟨_, _, _, eq⟩⟩
    · simp at eq
    · simp at eq
  by_cases zero : ofs = 0
  · refine ⟨_, _, by rw [if_pos zero], by omega, (cut'.free tree place apart some).congr
      (fun q _ _ => ?_) fun q _ _ => Iff.rfl⟩
    simp [zero]
  · refine ⟨_, s', by rw [if_neg zero], by omega, cut'.congr (fun q _ _ => ?_) fun q _ _ => Iff.rfl⟩
    simp [zero]

def InSlot (b ofs : Nat) : List Nat → Prop
  | [c] => c = b ∧ ofs = 0
  | [j, c] => c = b ∧ ofs ≤ j
  | [_, i, c] => c = b ∧ ofs ≤ i
  | _ => False

/-- The places in a slot from an offset on, and in all later slots. -/
def SlotFrom (b ofs : Nat) : List Nat → Prop
  | [c] => b < c ∨ c = b ∧ ofs = 0
  | [j, c] => b < c ∨ c = b ∧ ofs ≤ j
  | [_, i, c] => b < c ∨ c = b ∧ ofs ≤ i
  | _ => False

theorem slotFrom_iff (b ofs : Nat) (place : IsPlace q) :
    SlotFrom b ofs q ↔ InSlot b ofs q ∨ SlotFrom (b + 1) 0 q := by
  rcases place.shape with rfl | ⟨c, rfl, _⟩ | ⟨j, c, rfl, _⟩ | ⟨j, i, rfl, _⟩
  · simp [SlotFrom, InSlot]
  all_goals
    simp only [SlotFrom, InSlot, and_true]
    omega

theorem slotFrom_mono (later : SlotFrom (b + 1) 0 q) : SlotFrom b 0 q := by
  rcases q with _ | ⟨j, _ | ⟨i, _ | ⟨c, _ | _⟩⟩⟩
  any_goals exact later
  all_goals rcases later with less | ⟨rfl, _⟩ <;> exact .inl (by omega)

theorem not_slotFrom_five (place : IsPlace q) : ¬ SlotFrom 5 0 q := by
  rcases place.shape with rfl | ⟨c, rfl, _⟩ | ⟨j, c, rfl, _⟩ | ⟨j, i, rfl, _⟩
  · simp [SlotFrom]
  all_goals
    simp only [SlotFrom]
    omega

theorem inSlot_disjoint (here : InSlot b ofs q) : ¬ SlotFrom (b + 1) 0 q := by
  intro later
  rcases q with _ | ⟨j, _ | ⟨i, _ | ⟨c, _ | _⟩⟩⟩
  any_goals exact here
  all_goals
    obtain ⟨rfl, _⟩ := here
    rcases later with less | ⟨eq, _⟩ <;> omega

theorem inSlot_direct (lt : b < 2) (place : IsPlace q) : InSlot b 0 q ↔ q = [b] := by
  rcases place.shape with rfl | ⟨c, rfl, _⟩ | ⟨j, c, rfl, _⟩ | ⟨j, i, rfl, _⟩
  · simp [InSlot]
  · simp [InSlot]
  all_goals
    simp only [InSlot, List.cons.injEq, reduceCtorEq, and_false, iff_false]
    omega

theorem inSlot_indirect (low : 2 ≤ b) (high : b < 4) (ofs : Nat)
    (place : IsPlace q) : InSlot b ofs q ↔ ChildFrom [b] ofs q ∨ (ofs = 0 ∧ q = [b]) := by
  rcases place.shape with rfl | ⟨c, rfl, _⟩ | ⟨j, c, rfl, bound, _⟩ | ⟨j, i, rfl, _⟩
  · simp [InSlot, ChildFrom]
  · simp [InSlot, ChildFrom, and_comm]
  · simp [InSlot, ChildFrom, bound, and_comm]
  · simp only [InSlot, ChildFrom, List.cons.injEq, reduceCtorEq, and_false, exists_false, or_false,
      iff_false]
    omega

theorem inSlot_double (ofs : Nat) (place : IsPlace q) :
    InSlot 4 ofs q ↔ SubtreeFrom ofs q ∨ (ofs = 0 ∧ q = [4]) := by
  rcases place.shape with rfl | ⟨c, rfl, _⟩ | ⟨j, c, rfl, bound, _⟩ | ⟨j, i, rfl, bound, bound'⟩
  · simp [InSlot, SubtreeFrom, ChildFrom]
  · simp [InSlot, SubtreeFrom, ChildFrom, and_comm]
  · simp [InSlot, SubtreeFrom, ChildFrom, bound, and_comm]
  · simp [InSlot, SubtreeFrom, ChildFrom, bound, bound']

theorem inSlot_hole (tree : TreeOk s0 ino) (hole : nidAt s0 ino [b] = 0)
    (place : IsPlace q) (inside : InSlot b ofs q) : nidAt s0 ino q = 0 := by
  rcases place.shape with rfl | ⟨c, rfl, _⟩ | ⟨j, c, rfl, _⟩ | ⟨j, i, rfl, _⟩
  · exact inside.elim
  all_goals obtain ⟨rfl, _⟩ := inside
  · exact hole
  · exact nidAt_below tree hole j
  · exact nidAt_below tree (nidAt_below tree hole i) j

structure SlotFresh (b ofs : Nat) (D C : List Nat → Prop) : Prop where
  inode : ¬ D []
  top : ¬ D [b]
  pointer : ¬ C [b]
  inside {q : List Nat} : IsPlace q → InSlot b ofs q → ¬ D q ∧ ¬ C q

theorem slotCall_direct (lt : b < 2) (s : NodeState) (nid : Nat) (nofs : Int) (ofs : Nat) :
    slotCall s nid nofs (nodeDir1Block + b) ofs = some (truncateDnode s nid) := by
  rw [slotCall, if_pos (by omega)]

theorem slotCall_indirect (low : 2 ≤ b) (high : b < 4) (s : NodeState) (nid : Nat)
    (nofs : Int) (ofs : Nat) :
    slotCall s nid nofs (nodeDir1Block + b) ofs = some (truncateNodes 2 s nid nofs ofs) := by
  rw [slotCall, if_neg (by omega), if_pos (by omega)]

theorem slotCall_double (s : NodeState) (nid : Nat) (nofs : Int) (ofs : Nat) :
    slotCall s nid nofs (nodeDir1Block + 4) ofs = some (truncateNodes 3 s nid nofs ofs) := by
  rw [slotCall, if_neg (by omega), if_neg (by omega), if_pos rfl]

theorem slotCall_hole (lt : b < 5) (s : NodeState) (nofs : Int) (ofs : Nat) :
    ∃ err, slotCall s 0 nofs (nodeDir1Block + b) ofs = some (err, s) ∧ 0 ≤ err := by
  rcases Nat.lt_or_ge b 2 with low | low
  · exact ⟨1, slotCall_direct low .., by decide⟩
  rcases Nat.lt_or_ge b 4 with high | high
  · refine ⟨nidsPerBlock + 1, ?_, by decide⟩
    rw [slotCall_indirect low high, truncateNodes, if_pos rfl]
    rintro _ impossible
    cases impossible
  · obtain rfl : b = 4 := by omega
    refine ⟨nidsPerBlock + 1, ?_, by decide⟩
    rw [slotCall_double, truncateNodes, if_pos rfl]

section
variable (tree : TreeOk s0 ino)
include tree

theorem clearSlot_cut (ofs : Nat) (lt : b < 5)
    (some : nidAt s0 ino [b] ≠ 0) (cut : Cut s0 s ino D C) (inode : ¬ D []) (pointer : ¬ C [b]) :
    Cut s0 (clearSlot s ino (nodeDir1Block + b) ofs) ino D
      (fun q => C q ∨ (ofs = 0 ∧ q = [b])) := by
  have root : IsPlace [] := trivial
  have place : IsPlace [b] := lt
  have read : getNid s ino b = nidAt s0 ino [b] :=
    cut.getNid_kept tree root inode tree.inode pointer
  have index : nodeDir1Block + b - nodeDir1Block = b := Nat.add_sub_cancel_left ..
  rw [clearSlot, index, read]
  by_cases zero : ofs = 0
  · rw [if_pos ⟨zero, some⟩]
    refine (cut.clear tree place root inode tree.inode).congr (fun _ _ _ => Iff.rfl) fun q _ _ => ?_
    simp [zero]
  · rw [if_neg fun both => zero both.1]
    refine cut.congr (fun _ _ _ => Iff.rfl) fun q _ _ => ?_
    simp [zero]

/-- One round of the loop: the slot is cut off from the offset on. -/
theorem slot_cut (lt : b < 5) (direct : b < 2 → ofs = 0)
    (nonneg : 0 ≤ nofs) (cut : Cut s0 s ino D C) (fresh : SlotFresh b ofs D C) :
    ∃ err s', slotCall s (getNid s ino b) nofs (nodeDir1Block + b) ofs = some (err, s') ∧ 0 ≤ err ∧
      Cut s0 (clearSlot s' ino (nodeDir1Block + b) ofs) ino (fun q => D q ∨ InSlot b ofs q)
        (fun q => C q ∨ InSlot b ofs q) := by
  have root : IsPlace [] := trivial
  have place : IsPlace [b] := lt
  have read : getNid s ino b = nidAt s0 ino [b] :=
    cut.getNid_kept tree root fresh.inode tree.inode fresh.pointer
  have index : nodeDir1Block + b - nodeDir1Block = b := Nat.add_sub_cancel_left ..
  rw [read]
  by_cases hole : nidAt s0 ino [b] = 0
  · have same : clearSlot s ino (nodeDir1Block + b) ofs = s := by
      rw [clearSlot, index, read, if_neg fun both => both.2 hole]
    obtain ⟨err, call, pos⟩ := slotCall_hole lt s nofs ofs
    rw [hole]
    refine ⟨err, s, call, pos, ?_⟩
    rw [same]
    refine cut.congr ?_ ?_
    all_goals
      exact fun q placeQ some =>
        (or_iff_left fun inside => some (inSlot_hole tree hole placeQ inside)).symm
  rcases Nat.lt_or_ge b 2 with low | low
  · have zero := direct low
    subst zero
    have freed := cut.free tree place fresh.top hole
    have cleared := clearSlot_cut tree 0 lt hole freed
      (not_or.mpr ⟨fresh.inode, by simp⟩) fresh.pointer
    refine ⟨1, _, ?_, by decide, cleared.congr (fun q placeQ _ => ?_) fun q placeQ _ => ?_⟩
    · rw [slotCall_direct low, truncateDnode_cut tree cut place fresh.top hole]
    · rw [inSlot_direct low placeQ]
    · rw [inSlot_direct low placeQ]
      simp
  rcases Nat.lt_or_ge b 4 with high | high
  · have children : ∀ i < nidsPerBlock, IsPlace [i, b] := fun i bound => ⟨bound, low, lt⟩
    obtain ⟨s', res, cut'⟩ := truncateNodes_two tree place children hole ofs nofs cut fresh.top
      fun k le bound => fresh.inside (children k bound) ⟨rfl, le⟩
    have apart (q : List Nat) (short : q.length < 2) : ¬ ChildFrom [b] ofs q := by
      rintro ⟨k, _, _, rfl⟩
      simp at short
    have cleared := clearSlot_cut tree ofs lt hole cut'
      (not_or.mpr ⟨not_or.mpr ⟨fresh.inode, apart [] (by simp)⟩, by simp⟩)
      (not_or.mpr ⟨fresh.pointer, apart [b] (by simp)⟩)
    refine ⟨_, s', (slotCall_indirect low high ..).trans (congrArg some res), ?_,
      cleared.congr (fun q placeQ _ => ?_) fun q placeQ _ => ?_⟩
    · split <;> omega
    · rw [inSlot_indirect low high ofs placeQ, or_assoc]
    · rw [inSlot_indirect low high ofs placeQ, or_assoc]
  obtain rfl : b = 4 := by omega
  obtain ⟨freed, s', res, nonneg', cut'⟩ := truncateNodes_three tree hole ofs nonneg cut
    fresh.top fun q below =>
      fresh.inside below.place ((inSlot_double ofs below.place).mpr (.inl below))
  have apart (q : List Nat) (short : q.length < 2) : ¬ SubtreeFrom ofs q := by
    rintro ⟨k, _, _, rfl | ⟨_, _, _, rfl⟩⟩
    · simp at short
    · simp at short
  have cleared := clearSlot_cut tree ofs lt hole cut'
    (not_or.mpr ⟨not_or.mpr ⟨fresh.inode, apart [] (by simp)⟩, by simp⟩)
    (not_or.mpr ⟨fresh.pointer, apart [4] (by simp)⟩)
  refine ⟨freed, s', (slotCall_double ..).trans (congrArg some res), nonneg',
    cleared.congr (fun q placeQ _ => ?_) fun q placeQ _ => ?_⟩
  · rw [inSlot_double ofs placeQ, or_assoc]
  · rw [inSlot_double ofs placeQ, or_assoc]

theorem slotLoop_round (fuel : Nat) (lt : b < 5) (direct : b < 2 → ofs = 0)
    (nonneg : 0 ≤ nofs) (cut : Cut s0 s ino D C) (fresh : SlotFresh b ofs D C) :
    ∃ err s', 0 ≤ err ∧ slotLoop ino (fuel + 1) s (nodeDir1Block + b) ofs nofs =
        (if b = 4 then some (0, s')
        else slotLoop ino fuel s' (nodeDir1Block + (b + 1)) 0 (nofs + err)) ∧
      Cut s0 s' ino (fun q => D q ∨ InSlot b ofs q) (fun q => C q ∨ InSlot b ofs q) := by
  obtain ⟨err, s', call, positive, cut'⟩ := slot_cut tree lt direct nonneg cut fresh
  refine ⟨err, _, positive, ?_, cut'⟩
  have goes : ¬ (err < 0 ∧ err ≠ -enoent) := by omega
  have status : (if 0 < err then 0 else err) = 0 := by split <;> omega
  rw [slotLoop, Nat.add_sub_cancel_left, call]
  simp [if_neg goes, status, Nat.add_assoc]

/-- The loop cuts off the slot from the offset on, and all later slots. -/
theorem slotLoop_cut (fuel : Nat) (last : b + fuel = 4)
    (direct : b < 2 → ofs = 0) (nonneg : 0 ≤ nofs) (cut : Cut s0 s ino D C)
    (fresh : SlotFresh b ofs D C) (later : ∀ q, SlotFrom (b + 1) 0 q → ¬ D q ∧ ¬ C q) (rest : Nat) :
    ∃ s', slotLoop ino (fuel + 1 + rest) s (nodeDir1Block + b) ofs nofs = some (0, s') ∧
      Cut s0 s' ino (fun q => D q ∨ SlotFrom b ofs q) (fun q => C q ∨ SlotFrom b ofs q) := by
  induction fuel generalizing s D C b ofs nofs with
  | zero =>
    obtain rfl : b = 4 := last
    obtain ⟨err, s', _, round, cut'⟩ := slotLoop_round tree rest (by decide) direct nonneg cut fresh
    rw [if_pos rfl] at round
    refine ⟨s', by rw [Nat.add_comm, round], cut'.congr (fun q place _ => ?_) fun q place _ => ?_⟩
    all_goals rw [slotFrom_iff 4 ofs place, or_iff_left (not_slotFrom_five place)]
  | succ fuel ih =>
    obtain ⟨err, s1, positive, round, cut1⟩ := slotLoop_round tree (fuel + 1 + rest) (by omega)
      direct nonneg cut fresh
    rw [if_neg (by omega)] at round
    have untouched {q : List Nat} (inside : SlotFrom (b + 1) 0 q) :
        ¬ (D q ∨ InSlot b ofs q) ∧ ¬ (C q ∨ InSlot b ofs q) := by
      obtain ⟨left, right⟩ := later q inside
      have apart : ¬ InSlot b ofs q := fun here => inSlot_disjoint here inside
      exact ⟨not_or.mpr ⟨left, apart⟩, not_or.mpr ⟨right, apart⟩⟩
    have top := untouched (q := [b + 1]) (.inr ⟨rfl, rfl⟩)
    have fresh1 : SlotFresh (b + 1) 0 (fun q => D q ∨ InSlot b ofs q)
        (fun q => C q ∨ InSlot b ofs q) :=
      ⟨not_or.mpr ⟨fresh.inode, id⟩, top.1, top.2,
        fun place here => untouched ((slotFrom_iff (b + 1) 0 place).mpr (.inl here))⟩
    obtain ⟨s', res, cut'⟩ := ih (by omega) (fun _ => rfl)
      (Int.add_nonneg nonneg positive) cut1 fresh1 fun q inside => untouched (slotFrom_mono inside)
    rw [← round, Nat.add_right_comm (fuel + 1) rest 1] at res
    refine ⟨s', res, cut'.congr (fun q place _ => ?_) fun q place _ => ?_⟩
    all_goals rw [slotFrom_iff b ofs place, or_assoc]

end

end

end Linux318.Source.F2fs
