import Linux318.Source.F2fs.NodeTruncate

/-!
The numbers of the nodes of a file: `get_node_path` gives them, and `start_bidx_of_node`
(`fs/f2fs/gc.c` 472-490) and `IS_DNODE` (`fs/f2fs/node.h` 280-296) read them.
-/
namespace Linux318.Source.F2fs

def addrsPerInode (inlineXattr : Bool) : Nat := if inlineXattr then 923 - 50 else 923

/-- The callers give the number of a direct node, for which no difference is below zero. -/
def startBidxOfNode (inlineXattr : Bool) (nodeOfs : Nat) : Nat :=
  let indirectBlks := 2 * nidsPerBlock + 4
  if nodeOfs = 0 then 0
  else
    let bidx :=
      if nodeOfs ≤ 2 then nodeOfs - 1
      else if nodeOfs ≤ indirectBlks then nodeOfs - 2 - (nodeOfs - 4) / (nidsPerBlock + 1)
      else nodeOfs - 5 - (nodeOfs - indirectBlks - 3) / (nidsPerBlock + 1)
    (bidx * addrsPerBlock + addrsPerInode inlineXattr) % 2 ^ 32

/-- `IS_DNODE` for the offset in the footer of the page; `XATTR_NODE_OFFSET` is the highest -/
def isDnode (ofs : Nat) : Bool :=
  if ofs = 2 ^ 29 - 1 then false
  else if ofs = 3 ∨ ofs = 4 + nidsPerBlock ∨ ofs = 5 + 2 * nidsPerBlock then false
  else if 6 + 2 * nidsPerBlock ≤ ofs then
    decide ((ofs - (6 + 2 * nidsPerBlock)) % (nidsPerBlock + 1) ≠ 0)
  else true

/-- The nodes on the path: their numbers, and the offsets that lead to them -/
def NodePath.nodes (path : NodePath) : List (Nat × List Nat) := path.noffset.zip path.offset.inits

/-- The last number gives the block, and of the nodes behind the inode only the last is direct. -/
structure Numbered (inlineXattr : Bool) (block : Nat) (path : NodePath) : Prop where
  start : startBidxOfNode inlineXattr (path.noffset.getD path.level 0) +
    path.offset.getD path.level 0 = block
  direct : isDnode (path.noffset.getD path.level 0) = true
  indirect : ∀ ofs ∈ path.noffset.tail.take (path.level - 1), isDnode ofs = false

def nodePlace (ofs : Nat) : List Nat :=
  let under (top : List Nat) (child : Nat) := match child with
    | 0 => top
    | q + 1 => top ++ [q]
  if ofs = 0 then []
  else if ofs ≤ 2 then [nodeDir1Block + (ofs - 1)]
  else if ofs < 5 + 2 * nidsPerBlock then
    under [nodeDir1Block + (2 + (ofs - 3) / (nidsPerBlock + 1))] ((ofs - 3) % (nidsPerBlock + 1))
  else if ofs = 5 + 2 * nidsPerBlock then [nodeDir1Block + 4]
  else
    under [nodeDir1Block + 4, (ofs - (6 + 2 * nidsPerBlock)) / (nidsPerBlock + 1)]
      ((ofs - (6 + 2 * nidsPerBlock)) % (nidsPerBlock + 1))

/-- An indirect node above direct ones: its number, its place, and the direct nodes before it -/
inductive Indirect : Nat → List Nat → Nat → Prop
  | inInode {b : Nat} (le : b ≤ 1) :
    Indirect (3 + b * (nidsPerBlock + 1)) [nodeDir1Block + (2 + b)] (2 + b * nidsPerBlock)
  | inDouble {b : Nat} (lt : b < nidsPerBlock) :
    Indirect (6 + 2 * nidsPerBlock + b * (nidsPerBlock + 1)) [nodeDir1Block + 4, b]
      (2 + 2 * nidsPerBlock + b * nidsPerBlock)

variable {inlineXattr : Bool} {block : Nat} {path : NodePath}

section
variable {ofs before q r : Nat} {top : List Nat} (above : Indirect ofs top before)
include above

theorem Indirect.node : isDnode ofs = false ∧ nodePlace ofs = top := by
  cases above with
  | @inInode b le =>
    obtain rfl | rfl : b = 0 ∨ b = 1 := by omega
    all_goals exact ⟨rfl, rfl⟩
  | @inDouble b lt =>
    unfold isDnode nodePlace nidsPerBlock at *
    rw [Nat.add_sub_cancel_left, Nat.mul_div_cancel _ (Nat.succ_pos _), Nat.mul_mod_left]
    constructor <;> split_ifs <;> first | omega | rfl

variable (lt : q < nidsPerBlock)
  (here : (before + q) * addrsPerBlock + addrsPerInode inlineXattr + r = block)
include lt here

/-- The direct nodes below it -/
theorem Indirect.child : startBidxOfNode inlineXattr (ofs + 1 + q) + r = block ∧
    isDnode (ofs + 1 + q) = true ∧ nodePlace (ofs + 1 + q) = top ++ [q] := by
  have inode : addrsPerInode inlineXattr ≤ 923 := by cases inlineXattr <;> decide
  unfold startBidxOfNode isDnode nodePlace addrsPerBlock nidsPerBlock at *
  dsimp only
  have quotient (c b : Nat) : (c + b * (1018 + 1) + 1 + q - c) / (1018 + 1) = b := by omega
  have residue (c b : Nat) : (c + b * (1018 + 1) + 1 + q - c) % (1018 + 1) = q + 1 := by omega
  cases above with
  | @inInode b le =>
    unfold nidsPerBlock at *
    have dec : (3 + b * (1018 + 1) + 1 + q - 4) / (1018 + 1) = b := by omega
    rw [quotient, residue, dec]
    refine ⟨?_, ?_, ?_⟩ <;> split_ifs <;> first | omega | rfl
  | @inDouble b high =>
    unfold nidsPerBlock at *
    have dec : (6 + 2 * 1018 + b * (1018 + 1) + 1 + q - (2 * 1018 + 4) - 3) / (1018 + 1) = b := by
      omega
    rw [quotient, residue, dec]
    refine ⟨?_, ?_, ?_⟩ <;> split_ifs <;> first | omega | rfl

/-- A path to a direct node below it -/
theorem Indirect.reach (eq : path = ⟨top.length + 1, top ++ [q, r],
    [0, 5 + 2 * nidsPerBlock].take top.length ++ [ofs, ofs + 1 + q]⟩) :
    Numbered inlineXattr block path ∧ ∀ p ∈ path.nodes, nodePlace p.1 = p.2 := by
  obtain ⟨indirect, place⟩ := above.node
  obtain ⟨start, direct, place'⟩ := above.child lt here
  have origin : nodePlace 0 = [] := rfl
  have double : isDnode (5 + 2 * nidsPerBlock) = false ∧
      nodePlace (5 + 2 * nidsPerBlock) = [nodeDir1Block + 4] := ⟨rfl, rfl⟩
  subst eq
  cases above
  all_goals exact ⟨⟨start, direct, by simpa [double] using indirect⟩,
    by simp [NodePath.nodes, origin, double, place, place']⟩

end

end Linux318.Source.F2fs
