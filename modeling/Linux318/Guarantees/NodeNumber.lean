import Linux318.Source.F2fs.NodeNumber

/-!
# The numbers of the nodes of a file

Source: fs/f2fs/node.c, fs/f2fs/gc.c, fs/f2fs/node.h. The numbers that `get_node_path` gives are
read back to the blocks, and tell the nodes of a file apart.
-/
namespace Linux318.Guarantees
open Source.F2fs

variable {inlineXattr : Bool} {block : Nat} {path : NodePath}

theorem getNodePath_nodes (found : getNodePath (addrsPerInode inlineXattr) block = some path) :
    Numbered inlineXattr block path ∧ ∀ p ∈ path.nodes, nodePlace p.1 = p.2 := by
  unfold getNodePath at found
  dsimp only at found
  split_ifs at found with inode first second left right double
  · cases found
    exact ⟨⟨Nat.zero_add _, rfl, by simp⟩, by simp [NodePath.nodes, nodePlace]⟩
  · cases found
    have start : startBidxOfNode inlineXattr 1 = addrsPerInode inlineXattr := by
      cases inlineXattr <;> rfl
    refine ⟨⟨(congrArg (· + _) start).trans ?_, rfl, by simp⟩, by simp [NodePath.nodes, nodePlace]⟩
    exact Nat.add_sub_cancel' (Nat.le_of_not_lt inode)
  · cases found
    have start : startBidxOfNode inlineXattr 2 = addrsPerInode inlineXattr + addrsPerBlock := by
      cases inlineXattr <;> rfl
    refine ⟨⟨(congrArg (· + _) start).trans ?_, rfl, by simp⟩, by simp [NodePath.nodes, nodePlace]⟩
    simp
    omega
  · refine (Indirect.inInode (Nat.zero_le 1)).reach (Nat.div_lt_of_lt_mul left) ?_
      (Option.some.inj found).symm
    unfold addrsPerBlock at *
    omega
  · refine (Indirect.inInode le_rfl).reach (Nat.div_lt_of_lt_mul right) ?_
      (Option.some.inj found).symm
    unfold addrsPerBlock nidsPerBlock at *
    omega
  obtain ⟨rest, whole⟩ : ∃ rest, rest = block - addrsPerInode inlineXattr - addrsPerBlock -
    addrsPerBlock - addrsPerBlock * nidsPerBlock - addrsPerBlock * nidsPerBlock := ⟨_, rfl⟩
  rw [← whole] at double found
  have again := Nat.div_add_mod (rest / addrsPerBlock) nidsPerBlock
  rw [Nat.div_div_eq_div_mul] at again
  refine (Indirect.inDouble (Nat.div_lt_of_lt_mul double)).reach (r := rest % addrsPerBlock)
    (Nat.mod_lt (rest / addrsPerBlock) (by decide)) ?_ ?_
  · generalize rest / (addrsPerBlock * nidsPerBlock) = x at again
    unfold addrsPerBlock nidsPerBlock at *
    omega
  · rw [← Option.some.inj found, Nat.add_right_comm (6 + 2 * nidsPerBlock)]
    rfl

/-- The numbers that `get_node_path` gives are read back, and no two nodes have the same. -/
theorem getNodePath_numbered (inlineXattr : Bool) (block block' : Nat) (path path' : NodePath)
    (found : getNodePath (addrsPerInode inlineXattr) block = some path)
    (found' : getNodePath (addrsPerInode inlineXattr) block' = some path') :
    Numbered inlineXattr block path ∧ ∀ p ∈ path.nodes, ∀ q ∈ path'.nodes, p.1 = q.1 → p.2 = q.2 := by
  obtain ⟨numbered, places⟩ := getNodePath_nodes found
  refine ⟨numbered, fun p inPath q inPath' same => ?_⟩
  rw [← places p inPath, ← (getNodePath_nodes found').2 q inPath', same]

theorem getNodePath_numbered_double :
    Numbered false 2075607 ⟨3, [nodeDir1Block + 4, 0, 0, 0], [0, 2041, 2042, 2043]⟩ :=
  (getNodePath_numbered false 2075607 0 _ ⟨0, [0], [0]⟩ rfl rfl).1

end Linux318.Guarantees
