import Mathlib.Algebra.Order.Ring.Int
import Mathlib.Data.List.Nodup

/-!
Truncation of the node tree of a file, after `fs/f2fs/node.c` 391-463, 565-596 and
600-847. A node is its array of node ids, and an inode its `i_nid`; a node id without a
block address has no page. The data blocks, the counters of the file system, the
orphan list and the page locks (with the restart they may cause) are left out, as is the
branch of `truncate_node` for an inode without blocks. The place of a node is a list of slots
with the last one first; the empty list is the inode.
-/
namespace Linux318.Source.F2fs

def addrsPerBlock : Nat := 1018

def nidsPerBlock : Nat := 1018

/-- `NODE_DIR1_BLOCK`; the other four slots follow. -/
def nodeDir1Block : Nat := 924

def enoent : Int := 2

structure NodeState where
  page : Nat → Option (Nat → Nat)
  readError : Nat → Option Int
  freed : List Nat

def getNodePage (s : NodeState) (nid : Nat) : Except Int (Nat → Nat) :=
  match s.readError nid with
  | some err => .error err
  | none =>
    match s.page nid with
    | none => .error (-enoent)
    | some page => .ok page

def getNid (s : NodeState) (nid i : Nat) : Nat :=
  match s.page nid with
  | none => 0
  | some page => page i

def setNid (s : NodeState) (nid i child : Nat) : NodeState :=
  { s with
    page := Function.update s.page nid ((s.page nid).map fun page => Function.update page i child) }

def truncateNode (s : NodeState) (nid : Nat) : NodeState :=
  { s with page := Function.update s.page nid none, freed := s.freed ++ [nid] }

def truncateDnode (s : NodeState) (nid : Nat) : Int × NodeState :=
  if nid = 0 then (1, s)
  else
    match getNodePage s nid with
    | .error err => if err = -enoent then (1, s) else (err, s)
    | .ok _ => (1, truncateNode s nid)

/-- The loop over the direct nodes of an indirect one, in `truncate_nodes` and in
`truncate_partial_nodes`: the last result of `truncate_dnode`, which ends the loop if it is
negative, and the number of slots passed. -/
def dnodeLoop (nid : Nat) : Nat → Nat → Int → Int → NodeState → Int × Int × NodeState
  | 0, _, ret, freed, s => (ret, freed, s)
  | left + 1, i, ret, freed, s =>
    let childNid := getNid s nid i
    if childNid = 0 then dnodeLoop nid left (i + 1) ret (freed + 1) s
    else
      let (ret, s) := truncateDnode s childNid
      if ret < 0 then (ret, freed, s)
      else dnodeLoop nid left (i + 1) ret (freed + 1) (setNid s nid i 0)

/-- The loop of `truncate_nodes` over the indirect nodes of a double indirect one; an error
stops it. -/
def nodesLoop (truncate : NodeState → Nat → Int → Nat → Int × NodeState) (nid : Nat) :
    Nat → Nat → Int → NodeState → Except Int Int × NodeState
  | 0, _, childNofs, s => (.ok childNofs, s)
  | left + 1, i, childNofs, s =>
    let childNid := getNid s nid i
    if childNid = 0 then nodesLoop truncate nid left (i + 1) (childNofs + (nidsPerBlock + 1)) s
    else
      let (ret, s) := truncate s childNid childNofs 0
      if ret = nidsPerBlock + 1 then
        nodesLoop truncate nid left (i + 1) (childNofs + ret) (setNid s nid i 0)
      else if ret < 0 ∧ ret ≠ -enoent then (.error ret, s)
      else nodesLoop truncate nid left (i + 1) childNofs s

/-- The end of `truncate_nodes` -/
def removeIndirect (s : NodeState) (nid ofs : Nat) (freed : Int) : Int × NodeState :=
  if ofs = 0 then (freed + 1, truncateNode s nid) else (freed, s)

def truncateNodes : Nat → NodeState → Nat → Int → Nat → Int × NodeState
  | depth + 3, s, nid, nofs, ofs =>
    if nid = 0 then (nidsPerBlock + 1, s)
    else
      match getNodePage s nid with
      | .error err => (err, s)
      | .ok _ =>
        let childNofs := nofs + ofs * (nidsPerBlock + 1) + 1
        match nodesLoop (truncateNodes (depth + 2)) nid (nidsPerBlock - ofs) ofs childNofs s with
        | (.error ret, s) => (ret, s)
        | (.ok freed, s) => removeIndirect s nid ofs freed
  | _, s, nid, _, ofs =>
    if nid = 0 then (nidsPerBlock + 1, s)
    else
      match getNodePage s nid with
      | .error err => (err, s)
      | .ok _ =>
        let (ret, freed, s) := dnodeLoop nid (nidsPerBlock - ofs) ofs 0 0 s
        if ret < 0 then (ret, s) else removeIndirect s nid ofs freed

structure NodePath where
  level : Nat
  offset : List Nat
  noffset : List Nat

/-- `get_node_path`; none is its `BUG`. -/
def getNodePath (directIndex block : Nat) : Option NodePath :=
  let directBlks := addrsPerBlock
  let dptrsPerBlk := nidsPerBlock
  let indirectBlks := addrsPerBlock * nidsPerBlock
  let dindirectBlks := indirectBlks * nidsPerBlock
  if block < directIndex then some ⟨0, [block], [0]⟩
  else
    let block := block - directIndex
    if block < directBlks then some ⟨1, [nodeDir1Block, block], [0, 1]⟩
    else
      let block := block - directBlks
      if block < directBlks then some ⟨1, [nodeDir1Block + 1, block], [0, 2]⟩
      else
        let block := block - directBlks
        if block < indirectBlks then
          some ⟨2, [nodeDir1Block + 2, block / directBlks, block % directBlks],
            [0, 3, 4 + block / directBlks]⟩
        else
          let block := block - indirectBlks
          if block < indirectBlks then
            some ⟨2, [nodeDir1Block + 3, block / directBlks, block % directBlks],
              [0, 4 + dptrsPerBlk, 5 + dptrsPerBlk + block / directBlks]⟩
          else
            let block := block - indirectBlks
            if block < dindirectBlks then
              some ⟨3, [nodeDir1Block + 4, block / indirectBlks, block / directBlks % dptrsPerBlk,
                  block % directBlks],
                [0, 5 + dptrsPerBlk * 2,
                  6 + dptrsPerBlk * 2 + block / indirectBlks * (dptrsPerBlk + 1),
                  7 + dptrsPerBlk * 2 + block / indirectBlks * (dptrsPerBlk + 1) +
                    block / directBlks % dptrsPerBlk]⟩
            else none

def readPath (s : NodeState) (offset : List Nat) : Nat → Nat → Nat → Except Int Nat
  | 0, _, nid =>
    match getNodePage s nid with
    | .error err => .error err
    | .ok _ => .ok nid
  | left + 1, i, nid =>
    match getNodePage s nid with
    | .error err => .error err
    | .ok page => readPath s offset left (i + 1) (page (offset.getD (i + 1) 0))

/-- `truncate_partial_nodes`: the error, and the offsets that it moves on. -/
def truncatePartialNodes (s : NodeState) (ino : Nat) (offset : List Nat) (depth : Nat) :
    Int × List Nat × NodeState :=
  let idx := depth - 2
  let top := getNid s ino (offset.getD 0 0 - nodeDir1Block)
  if top = 0 then (0, offset, s)
  else
    match readPath s offset idx 0 top with
    | .error err => (err, offset, s)
    | .ok nid =>
      let start := offset.getD (idx + 1) 0
      let (err, _, s) := dnodeLoop nid (nidsPerBlock - start) start 0 0 s
      if err < 0 then (err, offset, s)
      else
        let s := if start = 0 then truncateNode s nid else s
        (err, (offset.set idx (offset.getD idx 0 + 1)).set (idx + 1) 0, s)

/-- The call that the loop of `truncate_inode_blocks` makes for a slot; none is its `BUG`. -/
def slotCall (s : NodeState) (nid : Nat) (nofs : Int) (offset0 offset1 : Nat) :
    Option (Int × NodeState) :=
  if offset0 = nodeDir1Block ∨ offset0 = nodeDir1Block + 1 then some (truncateDnode s nid)
  else if offset0 = nodeDir1Block + 2 ∨ offset0 = nodeDir1Block + 3 then
    some (truncateNodes 2 s nid nofs offset1)
  else if offset0 = nodeDir1Block + 4 then some (truncateNodes 3 s nid nofs offset1)
  else none

def clearSlot (s : NodeState) (ino offset0 offset1 : Nat) : NodeState :=
  if offset1 = 0 ∧ getNid s ino (offset0 - nodeDir1Block) ≠ 0 then
    setNid s ino (offset0 - nodeDir1Block) 0
  else s

/-- The loop of `truncate_inode_blocks` over the slots, up to the last one -/
def slotLoop (ino : Nat) : Nat → NodeState → Nat → Nat → Int → Option (Int × NodeState)
  | 0, _, _, _, _ => none
  | rounds + 1, s, offset0, offset1, nofs =>
    match slotCall s (getNid s ino (offset0 - nodeDir1Block)) nofs offset0 offset1 with
    | none => none
    | some (err, s) =>
      if err < 0 ∧ err ≠ -enoent then some (err, s)
      else if offset0 = nodeDir1Block + 4 then
        some (if 0 < err then 0 else err, clearSlot s ino offset0 offset1)
      else slotLoop ino rounds (clearSlot s ino offset0 offset1) (offset0 + 1) 0 (nofs + err)

/-- `truncate_inode_blocks` from the label `skip_partial` on -/
def truncateSlots (ino : Nat) (s : NodeState) (offset : List Nat) (nofs : Int) :
    Option (Int × NodeState) :=
  slotLoop ino 5 s (offset.getD 0 0) (offset.getD 1 0) nofs

def truncateInodeBlocks (ino directIndex : Nat) (s : NodeState) (start : Nat) :
    Option (Int × NodeState) :=
  match getNodePath directIndex start with
  | none => none
  | some path =>
    match getNodePage s ino with
    | .error err => some (err, s)
    | .ok _ =>
      let nofs : Int := if path.level < 3 then path.noffset.getD 1 0 else 5 + 2 * nidsPerBlock
      if path.level < 2 ∨ path.offset.getD (path.level - 1) 0 = 0 then
        truncateSlots ino s path.offset nofs
      else
        match truncatePartialNodes s ino path.offset path.level with
        | (err, offset, s) =>
          if err < 0 ∧ err ≠ -enoent then some (err, s)
          else
            truncateSlots ino s offset (if path.level = 2 then nofs + (1 + nidsPerBlock) else nofs)

open Function

def IsPlace : List Nat → Prop
  | [] => True
  | [b] => b < 5
  | [j, b] => j < nidsPerBlock ∧ 2 ≤ b ∧ b < 5
  | [j, i, b] => j < nidsPerBlock ∧ i < nidsPerBlock ∧ b = 4
  | _ => False

theorem IsPlace.shape {q : List Nat} (place : IsPlace q) : q = [] ∨ (∃ b, q = [b] ∧ b < 5) ∨
    (∃ j b, q = [j, b] ∧ j < nidsPerBlock ∧ 2 ≤ b ∧ b < 5) ∨
    ∃ j i, q = [j, i, 4] ∧ j < nidsPerBlock ∧ i < nidsPerBlock := by
  rcases q with _ | ⟨j, _ | ⟨i, _ | ⟨b, _ | _⟩⟩⟩
  · exact .inl rfl
  · exact .inr (.inl ⟨j, rfl, place⟩)
  · exact .inr (.inr (.inl ⟨j, i, rfl, place⟩))
  · obtain ⟨left, right, rfl⟩ := place
    exact .inr (.inr (.inr ⟨j, i, rfl, left, right⟩))
  · exact place.elim

def nidAt (s : NodeState) (ino : Nat) : List Nat → Nat
  | [] => ino
  | j :: p => getNid s (nidAt s ino p) j

/-- The nodes below an inode are a tree, and all can be read. -/
structure TreeOk (s : NodeState) (ino : Nat) : Prop where
  inode : ino ≠ 0
  null : s.page 0 = none
  reads : ∀ nid, s.readError nid = none
  present {p : List Nat} : IsPlace p → nidAt s ino p ≠ 0 → ∃ page, s.page (nidAt s ino p) = some page
  distinct {p q : List Nat} : IsPlace p → IsPlace q → nidAt s ino p = nidAt s ino q →
    nidAt s ino p ≠ 0 → p = q

/-- The nodes at the places of `D` are freed, the pointers to the places of `C` are cleared, and
nothing else is changed. -/
structure Cut (s0 s : NodeState) (ino : Nat) (D C : List Nat → Prop) : Prop where
  reads : s.readError = s0.readError
  gone {p : List Nat} : IsPlace p → D p → nidAt s0 ino p ≠ 0 → s.page (nidAt s0 ino p) = none
  kept {p : List Nat} {page : Nat → Nat} : IsPlace p → ¬ D p → nidAt s0 ino p ≠ 0 →
    s0.page (nidAt s0 ino p) = some page → ∃ page', s.page (nidAt s0 ino p) = some page' ∧ ∀ j,
      (IsPlace (j :: p) ∧ C (j :: p) → page' j = 0) ∧
      (¬ (IsPlace (j :: p) ∧ C (j :: p)) → page' j = page j)
  other {nid : Nat} : (∀ p, IsPlace p → nidAt s0 ino p ≠ nid) → s.page nid = s0.page nid
  log : ∃ l, s.freed = s0.freed ++ l ∧ l.Nodup ∧
    ∀ nid, nid ∈ l ↔ nid ≠ 0 ∧ ∃ p, IsPlace p ∧ D p ∧ nidAt s0 ino p = nid

section
variable {s0 s : NodeState} {ino : Nat} {D C : List Nat → Prop}

theorem getNid_eq {nid i : Nat} {page : Nat → Nat} (here : s.page nid = some page) :
    getNid s nid i = page i := by
  rw [getNid, here]

theorem Cut.refl (s : NodeState) (ino : Nat) : Cut s s ino (fun _ => False) (fun _ => False) where
  reads := rfl
  gone _ none := none.elim
  kept _ _ _ here := ⟨_, here, fun _ => ⟨fun none => none.2.elim, fun _ => rfl⟩⟩
  other _ := rfl
  log := ⟨[], by simp, .nil, by simp⟩

theorem Cut.congr {D' C' : List Nat → Prop} (cut : Cut s0 s ino D C)
    (sameD : ∀ p, IsPlace p → nidAt s0 ino p ≠ 0 → (D p ↔ D' p))
    (sameC : ∀ p, IsPlace p → nidAt s0 ino p ≠ 0 → (C p ↔ C' p)) : Cut s0 s ino D' C' where
  reads := cut.reads
  gone place del some := cut.gone place ((sameD _ place some).mpr del) some
  kept {p page} place left some here := by
    obtain ⟨page', there, entries⟩ := cut.kept place (mt (sameD p place some).mp left) some here
    have hole (j : Nat) (zero : nidAt s0 ino (j :: p) = 0) : page' j = 0 ∧ page j = 0 := by
      rw [nidAt, getNid_eq here] at zero
      by_cases cleared : IsPlace (j :: p) ∧ C (j :: p)
      · exact ⟨(entries j).1 cleared, zero⟩
      · exact ⟨((entries j).2 cleared).trans zero, zero⟩
    refine ⟨page', there, fun j => ?_⟩
    by_cases zero : nidAt s0 ino (j :: p) = 0
    · obtain ⟨left, right⟩ := hole j zero
      exact ⟨fun _ => left, fun _ => left.trans right.symm⟩
    refine ⟨fun gone => ?_, fun stays => ?_⟩
    · exact (entries j).1 ⟨gone.1, (sameC _ gone.1 zero).mpr gone.2⟩
    · exact (entries j).2 fun gone => stays ⟨gone.1, (sameC _ gone.1 zero).mp gone.2⟩
  other := cut.other
  log := by
    obtain ⟨l, log, nodup, mem⟩ := cut.log
    refine ⟨l, log, nodup, fun nid => (mem nid).trans (and_congr_right fun ne =>
      exists_congr fun p => and_congr_right fun place => and_congr_left fun same => ?_)⟩
    exact sameD p place (same ▸ ne)

section
variable (tree : TreeOk s0 ino) (cut : Cut s0 s ino D C) {p : List Nat}
include tree cut

section
variable (place : IsPlace p) (left : ¬ D p) (some : nidAt s0 ino p ≠ 0)
include place left some

/-- The id that is read in a slot that is not yet cleared. -/
theorem Cut.getNid_kept {j : Nat} (stays : ¬ C (j :: p)) :
    getNid s (nidAt s0 ino p) j = nidAt s0 ino (j :: p) := by
  obtain ⟨page, here⟩ := tree.present place some
  obtain ⟨page', there, entries⟩ := cut.kept place left some here
  rw [getNid_eq there, (entries j).2 fun gone => stays gone.2, nidAt, getNid_eq here]

theorem Cut.getNodePage : ∃ page, getNodePage s (nidAt s0 ino p) = .ok page ∧
      ∀ j, page j = getNid s (nidAt s0 ino p) j := by
  obtain ⟨page, here⟩ := tree.present place some
  obtain ⟨page', there, _⟩ := cut.kept place left some here
  refine ⟨page', ?_, fun j => (getNid_eq there).symm⟩
  simp only [F2fs.getNodePage, cut.reads, tree.reads, there]

theorem Cut.free : Cut s0 (truncateNode s (nidAt s0 ino p)) ino (fun q => D q ∨ q = p) C where
  reads := cut.reads
  gone {q} placeQ del someQ := by
    by_cases same : nidAt s0 ino q = nidAt s0 ino p
    · rw [same]
      exact update_self ..
    · refine (update_of_ne same ..).trans (cut.gone placeQ ?_ someQ)
      exact del.resolve_right fun eq => same (eq ▸ rfl)
  kept {q page} placeQ leftQ someQ here := by
    have differ : nidAt s0 ino q ≠ nidAt s0 ino p := fun same =>
      leftQ (.inr (tree.distinct placeQ place same someQ))
    obtain ⟨page', there, entries⟩ := cut.kept placeQ (fun del => leftQ (.inl del)) someQ here
    exact ⟨page', (update_of_ne differ ..).trans there, entries⟩
  other {nid} out :=
    (update_of_ne (out p place).symm ..).trans (cut.other out)
  log := by
    obtain ⟨l, log, nodup, mem⟩ := cut.log
    refine ⟨l ++ [nidAt s0 ino p], by simp [truncateNode, log], ?_, fun nid => ?_⟩
    · refine List.Nodup.append nodup (List.nodup_singleton _) fun nid old new => ?_
      obtain ⟨_, q, placeQ, del, same⟩ := (mem nid).mp old
      rw [List.mem_singleton] at new
      have eq := tree.distinct place placeQ (new.symm.trans same.symm) some
      exact left (eq ▸ del)
    rw [List.mem_append, mem, List.mem_singleton]
    constructor
    · rintro (⟨ne, q, placeQ, del, same⟩ | rfl)
      · exact ⟨ne, q, placeQ, .inl del, same⟩
      · exact ⟨some, p, place, .inr rfl, rfl⟩
    · rintro ⟨ne, q, placeQ, del | rfl, same⟩
      · exact .inl ⟨ne, q, placeQ, del, same⟩
      · exact .inr same.symm

end

theorem Cut.clear {j : Nat}
    (place : IsPlace (j :: p)) (placeP : IsPlace p) (left : ¬ D p) (some : nidAt s0 ino p ≠ 0) :
    Cut s0 (setNid s (nidAt s0 ino p) j 0) ino D (fun q => C q ∨ q = j :: p) where
  reads := cut.reads
  gone {q} placeQ del someQ := by
    have differ : nidAt s0 ino q ≠ nidAt s0 ino p := fun same =>
      left (tree.distinct placeQ placeP same someQ ▸ del)
    exact (update_of_ne differ ..).trans (cut.gone placeQ del someQ)
  kept {q page} placeQ leftQ someQ here := by
    obtain ⟨page', there, entries⟩ := cut.kept placeQ leftQ someQ here
    by_cases same : nidAt s0 ino q = nidAt s0 ino p
    · have eq := tree.distinct placeQ placeP same someQ
      subst eq
      refine ⟨update page' j 0, ?_, fun k => ⟨fun gone => ?_, fun stays => ?_⟩⟩
      · refine (update_self ..).trans ?_
        rw [there]
        rfl
      · by_cases here : k = j
        · rw [here, update_self]
        · rw [update_of_ne here]
          exact (entries k).1 ⟨gone.1, gone.2.resolve_right fun eq => here (List.cons.inj eq).1⟩
      · have other : k ≠ j := fun here => stays ⟨here ▸ place, .inr (here ▸ rfl)⟩
        rw [update_of_ne other]
        exact (entries k).2 fun gone => stays ⟨gone.1, .inl gone.2⟩
    · refine ⟨page', (update_of_ne same ..).trans there, fun k => ⟨fun gone => ?_,
        fun stays => (entries k).2 fun gone => stays ⟨gone.1, .inl gone.2⟩⟩⟩
      refine (entries k).1 ⟨gone.1, gone.2.resolve_right fun eq => same ?_⟩
      rw [(List.cons.inj eq).2]
  other {nid} out :=
    (update_of_ne (out p placeP).symm ..).trans (cut.other out)
  log := cut.log

end

theorem nidAt_below (tree : TreeOk s0 ino) {p : List Nat} (hole : nidAt s0 ino p = 0) (j : Nat) :
    nidAt s0 ino (j :: p) = 0 := by
  rw [nidAt, hole, getNid, tree.null]

end

end Linux318.Source.F2fs
