import Linux318.Lib.Run
import Linux318.Source.Fs.ExtentStatusCalls

/-!
# ext4: the extent status tree

Source: fs/ext4/extents_status.c. Every run of calls keeps the tree well formed, whatever
allocations fail, and a call changes the mapping of the blocks of its range only.
-/
namespace Linux318.Guarantees
open Lib Source.Fs

variable {ei : EsInode} {lblk len : Nat}

/-- A call on the tree of an inode. Each has the shape that the balancing has given the tree by
then; the lists are the allocations that fail. -/
inductive EsCall where
  | insert (shape : Shape ExtentStatus) (lblk len pblk status : Nat)
      (removeFailures failures : List Bool)
  | remove (shape : Shape ExtentStatus) (lblk len : Nat) (failures : List Bool)
  | cache (shape : Shape ExtentStatus) (lblk len pblk status : Nat) (alloc : Bool)
  | findDelayed (shape : Shape ExtentStatus) (lblk fin : Nat)
  | reclaim (nrToScan : Int)

/-- The ranges that a file has: its blocks are below `EXT_MAX_BLOCKS`, and a range may be removed
up to the end of the 32 bits. -/
def EsCall.Valid : EsCall → Prop
  | insert _ lblk len _ _ _ _ => lblk + len ≤ extMaxBlocks
  | remove _ lblk len _ => lblk + len ≤ 2 ^ 32
  | cache _ lblk len _ _ _ => lblk + len ≤ extMaxBlocks
  | findDelayed _ lblk fin => lblk ≤ fin
  | reclaim _ => True

/-- The tree after a call; `none` stands for a `BUG_ON`. -/
def EsCall.run (ei : EsInode) : EsCall → Option EsInode
  | insert shape lblk len pblk status removeFailures failures =>
    (ext4EsInsertExtent shape ei lblk len pblk status removeFailures failures).map (·.2)
  | remove shape lblk len failures => (ext4EsRemoveExtent shape ei lblk len failures).map (·.2)
  | cache shape lblk len pblk status alloc =>
    ext4EsCacheExtent shape ei lblk len pblk status alloc
  | findDelayed shape lblk fin => (ext4EsFindDelayedExtentRange shape ei lblk fin).map (·.2)
  | reclaim nrToScan => (esTryToReclaimExtents ei nrToScan).map (·.2)

def esRun (calls : List EsCall) : Option EsInode := calls.foldlM EsCall.run ext4EsInitTree

/-- Every call keeps the tree. -/
theorem EsCall.run_ok (ok : EsOk ei) {call : EsCall} (valid : call.Valid) :
    ∃ ei', call.run ei = some ei' ∧ EsOk ei' := by
  cases call with
  | insert shape lblk len pblk status removeFailures failures =>
    obtain ⟨err, ei', res, ok', _⟩ :=
      ext4EsInsertExtent_spec shape ok valid pblk status removeFailures failures
    exact ⟨ei', by rw [run, res]; rfl, ok'⟩
  | remove shape lblk len failures =>
    obtain ⟨err, ei', res, ok', _⟩ := ext4EsRemoveExtent_spec shape ok valid failures
    exact ⟨ei', by rw [run, res]; rfl, ok'⟩
  | cache shape lblk len pblk status alloc =>
    obtain ⟨ei', res, ok', _⟩ := ext4EsCacheExtent_spec shape ok valid pblk status alloc
    exact ⟨ei', res, ok'⟩
  | findDelayed shape lblk fin =>
    obtain ⟨r, res, ok'⟩ := ext4EsFindDelayedExtentRange_spec shape ok valid
    exact ⟨r.2, by rw [run, res]; rfl, ok'⟩
  | reclaim nrToScan =>
    obtain ⟨nr, ei', res, ok', _⟩ := esTryToReclaimExtents_spec ok nrToScan
    exact ⟨ei', by rw [run, res]; rfl, ok'⟩

theorem foldlM_run_ok (calls : List EsCall) (valid : ∀ call ∈ calls, call.Valid) :
    ∃ ei, esRun calls = some ei ∧ EsOk ei := by
  obtain ⟨ei, run, ok, _⟩ := foldlM_invariant
    (fun rest ei => EsOk ei ∧ ∀ call ∈ rest, call.Valid) (fun call rest ei ⟨ok, valid⟩ => by
      obtain ⟨ei', res, ok'⟩ := EsCall.run_ok ok (valid call List.mem_cons_self)
      exact ⟨ei', res, ok', fun c mem => valid c (List.mem_cons_of_mem call mem)⟩)
    calls _ ⟨esOk_initTree, valid⟩
  exact ⟨ei, run, ok⟩

/-- In ranges below the block 0xffffffff no call runs into a `BUG_ON`, and every tree is well
formed: the extents are ordered, disjoint, not empty and do not wrap, `cache_es` is in the tree,
and both counters are exact. -/
theorem esRun_ok (calls : List EsCall) (valid : ∀ call ∈ calls, call.Valid) :
    ∃ ei, esRun calls = some ei ∧ EsOk ei :=
  foldlM_run_ok calls valid

/-- Calls in which a removal splits an extent, after an allocation that failed. -/
theorem esRun_ok_split : ∃ ei, esRun
    [.insert (Shape.line _) 10 20 500 8 [] [], .remove (Shape.line _) 15 5 [true]] = some ei ∧
      EsOk ei :=
  esRun_ok _ (by simp [EsCall.Valid, extMaxBlocks])

/-- The end of an extent at the last block of the 32 bits wraps: it is cached, and the next call
that finds it runs into the `BUG_ON` of `ext4_es_end`. -/
theorem esRun_lastBlock : (∃ ei, esRun [.cache (Shape.line _) 0xffffffff 1 500 8 true] = some ei ∧
      ei.entries.map (fun es => (es.esLblk, es.esLen)) = [(0xffffffff, 1)]) ∧
    esRun [.cache (Shape.line _) 0xffffffff 1 500 8 true,
      .remove (Shape.line _) 0xffffffff 1 []] = none :=
  ⟨⟨_, rfl, rfl⟩, rfl⟩

/-- A call with this effect: blocks in the range get the value, the others keep theirs. -/
def ChangesTo (ei ei' : EsInode) (lblk len : Nat) (value : Nat → Option (Nat × Option Nat)) : Prop :=
  ∀ shape shape' b, lookupValue shape' ei' b =
    if lblk ≤ b ∧ b < lblk + len then some (value b) else lookupValue shape ei b

/-- The status of an inserted block, and its physical block if the status has one. -/
def insertedValue (lblk pblk status b : Nat) : Nat × Option Nat :=
  (status % 16, if hasPblock (status % 16) then some ((pblk + (b - lblk)) % 2 ^ 60) else none)

/-- An insertion writes its range. -/
theorem insert_changesTo (shape : Shape ExtentStatus) (ok : EsOk ei)
    (bound : lblk + len ≤ extMaxBlocks) (pblk status : Nat) :
    ∃ ei', ext4EsInsertExtent shape ei lblk len pblk status [] [] = some (.zero, ei') ∧
      ChangesTo ei ei' lblk len fun b => some (insertedValue lblk pblk status b) := by
  obtain ⟨err, ei', res, ok', exact⟩ := ext4EsInsertExtent_spec shape ok bound pblk status [] []
  obtain ⟨rfl, exposes⟩ := exact rfl rfl
  refine ⟨ei', res, fun shape shape' b => ?_⟩
  split_ifs with inside
  · rw [lookupValue_eq_some_iff shape' ok', exposes]
    exact .inr ⟨inside, newExtent_value lblk len pblk status b⟩
  refine lookupValue_congr shape shape' ok ok' fun v => (exposes b v).trans ?_
  tauto

/-- A removal clears its range. -/
theorem remove_changesTo (shape : Shape ExtentStatus) (ok : EsOk ei) (bound : lblk + len ≤ 2 ^ 32) :
    ∃ ei', ext4EsRemoveExtent shape ei lblk len [] = some (.zero, ei') ∧
      ChangesTo ei ei' lblk len fun _ => none := by
  obtain ⟨err, ei', res, ok', exact⟩ := ext4EsRemoveExtent_spec shape ok bound []
  obtain ⟨rfl, exposes⟩ := exact rfl
  refine ⟨ei', res, fun shape shape' b => ?_⟩
  split_ifs with inside
  · rw [lookupValue_eq_none_iff shape' ok']
    intro v exposed
    exact ((exposes b v).mp exposed).2 inside
  · refine lookupValue_congr shape shape' ok ok' fun v => (exposes b v).trans ?_
    tauto

/-- No block of the range is in the tree. -/
def Absent (ei : EsInode) (lblk len : Nat) : Prop :=
  ∀ shape b, lblk ≤ b → b < lblk + len → lookupValue shape ei b = some none

theorem clear_of_absent (ok : EsOk ei) (pos : 0 < len)
    (absent : Absent ei lblk len) : Clear ei.entries lblk (lblk + len) := by
  intro es mem
  by_contra meets
  have selfPos := (ok.list.fine es mem).nonempty
  have inside : Covers es (max es.esLblk lblk) := ⟨by omega, by omega⟩
  exact (lookupValue_eq_none_iff (Shape.line _) ok _).mp (absent _ _ (by omega) (by omega)) _
    ⟨es, mem, inside, rfl⟩

theorem absent_of_clear (ok : EsOk ei)
    (clear : Clear ei.entries lblk (lblk + len)) : Absent ei lblk len := by
  intro shape b low high
  rw [lookupValue_eq_none_iff shape ok]
  rintro v ⟨es, mem, covers, _⟩
  have apart := clear es mem
  have low' := covers.1
  have high' := covers.2
  omega

theorem cache_changesTo (shape : Shape ExtentStatus) (ok : EsOk ei)
    (bound : lblk + len ≤ extMaxBlocks) (pblk status : Nat) :
    ∃ ei', ext4EsCacheExtent shape ei lblk len pblk status true = some ei' ∧
      (Absent ei lblk len →
        ChangesTo ei ei' lblk len fun b => some (insertedValue lblk pblk status b)) ∧
      (¬Absent ei lblk len → ei' = ei) := by
  by_cases empty : len = 0
  · refine ⟨ei, by simp [ext4EsCacheExtent, empty], fun _ shape shape' b => ?_, fun _ => rfl⟩
    rw [if_neg (by omega)]
    exact lookupValue_congr shape shape' ok ok fun _ => Iff.rfl
  obtain ⟨ei', res, ok', keeps, adds⟩ :=
    ext4EsCacheExtent_spec shape ok bound pblk status true
  refine ⟨ei', res, fun absent shape shape' b => ?_, fun present => keeps fun clear =>
    present (absent_of_clear ok clear)⟩
  have exposes := adds rfl (by omega) (clear_of_absent ok (by omega) absent)
  split_ifs with inside
  · rw [lookupValue_eq_some_iff shape' ok', exposes]
    exact .inr ⟨inside, newExtent_value lblk len pblk status b⟩
  refine lookupValue_congr shape shape' ok ok' fun v => (exposes b v).trans ?_
  constructor
  · rintro (before | ⟨covers, _⟩)
    · exact before
    · exact absurd covers inside
  · exact .inl

/-- In every tree that a run reaches, with allocations that succeed, a call changes what lookups
expose on its range and nowhere else. The exposed physical block is that of a status which has
one; for the other statuses a lookup exposes the status alone. -/
theorem esCalls_pointwise (calls : List EsCall) (valid : ∀ call ∈ calls, call.Valid) :
    ∃ ei, esRun calls = some ei ∧ ∀ shape lblk len, lblk + len ≤ extMaxBlocks →
      (∀ pblk status, ∃ ei', ext4EsInsertExtent shape ei lblk len pblk status [] [] =
          some (.zero, ei') ∧
        ChangesTo ei ei' lblk len fun b => some (insertedValue lblk pblk status b)) ∧
      (∃ ei', ext4EsRemoveExtent shape ei lblk len [] = some (.zero, ei') ∧
        ChangesTo ei ei' lblk len fun _ => none) ∧
      (∀ pblk status, ∃ ei', ext4EsCacheExtent shape ei lblk len pblk status true = some ei' ∧
        (Absent ei lblk len →
          ChangesTo ei ei' lblk len fun b => some (insertedValue lblk pblk status b)) ∧
        (¬Absent ei lblk len → ei' = ei)) := by
  obtain ⟨ei, reached, ok⟩ := foldlM_run_ok calls valid
  refine ⟨ei, reached, fun shape lblk len bound => ⟨insert_changesTo shape ok bound,
    remove_changesTo shape ok ?_, cache_changesTo shape ok bound⟩⟩
  simp only [extMaxBlocks] at bound
  omega

theorem esCalls_pointwise_written : ∃ ei, esRun [.insert (Shape.line _) 10 20 500 8 [] []] = some ei ∧
      ∃ ei', ext4EsRemoveExtent (Shape.line _) ei 15 5 [] = some (.zero, ei') ∧
        ChangesTo ei ei' 15 5 fun _ => none := by
  obtain ⟨ei, reached, effects⟩ := esCalls_pointwise [.insert (Shape.line _) 10 20 500 8 [] []]
    (by simp [EsCall.Valid, extMaxBlocks])
  exact ⟨ei, reached, (effects (Shape.line _) 15 5 (by decide)).2.1⟩

/-- The physical block of any extent, as the callers compute it. -/
def physicalAt (ei : EsInode) (lblk : Nat) : Option Nat :=
  match ext4EsLookupExtent (Shape.line _) ei lblk with
  | some (some es) => some (ext4EsPblock es + (lblk - es.esLblk))
  | _ => none

/-- A delayed block is inserted in front of another one, both with the physical block `~0` that
delayed allocation passes: the second block, which is not in the range, is exposed with another
physical block than before. -/
theorem insert_delayed_moves_next :
    (esRun [.insert (Shape.line _) 1 1 (2 ^ 64 - 1) 2 [] []]).bind (physicalAt · 1) =
        some (2 ^ 60 - 1) ∧
      (esRun [.insert (Shape.line _) 1 1 (2 ^ 64 - 1) 2 [] [],
        .insert (Shape.line _) 0 1 (2 ^ 64 - 1) 2 [] []]).bind (physicalAt · 1) = some (2 ^ 60) := by
  decide +kernel

end Linux318.Guarantees
