import Linux318.Source.Fs.PosixLockFile

/-!
A failed update, fs/locks.c:1001-1105. On locks that are sorted by their start, a loop that
has changed the list has no error exit left.
-/
namespace Linux318.Source.Fs
open List

variable {fl : FileLock} {rest locks : List FileLock} {w : Walk}

/-- The request starts before all locks of its owner that are left, none of which is `left`. -/
structure Ahead (w : Walk) (rest : List FileLock) : Prop where
  starts : ∀ fl ∈ rest, w.request.flOwner = fl.flOwner → w.request.flStart ≤ fl.flStart
  left : ∀ fl ∈ rest, w.left ≠ some fl.addr
  noRight : w.right = false

/-- The code after the loop has no error to report. -/
structure Succeeds (e : WalkEnd) : Prop where
  entered : e.failed = false
  whole : e.walk.splits e.rest = false
  added : e.walk.added = true

theorem splits_of_noRight (noRight : w.right = false) : w.splits rest = false := by
  cases rest <;> simp [Walk.splits, noRight]

theorem Ahead.tail (ahead : Ahead w (fl :: rest)) : Ahead w rest where
  starts r hr := ahead.starts r (mem_cons_of_mem _ hr)
  left r hr := ahead.left r (mem_cons_of_mem _ hr)
  noRight := ahead.noRight

/-- Once a lock is added, every way out of the loop is a success. -/
theorem processLocks_succeeds (ahead : Ahead w rest) (added : w.added = true) :
    Succeeds (processLocks w rest) := by
  induction rest generalizing w with
  | nil => exact ⟨rfl, splits_of_noRight ahead.noRight, added⟩
  | cons fl rest ih =>
    have stop : Succeeds ⟨w, fl :: rest, false⟩ := ⟨rfl, splits_of_noRight ahead.noRight, added⟩
    have pass : Succeeds (processLocks (w.pass fl) rest) :=
      ih ⟨ahead.tail.starts, ahead.tail.left, ahead.noRight⟩ added
    unfold processLocks
    by_cases own : posixSameOwner w.request fl = true
    · have start := ahead.starts fl mem_cons_self (by simpa [posixSameOwner] using own)
      simp only [own, Bool.not_true, Bool.false_eq_true, if_false]
      split
      · split
        · exact pass
        split
        · exact stop
        refine ih ⟨fun r hr same => ?_, ahead.tail.left, ahead.noRight⟩ added
        have := ahead.tail.starts r hr same
        simp only [Walk.delete, Walk.widen]
        split <;> omega
      split
      · exact pass
      split
      · exact stop
      rw [differentType_eq rfl]
      have notLeft : ¬ fl.flStart < w.request.flStart := by omega
      simp only [added, Bool.or_true]
      split
      · refine ⟨rfl, ?_, rfl⟩
        simpa [Walk.splits] using ahead.left fl mem_cons_self
      · exact ih ⟨ahead.tail.starts, ahead.tail.left, ahead.noRight⟩ rfl
    · rwa [if_pos (by simpa using own)]

structure Sorted (w : Walk) (rest : List FileLock) : Prop where
  starts : rest.Pairwise fun a b => a.flOwner = b.flOwner → a.flStart ≤ b.flStart
  addrs : (rest.map FileLock.addr).Nodup
  left : ∀ fl ∈ rest, w.left ≠ some fl.addr
  noRight : w.right = false

theorem Sorted.tail (sorted : Sorted w (fl :: rest)) : Sorted w rest where
  starts := sorted.starts.of_cons
  addrs := (nodup_cons.mp sorted.addrs).2
  left r hr := sorted.left r (mem_cons_of_mem _ hr)
  noRight := sorted.noRight

/-- A request of the same owner that starts no later than the lock just met. -/
theorem Sorted.ahead (sorted : Sorted w (fl :: rest)) {w' : Walk} (left : w'.left = w.left)
    (right : w'.right = w.right) (owner : w'.request.flOwner = fl.flOwner)
    (start : w'.request.flStart ≤ fl.flStart) : Ahead w' rest where
  starts r hr same :=
    start.trans ((pairwise_cons.mp sorted.starts).1 r hr (owner.symm.trans same))
  left := left ▸ sorted.tail.left
  noRight := right.trans sorted.noRight

/-- The loop leaves the list as it was, or the call succeeds. -/
theorem processLocks_unchanged (sorted : Sorted w rest) (same : w.passed ++ rest = locks) :
    (processLocks w rest).walk.passed ++ (processLocks w rest).rest = locks ∨
      Succeeds (processLocks w rest) := by
  induction rest generalizing w with
  | nil => exact .inl same
  | cons fl rest ih =>
    have passed : w.passed ++ [fl] ++ rest = locks := by simpa using same
    unfold processLocks
    by_cases own : posixSameOwner w.request fl = true
    · have owner : w.request.flOwner = fl.flOwner := by simpa [posixSameOwner] using own
      simp only [own, Bool.not_true, Bool.false_eq_true, if_false]
      split
      · split
        · exact ih ⟨sorted.tail.starts, sorted.tail.addrs, sorted.tail.left, sorted.noRight⟩ passed
        split
        · exact .inl same
        right
        split
        · refine processLocks_succeeds (sorted.ahead rfl rfl owner ?_) ‹_›
          simp only [Walk.delete, Walk.widen]
          split <;> omega
        · refine processLocks_succeeds (sorted.ahead rfl rfl rfl ?_) rfl
          dsimp only
          split <;> omega
      split
      · exact ih ⟨sorted.tail.starts, sorted.tail.addrs, sorted.tail.left, sorted.noRight⟩ passed
      split
      · exact .inl same
      rw [differentType_eq rfl]
      dsimp only
      split
      · exact .inl same
      split
      next start =>
        have notLeft : ¬ fl.flStart < w.request.flStart := by omega
        split
        · exact .inr (processLocks_succeeds (sorted.ahead rfl rfl owner start) ‹_›)
        split
        · exact .inl same
        · exact .inr ⟨rfl, splits_of_noRight sorted.noRight, rfl⟩
      next start =>
        rw [if_pos (by omega)]
        refine ih ⟨sorted.tail.starts, sorted.tail.addrs, fun r hr isLeft => ?_,
          sorted.noRight⟩ passed
        -- `left` is the lock just passed, and addresses are nodup.
        have := (nodup_cons.mp sorted.addrs).1
        rw [Option.some.inj isLeft] at this
        exact this (mem_map_of_mem hr)
    · rw [if_pos (by simpa using own)]
      exact .inl same

theorem finishUpdate_failed (sorted : Sorted w rest) (same : w.passed ++ rest = locks)
    (flExists : Bool) (newFl2 : Option Nat)
    (failed : (finishUpdate flExists (processLocks w rest) newFl2).error ≠ .ok) :
    (finishUpdate flExists (processLocks w rest) newFl2).iFlock = locks := by
  revert failed
  rcases processLocks_unchanged sorted same with same | success
  · unfold finishUpdate
    dsimp only
    repeat' split
    all_goals simp [same, trim_error]
  · simp [finishUpdate, success.entered, success.whole, success.added, trim_error]

/-- An update that reports an error has left a sorted list as it was. -/
theorem posixUpdate_failed {req : PosixRequest} {newFl newFl2 : Option Nat}
    (starts : locks.Pairwise fun a b => a.flOwner = b.flOwner → a.flStart ≤ b.flStart)
    (addrs : (locks.map FileLock.addr).Nodup)
    (failed : (posixUpdate locks req newFl newFl2).error ≠ .ok) :
    (posixUpdate locks req newFl newFl2).iFlock = locks := by
  have part := dropWhile_sublist (otherOwner req.lock) (l := locks)
  have sorted : ∀ w : Walk, w.left = none → w.right = false →
      Sorted w (locks.dropWhile (otherOwner req.lock)) := fun w left right =>
    ⟨starts.sublist part, (part.map _).nodup addrs, by simp [left], right⟩
  exact finishUpdate_failed (sorted _ rfl rfl) takeWhile_append_dropWhile _ _ failed

end Linux318.Source.Fs
