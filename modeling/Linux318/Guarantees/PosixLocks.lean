import Linux318.Source.Fs.PosixLockFail
import Linux318.Source.Fs.PosixLockList

/-!
# POSIX locks over whole runs

Source: fs/locks.c:926-1142. Any number of owners call `__posix_lock_file` on any number
of inodes, in any order, and spare records may be missing. The list of every inode stays
in normal form, and every successful call sets exactly the modes that it names, as long
as no call meets the condition that cuts the loop short.
-/
namespace Linux318.Guarantees
open Lib Source.Fs

/-- The loop of this call sees every lock that it has to see. -/
def WalkComplete (s : LockState) : LockEvent → Prop
  | .call ino req _ _ =>
    conflicting (s.iFlock ino) req = none → req.flAccess = false →
      ReplacesLast req.lock (ownLocks req.flOwner (s.iFlock ino))
  | .deleteBlock _ => True

instance (s : LockState) (e : LockEvent) : Decidable (WalkComplete s e) :=
  match e with
  | .call ino req _ _ => inferInstanceAs (Decidable
      (conflicting (s.iFlock ino) req = none → req.flAccess = false →
        ReplacesLast req.lock (ownLocks req.flOwner (s.iFlock ino))))
  | .deleteBlock _ => isTrue trivial

/-- All lock lists are in normal form, and addresses are not used twice. -/
structure LocksOk (s : LockState) : Prop where
  lists : ∀ ino, LockListOk (s.iFlock ino)
  addrs : AddrsOk s

/-- The conflict check of a call that goes on to update the list. -/
theorem conflicting_none {locks : List FileLock} {req : PosixRequest}
    (free : conflicting locks req = none) (lock : req.flType ≠ .unlck) {p : FileLock}
    (hp : p ∈ locks) : posixLocksConflict req.lock p = false := by
  rw [conflicting, if_neg lock, List.find?_eq_none] at free
  have := free p hp
  by_contra hconflict
  rw [Bool.not_eq_false] at hconflict
  have hposix := (posixLocksConflict_iff _ _).mp hconflict
  simp [isPosix, hposix.1, hconflict] at this

section Update
variable {s : LockState} {ino : Nat} {req : PosixRequest} {newFl newFl2 : Option Nat}
  (ok : LocksOk s) (free : conflicting (s.iFlock ino) req = none)
  (replaces : ReplacesLast req.lock (ownLocks req.flOwner (s.iFlock ino)))
  (first : ∀ a, newFl = some a → a = s.nextAddr)
  (second : ∀ a, newFl2 = some a → a = s.nextAddr + 1)

include ok in
theorem LocksOk.starts :
    (s.iFlock ino).Pairwise fun a b => a.flOwner = b.flOwner → a.flStart ≤ b.flStart := by
  refine (ok.lists ino).ordered.imp_of_mem fun {a b} ha _ apart same => ?_
  have := ((ok.lists ino).range a ha).2.1
  have := (apart same).1
  omega

include ok free replaces first second in
/-- One update, with the normal form of the new list. -/
theorem posixUpdate_listOk : LockListOk (posixUpdate (s.iFlock ino) req newFl newFl2).iFlock := by
  by_cases success : (posixUpdate (s.iFlock ino) req newFl newFl2).error = .ok
  · obtain ⟨x, y, z, hlocks, split, closed, y', start, fin, carved⟩ :=
      posixUpdate_carved (ok.lists ino) (ok.addrs.addrs ino first second) replaces success
    refine carved.listOk (hlocks ▸ ok.lists ino) split ?_ closed
    intro lock p hp
    exact conflicting_none free lock (hlocks ▸ hp)
  · rw [posixUpdate_failed ok.starts (ok.addrs.nodup ino) success]
    exact ok.lists ino

include ok replaces first second in
/-- One successful update, seen through the modes. -/
theorem posixUpdate_lockMode (success : (posixUpdate (s.iFlock ino) req newFl newFl2).error = .ok)
    (owner : LockOwner) (offset : Int) :
    lockMode (posixUpdate (s.iFlock ino) req newFl newFl2).iFlock owner offset =
      if owner = req.flOwner ∧ req.flStart ≤ offset ∧ offset ≤ req.flEnd then req.flType.mode
      else lockMode (s.iFlock ino) owner offset := by
  obtain ⟨x, y, z, hlocks, split, _, y', start, fin, carved⟩ :=
    posixUpdate_carved (ok.lists ino) (ok.addrs.addrs ino first second) replaces success
  have hok := ok.lists ino
  rw [hlocks] at hok
  have := carved.lockMode_eq hok split owner offset
  rwa [← hlocks] at this

end Update

/-- A call whose loop is complete keeps the normal form. -/
theorem lockStep_lists (s : LockState) (e : LockEvent) (ok : LocksOk s)
    (complete : WalkComplete s e) (i : Nat) : LockListOk ((lockStep s e).iFlock i) := by
  cases e with
  | deleteBlock addr => exact ok.lists i
  | call ino req alloc alloc2 =>
    rcases posixLockFile_cases s ino req alloc alloc2 with
      ⟨fl, _, hcall | ⟨_, hcall⟩ | ⟨_, hcall⟩⟩ | ⟨_, _, hcall⟩ |
      ⟨free, noAccess, newFl, newFl2, first, second, hcall⟩ <;> rw [lockStep, hcall]
    · exact ok.lists i
    · exact ok.lists i
    · exact ok.lists i
    · exact ok.lists i
    · dsimp only
      split_ifs
      · exact posixUpdate_listOk ok free (complete free noAccess) first second
      · exact ok.lists i

theorem run_locksOk (events : List LockEvent)
    (complete : StepsMeet lockStep WalkComplete .empty events) :
    LocksOk (runFrom lockStep .empty events) :=
  runFrom_invariant lockStep
    (fun s e ok hc => ⟨lockStep_lists s e ok hc, lockStep_addrsOk s e ok.addrs⟩) events .empty
    ⟨fun _ => LockListOk.nil, AddrsOk.empty⟩ complete

def twoWriteLocks : List LockEvent :=
  [.call 0 (setlk 1 false .wrlck isPosixType_wrlck 0 9 (by decide)) true true,
    .call 0 (setlk 1 false .wrlck isPosixType_wrlck 20 29 (by decide)) true true]

def readOverBoth : PosixRequest := setlk 1 false .rdlck isPosixType_rdlck 0 29 (by decide)

def readInside : PosixRequest := setlk 1 false .rdlck isPosixType_rdlck 3 5 (by decide)

def release (start fin : Int) (range : 0 ≤ start ∧ start ≤ fin ∧ fin ≤ offsetMax) :
    PosixRequest :=
  setlk 1 false .unlck (.inr (.inr rfl)) start fin range

/-- In every run of complete calls, the lock list of every inode is in normal form. -/
theorem run_lockListOk (events : List LockEvent)
    (complete : StepsMeet lockStep WalkComplete .empty events) (ino : Nat) :
    LockListOk ((runFrom lockStep .empty events).iFlock ino) :=
  (run_locksOk events complete).lists ino

theorem run_lockListOk_twoWriteLocks :
    LockListOk ((runFrom lockStep .empty (twoWriteLocks ++ [.call 0 readInside true true])).iFlock
      0) :=
  run_lockListOk _ (by decide +kernel) 0

/-- The read lock replaces the first write lock and the walk stops there: the second write
lock stays in the list, inside the new read lock of the same owner. -/
theorem not_lockListOk_readOverBoth : ¬ LockListOk ((runFrom lockStep .empty
      (twoWriteLocks ++ [.call 0 readOverBoth true true])).iFlock 0) := by
  intro ok
  have ordered := ok.ordered
  revert ordered
  decide +kernel

/-- After a run of complete calls, a complete call that returns 0 sets the modes of its
owner on its range and leaves every other mode of every inode. -/
theorem run_call_lockMode (events : List LockEvent)
    (complete : StepsMeet lockStep WalkComplete .empty events) (ino : Nat) (req : PosixRequest)
    (alloc alloc2 : Bool)
    (last : WalkComplete (runFrom lockStep .empty events) (.call ino req alloc alloc2))
    (noAccess : req.flAccess = false)
    (success : (posixLockFile (runFrom lockStep .empty events) ino req alloc alloc2).1 = .ok)
    (i : Nat) (owner : LockOwner) (offset : Int) :
    lockMode ((posixLockFile (runFrom lockStep .empty events) ino req alloc alloc2).2.iFlock i)
        owner offset =
      if i = ino ∧ owner = req.flOwner ∧ req.flStart ≤ offset ∧ offset ≤ req.flEnd then
        req.flType.mode
      else lockMode ((runFrom lockStep .empty events).iFlock i) owner offset := by
  have ok := run_locksOk events complete
  generalize runFrom lockStep .empty events = s at *
  rcases posixLockFile_cases s ino req alloc alloc2 with
    ⟨fl, _, hcall | ⟨_, hcall⟩ | ⟨_, hcall⟩⟩ | ⟨_, access, _⟩ |
    ⟨free, _, newFl, newFl2, first, second, hcall⟩
  any_goals
    rw [hcall] at success
    cases success
  · simp [access] at noAccess
  · rw [hcall] at success ⊢
    by_cases hi : i = ino
    · subst hi
      simp only [true_and]
      exact posixUpdate_lockMode ok (last free noAccess) first second success owner offset
    · simp [hi]

theorem run_call_lockMode_readInside :
    lockMode ((posixLockFile (runFrom lockStep .empty twoWriteLocks) 0 readInside true
      true).2.iFlock 0) (.files 1) 4 = .read := by
  rw [run_call_lockMode twoWriteLocks (by decide +kernel) 0 readInside true true
    (by decide +kernel) rfl (by decide +kernel)]
  decide

/-- The call returns 0, but the owner's mode at offset 25 is not the requested one. -/
theorem lockMode_readOverBoth : readOverBoth.flAccess = false ∧
    (posixLockFile (runFrom lockStep .empty twoWriteLocks) 0 readOverBoth true true).1 = .ok ∧
    readOverBoth.flStart ≤ 25 ∧ 25 ≤ readOverBoth.flEnd ∧ readOverBoth.flType = .rdlck ∧
    lockMode ((posixLockFile (runFrom lockStep .empty twoWriteLocks) 0 readOverBoth true
      true).2.iFlock 0) readOverBoth.flOwner 25 = .write := by
  decide +kernel

/-- After a run of complete calls, a call that does not return 0 leaves every lock list,
whichever spare records are missing. -/
theorem run_call_failed (events : List LockEvent)
    (complete : StepsMeet lockStep WalkComplete .empty events) (ino : Nat) (req : PosixRequest)
    (alloc alloc2 : Bool)
    (failed : (posixLockFile (runFrom lockStep .empty events) ino req alloc alloc2).1 ≠ .ok) :
    (posixLockFile (runFrom lockStep .empty events) ino req alloc alloc2).2.iFlock =
      (runFrom lockStep .empty events).iFlock := by
  have ok := run_locksOk events complete
  generalize runFrom lockStep .empty events = s at *
  rcases posixLockFile_cases s ino req alloc alloc2 with
    ⟨fl, _, hcall | ⟨_, hcall⟩ | ⟨_, hcall⟩⟩ | ⟨_, _, hcall⟩ |
    ⟨_, _, newFl, newFl2, _, _, hcall⟩ <;> rw [hcall] at failed ⊢
  · rfl
  funext i
  by_cases hi : i = ino
  · subst hi
    simpa using posixUpdate_failed ok.starts (ok.addrs.nodup i) failed
  · simp [hi]

/-- The middle of the first write lock cannot be released without a second record. -/
theorem run_call_failed_releaseMiddle :
    (posixLockFile (runFrom lockStep .empty twoWriteLocks) 0 (release 3 5 (by decide)) true
      false).2.iFlock = (runFrom lockStep .empty twoWriteLocks).iFlock :=
  run_call_failed twoWriteLocks (by decide +kernel) 0 _ true false (by decide +kernel)

/-- A read lock over the first of two write locks leaves the second behind it, and a write
lock inside the read lock is then in front of a longer one. -/
def longerBehind : List LockEvent :=
  [.call 0 (setlk 1 false .wrlck isPosixType_wrlck 0 9 (by decide)) true true,
    .call 0 (setlk 1 false .wrlck isPosixType_wrlck 20 120 (by decide)) true true,
    .call 0 (setlk 1 false .rdlck isPosixType_rdlck 0 100 (by decide)) true true,
    .call 0 (setlk 1 false .wrlck isPosixType_wrlck 50 60 (by decide)) true true]

/-- Two locks are gone when the call finds that it has no record for a split. -/
theorem enolck_longerBehind :
    (posixLockFile (runFrom lockStep .empty longerBehind) 0 (release 50 100 (by decide)) true
      false).1 = .enolck ∧
    ((runFrom lockStep .empty longerBehind).iFlock 0).length = 4 ∧
    ((posixLockFile (runFrom lockStep .empty longerBehind) 0 (release 50 100 (by decide)) true
      false).2.iFlock 0).length = 2 := by
  decide +kernel

end Linux318.Guarantees
