import Mathlib.Data.List.Perm.Subperm
import Linux318.Lib.Acyclic
import Linux318.Source.Fs.PosixLockKept

/-!
# Blocked POSIX locks over whole runs

Source: fs/locks.c:587-636,803-836,951-982. A waiter is never left blocked on a record that
no longer stands in its way, and `posix_locks_deadlock` keeps the graph of waiting processes
free of cycles. A process is a `files` owner; an owner of OFD locks is not looked at by the
deadlock detection as a caller, and its records end the walk.
-/
namespace Linux318.Guarantees
open Lib Source.Fs List

variable {s : LockState} {fl blockFl callerFl : FileLock} {i : Nat}

structure BlockedOk (s : LockState) : Prop where
  addrs : AddrsOk s
  waiters : WaitersOk s

/-- Every call keeps the blocked list. -/
theorem lockStep_blockedOk (s : LockState) (e : LockEvent) (ok : BlockedOk s) :
    BlockedOk (lockStep s e) :=
  ⟨lockStep_addrsOk s e ok.addrs, lockStep_waitersOk s e ok.addrs ok.waiters⟩

theorem BlockedOk.empty : BlockedOk .empty :=
  ⟨AddrsOk.empty, by simp [WaitersOk, LockState.empty]⟩

/-- In every state of every run, a blocked request has its blocker in the list of its inode,
and the blocker still stands in its way. -/
theorem run_waiter_conflict (events : List LockEvent) (w : Waiter)
    (blocked : w ∈ (runFrom lockStep .empty events).blocked) :
    ∃ b ∈ (runFrom lockStep .empty events).iFlock w.ino,
      b.addr = w.flNext ∧ posixLocksConflict w.request b = true := by
  have ok := runFrom_invariant_always lockStep lockStep_blockedOk events .empty BlockedOk.empty
  obtain ⟨b, hb⟩ := ok.waiters w blocked
  exact ⟨b, hb.member, hb.addr, hb.conflict⟩

/-- A process asks for a write lock on one byte, and may sleep. -/
def setlkw (files : Nat) (offset : Int) (range : 0 ≤ offset ∧ offset ≤ offset ∧ offset ≤ offsetMax) :
    PosixRequest :=
  setlk files true .wrlck isPosixType_wrlck offset offset range

/-- Process 1 holds byte 0, process 2 holds byte 1, and process 1 waits for byte 1. -/
def crossedLocks : List LockEvent :=
  [.call 0 (setlkw 1 0 (by decide)) true true, .call 0 (setlkw 2 1 (by decide)) true true,
    .call 0 (setlkw 1 1 (by decide)) true true]

theorem run_waiter_conflict_crossedLocks :
    ∃ b ∈ (runFrom lockStep .empty crossedLocks).iFlock 0, b.addr = 2 ∧
      posixLocksConflict (setlkw 1 1 (by decide)).lock b = true :=
  run_waiter_conflict crossedLocks ⟨(setlkw 1 1 (by decide)).lock, 0, 2, true⟩ (by decide +kernel)

/-- The owner of a blocked request waits for the owner of the record that blocks it. -/
def WaitsFor (s : LockState) (o o' : LockOwner) : Prop :=
  ∃ w ∈ s.blocked, ∃ b, s.blocker w = some b ∧ w.request.flOwner = o ∧ b.flOwner = o'

/-- The wait graph of the POSIX locks that are no OFD locks. -/
def ProcessWaits (s : LockState) (i j : Nat) : Prop := WaitsFor s (.files i) (.files j)

def isProcess : LockOwner → Bool
  | .files _ => true
  | .filp _ => false

/-- What the deadlock detection relies on: a process has one blocked request at most, and no
chain of different waiting processes is longer than the walk. -/
structure WaitBounds (s : LockState) : Prop where
  single : s.blocked.Pairwise fun a b => isProcess a.request.flOwner = true →
    a.request.flOwner ≠ b.request.flOwner
  short : ∀ chain : List Nat, chain.IsChain (ProcessWaits s) → chain.Nodup →
    chain.length ≤ maxDeadlkIterations + 1

/-- An edge of the graph, with what the state knows about it. -/
theorem WaitsFor.blocked (ok : BlockedOk s) {o o' : LockOwner} (waits : WaitsFor s o o') :
    ∃ w ∈ s.blocked, ∃ b, Blocked s w b ∧ w.request.flOwner = o ∧ b.flOwner = o' := by
  obtain ⟨w, hw, b, hb, owner, owner'⟩ := waits
  obtain ⟨b', blocked⟩ := ok.waiters w hw
  rw [blocked.blocker_eq ok.addrs] at hb
  obtain rfl := Option.some.inj hb
  exact ⟨w, hw, b', blocked, owner, owner'⟩

theorem isOfdlck_files (owner : fl.flOwner = .files i) : isOfdlck fl = false := by
  unfold isOfdlck
  split <;> simp_all

theorem isOfdlck_conflict {req : FileLock} (conflict : posixLocksConflict req fl = true)
    (notOfd : isOfdlck fl = false) : ∃ i, fl.flOwner = .files i := by
  have hkind := ((posixLocksConflict_iff _ _).mp conflict).1
  cases howner : fl.flOwner with
  | files i => exact ⟨i, rfl⟩
  | filp f => simp [isOfdlck, hkind, howner] at notOfd

section
variable (ok : BlockedOk s) (bounds : WaitBounds s)
include ok bounds

/-- The walk finds the edge that leaves a process. -/
theorem whatOwnerIsWaitingFor_eq {j : Nat}
    (waits : ProcessWaits s i j) (owner : blockFl.flOwner = .files i) :
    ∃ next, whatOwnerIsWaitingFor s blockFl = some next ∧ next.flOwner = .files j := by
  obtain ⟨w, hw, b, blocked, wowner, bowner⟩ := WaitsFor.blocked ok waits
  have hashed : w.hashed = true := by rw [blocked.hashed, isOfdlck_files bowner, Bool.not_false]
  unfold whatOwnerIsWaitingFor
  cases hfind : s.blocked.find? fun w => w.hashed && posixSameOwner w.request blockFl with
  | none =>
    have := List.find?_eq_none.mp hfind w hw
    simp [hashed, posixSameOwner, wowner, owner] at this
  | some w' =>
    have hw' := mem_of_find?_eq_some hfind
    have found := List.find?_some hfind
    simp only [posixSameOwner, Bool.and_eq_true, decide_eq_true_eq, owner] at found
    have same : w' = w := by
      by_contra hne
      have : Std.Symm fun a b : Waiter => isProcess a.request.flOwner = true →
          a.request.flOwner ≠ b.request.flOwner := ⟨fun a b apart hb same =>
        apart (same ▸ hb) same.symm⟩
      exact bounds.single.forall hw' hw hne (by rw [found.2, isProcess]) (found.2.trans wowner.symm)
    rw [same]
    exact ⟨b, blocked.blocker_eq ok.addrs, bowner⟩

/-- The walk follows a chain of waiting processes to its end. -/
theorem deadlockLoop_chain {c : Nat}
    (caller : callerFl.flOwner = .files c) (budget : Nat) (chain : List Nat)
    (owner : blockFl.flOwner = .files i) (waits : List.IsChain (ProcessWaits s) (i :: chain))
    (last : (i :: chain).getLast (cons_ne_nil i chain) = c) (other : i ≠ c)
    (fits : chain.length ≤ budget) : deadlockLoop s callerFl budget blockFl = true := by
  induction chain generalizing i blockFl budget with
  | nil => exact absurd last other
  | cons j chain ih =>
    obtain ⟨edge, waits⟩ := isChain_cons_cons.mp waits
    obtain ⟨next, hnext, nextOwner⟩ := whatOwnerIsWaitingFor_eq ok bounds edge owner
    cases budget with
    | zero => simp at fits
    | succ budget =>
      rw [deadlockLoop, hnext]
      by_cases hj : j = c
      · simp [posixSameOwner, caller, nextOwner, hj]
      rw [Bool.or_eq_true]
      exact .inr (ih budget nextOwner waits last hj (by simpa using fits))

/-- A wait that the deadlock detection grants does not close a cycle. -/
theorem not_reaches_of_no_deadlock (acyclic : Acyclic (ProcessWaits s)) {c b : Nat}
    (caller : callerFl.flOwner = .files c) (owner : fl.flOwner = .files b) (other : b ≠ c)
    (granted : posixLocksDeadlock s callerFl fl = false) :
    ¬ Relation.ReflTransGen (ProcessWaits s) b c := by
  intro path
  obtain ⟨chain, waits, last, nodup⟩ := acyclic.exists_chain path
  have fits : chain.length ≤ maxDeadlkIterations + 1 := by
    have := bounds.short (b :: chain) waits nodup
    simp only [length_cons] at this
    omega
  have found := deadlockLoop_chain ok bounds caller _ chain owner waits last other fits
  simp [posixLocksDeadlock, isOfdlck_files caller, found] at granted

end

/-- A step removes edges, or adds the edge of a request that it blocks. -/
theorem lockStep_acyclic (s : LockState) (e : LockEvent) (ok : BlockedOk s) (bounds : WaitBounds s)
    (acyclic : Acyclic (ProcessWaits s)) : Acyclic (ProcessWaits (lockStep s e)) := by
  have ok' := lockStep_blockedOk s e ok
  -- an edge of the new graph is old, or comes from a request that this call blocks
  have edges : ∀ i j, ProcessWaits (lockStep s e) i j → ProcessWaits s i j ∨
      ∃ ino req alloc alloc2 fl, e = .call ino req alloc alloc2 ∧
        conflicting (s.iFlock ino) req = some fl ∧
        posixLocksDeadlock s req.lock fl = false ∧
        req.flOwner = .files i ∧ fl.flOwner = .files j := by
    intro i j waits
    obtain ⟨w, hw, b, blocked, wowner, bowner⟩ := WaitsFor.blocked ok' waits
    rcases lockStep_blocked e ok.addrs ok.waiters hw with
      ⟨hw', b0, b1, blocked0, widens, blocked1⟩ |
      ⟨ino, req, alloc, alloc2, fl, he, hfl, granted, rfl, _, blocked1⟩
    · have same : b1 = b := Option.some.inj
        ((blocked1.blocker_eq ok'.addrs).symm.trans (blocked.blocker_eq ok'.addrs))
      exact .inl ⟨w, hw', b0, blocked0.blocker_eq ok.addrs, wowner,
        by rw [← widens.owner, same, bowner]⟩
    · have same : fl = b := Option.some.inj
        ((blocked1.blocker_eq ok'.addrs).symm.trans (blocked.blocker_eq ok'.addrs))
      exact .inr ⟨ino, req, alloc, alloc2, fl, he, hfl, granted, wowner, same ▸ bowner⟩
  by_cases hnew : ∃ i j ino req alloc alloc2 fl, e = .call ino req alloc alloc2 ∧
      conflicting (s.iFlock ino) req = some fl ∧ posixLocksDeadlock s req.lock fl = false ∧
      req.flOwner = .files i ∧ fl.flOwner = .files j
  · obtain ⟨c, b, ino, req, alloc, alloc2, fl, rfl, hfl, granted, caller, owner⟩ := hnew
    have other : b ≠ c := by
      rintro rfl
      have := ((posixLocksConflict_iff _ _).mp (conflicting_some hfl).2).2.1
      exact this (caller.trans owner.symm)
    refine acyclic.insert ?_
      (not_reaches_of_no_deadlock ok bounds acyclic caller owner other granted)
    intro i j waits
    rcases edges i j waits with h | ⟨ino', req', _, _, fl', he, hfl', _, caller', owner'⟩
    · exact .inl h
    cases he
    obtain rfl := Option.some.inj (hfl.symm.trans hfl')
    exact .inr ⟨LockOwner.files.inj (caller'.symm.trans caller),
      LockOwner.files.inj (owner'.symm.trans owner)⟩
  · refine acyclic.mono fun i j waits => ?_
    rcases edges i j waits with h | h
    · exact h
    · exact absurd ⟨i, j, h⟩ hnew

/-- What the walk finds is an edge of the graph, and it leads to a process. -/
theorem whatOwnerIsWaitingFor_waits (ok : BlockedOk s) {next : FileLock}
    (h : whatOwnerIsWaitingFor s blockFl = some next) :
    WaitsFor s blockFl.flOwner next.flOwner ∧ ∃ j, next.flOwner = .files j := by
  unfold whatOwnerIsWaitingFor at h
  split at h
  · next w hfind =>
    have hw := mem_of_find?_eq_some hfind
    have found := List.find?_some hfind
    simp only [posixSameOwner, Bool.and_eq_true, decide_eq_true_eq] at found
    obtain ⟨b, blocked⟩ := ok.waiters w hw
    obtain rfl := Option.some.inj ((blocked.blocker_eq ok.addrs).symm.trans h)
    refine ⟨⟨w, hw, b, h, found.2, rfl⟩, isOfdlck_conflict blocked.conflict ?_⟩
    rw [← Bool.not_eq_true', ← blocked.hashed]
    exact found.1
  · cases h

/-- What the walk finds is a chain of waits. -/
theorem deadlockLoop_waits (ok : BlockedOk s) (budget : Nat)
    (found : deadlockLoop s callerFl budget blockFl = true) :
    Relation.TransGen (WaitsFor s) blockFl.flOwner callerFl.flOwner ∧
    ∀ i j, callerFl.flOwner = .files i → blockFl.flOwner = .files j →
      Relation.TransGen (ProcessWaits s) j i := by
  induction budget generalizing blockFl with
  | zero => simp [deadlockLoop] at found
  | succ budget ih =>
    rw [deadlockLoop] at found
    split at found
    · simp at found
    · next next hnext =>
      obtain ⟨edge, k, hk⟩ := whatOwnerIsWaitingFor_waits ok hnext
      rcases Bool.or_eq_true_iff.mp found with same | found
      · have same : callerFl.flOwner = next.flOwner := by simpa [posixSameOwner] using same
        rw [same]
        refine ⟨.single edge, fun i j hi hj => .single ?_⟩
        rwa [hi, hj] at edge
      · obtain ⟨path, process⟩ := ih found
        refine ⟨.head edge path, fun i j hi hj => .head ?_ (process i k hi hk)⟩
        rwa [hj, hk] at edge

/-- Granting the wait adds its edge to the graph. -/
theorem waitsFor_locksInsertBlock (ok : BlockedOk s) {ino : Nat}
    (request : FileLock) (mem : fl ∈ s.iFlock ino) :
    WaitsFor (locksInsertBlock s ino fl request) request.flOwner fl.flOwner ∧
    ∀ o o', WaitsFor s o o' → WaitsFor (locksInsertBlock s ino fl request) o o' := by
  refine ⟨⟨_, mem_cons_self, fl, ok.addrs.blocker_eq mem rfl, rfl, rfl⟩, ?_⟩
  rintro o o' ⟨w, hw, found⟩
  exact ⟨w, mem_cons_of_mem _ hw, found⟩

/-- `-EDEADLK` is returned only if the wait would close a cycle, and for the lock of a
process, a cycle of processes. -/
theorem edeadlk_closes_cycle (ok : BlockedOk s) {ino : Nat} {req : PosixRequest}
    {alloc alloc2 : Bool} (refused : (posixLockFile s ino req alloc alloc2).1 = .edeadlk) :
    ∃ i fl, conflicting (s.iFlock ino) req = some fl ∧ req.flOwner = .files i ∧
      Relation.TransGen (WaitsFor (locksInsertBlock s ino fl req.lock)) req.flOwner req.flOwner ∧
      (isOfdlck fl = false →
        Relation.TransGen (ProcessWaits (locksInsertBlock s ino fl req.lock)) i i) := by
  rcases posixLockFile_cases s ino req alloc alloc2 with
    ⟨fl, hfl, hcall | ⟨dead, hcall⟩ | ⟨_, hcall⟩⟩ | ⟨_, _, hcall⟩ |
    ⟨_, _, newFl, newFl2, first, second, hcall⟩
  · rw [hcall] at refused
    cases refused
  · obtain ⟨mem, conflict⟩ := conflicting_some hfl
    obtain ⟨edge, old⟩ := waitsFor_locksInsertBlock ok req.lock mem
    have caller : ∃ i, req.flOwner = .files i := by
      cases howner : req.flOwner with
      | files i => exact ⟨i, rfl⟩
      | filp f => simp [posixLocksDeadlock, isOfdlck, PosixRequest.lock, howner] at dead
    obtain ⟨i, hi⟩ := caller
    have found : deadlockLoop s req.lock (maxDeadlkIterations + 1) fl = true := by
      rwa [posixLocksDeadlock, isOfdlck_files (show req.lock.flOwner = .files i from hi)] at dead
    obtain ⟨path, process⟩ := deadlockLoop_waits ok _ found
    refine ⟨i, fl, hfl, hi, .head edge (Relation.TransGen.mono old _ _ path), fun notOfd => ?_⟩
    obtain ⟨j, hj⟩ := isOfdlck_conflict conflict notOfd
    refine .head ?_ (Relation.TransGen.mono (fun a b => old _ _) _ _ (process i j hi hj))
    rw [ProcessWaits, ← hj, ← hi]
    exact edge
  · rw [hcall] at refused
    cases refused
  · rw [hcall] at refused
    cases refused
  · rw [hcall] at refused
    exact absurd refused (posixUpdate_error _ _ _ _)

/-- With few waiters the walk is not cut short. -/
theorem waitBounds_of_few
    (single : s.blocked.Pairwise fun a b => isProcess a.request.flOwner = true →
      a.request.flOwner ≠ b.request.flOwner)
    (few : s.blocked.length ≤ maxDeadlkIterations) : WaitBounds s where
  single := single
  short := by
    intro chain waits nodup
    have sources : ∀ l : List Nat, l.IsChain (ProcessWaits s) → l.dropLast.map LockOwner.files ⊆
        s.blocked.map fun w => w.request.flOwner := by
      intro l
      induction l with
      | nil => simp
      | cons i l ih =>
        intro waits
        cases l with
        | nil => simp
        | cons j l =>
          obtain ⟨⟨w, hw, _, _, owner, _⟩, rest⟩ := isChain_cons_cons.mp waits
          rw [dropLast_cons_cons, map_cons, cons_subset]
          exact ⟨mem_map.mpr ⟨w, hw, owner⟩, ih rest⟩
    have distinct : (chain.dropLast.map LockOwner.files).Nodup :=
      (nodup.sublist (dropLast_sublist chain)).map fun i j same => LockOwner.files.inj same
    have length := (subperm_of_subset distinct (sources chain waits)).length_le
    simp only [length_map, length_dropLast] at length
    omega

structure WaitsOk (s : LockState) : Prop where
  blocked : BlockedOk s
  bounds : WaitBounds s
  acyclic : Acyclic (ProcessWaits s)

theorem WaitsOk.empty : WaitsOk .empty where
  blocked := BlockedOk.empty
  bounds := waitBounds_of_few List.Pairwise.nil (by decide)
  acyclic := by
    intro i cycle
    obtain ⟨j, ⟨w, hw, _⟩, _⟩ := Relation.TransGen.head'_iff.mp cycle
    cases hw

/-- In every run whose states keep to the bounds of the walk, waiting processes never form a
cycle, and a call is refused with `-EDEADLK` only if its wait would close one. -/
theorem run_deadlock_detection (events : List LockEvent)
    (bounds : StepsMeet lockStep (fun s e => WaitBounds (lockStep s e)) .empty events) :
    Acyclic (ProcessWaits (runFrom lockStep .empty events)) ∧
    ∀ ino req alloc alloc2,
      (posixLockFile (runFrom lockStep .empty events) ino req alloc alloc2).1 = .edeadlk →
      ∃ i fl, conflicting ((runFrom lockStep .empty events).iFlock ino) req = some fl ∧
        req.flOwner = .files i ∧
        Relation.TransGen (WaitsFor (locksInsertBlock (runFrom lockStep .empty events) ino fl
          req.lock)) req.flOwner req.flOwner ∧
        (isOfdlck fl = false → Relation.TransGen (ProcessWaits (locksInsertBlock
          (runFrom lockStep .empty events) ino fl req.lock)) i i) := by
  have ok : WaitsOk (runFrom lockStep .empty events) :=
    runFrom_invariant lockStep (fun s e ok bound => ⟨lockStep_blockedOk s e ok.blocked, bound,
        lockStep_acyclic s e ok.blocked ok.bounds ok.acyclic⟩) events .empty WaitsOk.empty bounds
  exact ⟨ok.acyclic, fun ino req alloc alloc2 refused => edeadlk_closes_cycle ok.blocked refused⟩

theorem run_deadlock_detection_crossedLocks :
    (posixLockFile (runFrom lockStep .empty crossedLocks) 0 (setlkw 2 0 (by decide)) true true).1 =
      .edeadlk ∧
    Acyclic (ProcessWaits (runFrom lockStep .empty crossedLocks)) :=
  ⟨by decide +kernel, (run_deadlock_detection crossedLocks
    ⟨waitBounds_of_few (by decide +kernel) (by decide +kernel),
      waitBounds_of_few (by decide +kernel) (by decide +kernel),
      waitBounds_of_few (by decide +kernel) (by decide +kernel), trivial⟩).1⟩

end Linux318.Guarantees
