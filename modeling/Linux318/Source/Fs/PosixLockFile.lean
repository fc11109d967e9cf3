import Mathlib.Data.Fin.Basic
import Linux318.Lib.Run

/-!
# `__posix_lock_file`

Source: fs/locks.c:134-140,324-336,499-514,541-743,803-836,926-1142. One `struct file_lock`
is the record of a held lock, or the request of a caller. `addr` stands for the address of
the structure, so that a pointer to a record is its `addr`. `lm_compare_owner` is a callback of
a lock manager, which is not part of this tree; `LockOwner` is the class of locks that
`posix_same_owner` identifies.

`i_flock` is a list; the pointer `before` is the position between the records already passed and
the rest. Allocation of the two spare records is an argument of the call, and each allocation has
a fresh address. The replace branch unlinks `fl`, which sets `fl->fl_next` to NULL, and only then
moves `before` to `&fl->fl_next`: the walk ends there, whatever records follow.
-/
namespace Linux318.Source.Fs

def offsetMax : Int := 0x7fffffffffffffff

inductive LockKind where
  | posix | flock | lease
  deriving DecidableEq, Repr

/-- `fl_type`; `mand` is a FLOCK type with the `LOCK_MAND` bit and two access bits. -/
inductive LockType where
  | rdlck | wrlck | unlck
  | mand (access : Fin 4)
  deriving DecidableEq, Repr

/-- `fl_owner`: the `files_struct` of a process, or the open file of an OFD lock. The
fcntl entry points set `FL_OFDLCK` exactly when they store the open file here. -/
inductive LockOwner where
  | files (id : Nat)
  | filp (id : Nat)
  deriving DecidableEq, Repr

structure FileLock where
  addr : Nat
  kind : LockKind
  flOwner : LockOwner
  flFile : Nat
  flType : LockType
  flStart : Int
  flEnd : Int
  deriving DecidableEq, Repr

def isPosix (fl : FileLock) : Bool := fl.kind = .posix

def isFlock (fl : FileLock) : Bool := fl.kind = .flock

def isLease (fl : FileLock) : Bool := fl.kind = .lease

def isOfdlck (fl : FileLock) : Bool :=
  match fl.kind, fl.flOwner with
  | .posix, .filp _ => true
  | _, _ => false

def locksOverlap (fl1 fl2 : FileLock) : Bool :=
  fl1.flEnd ≥ fl2.flStart && fl2.flEnd ≥ fl1.flStart

def posixSameOwner (fl1 fl2 : FileLock) : Bool := fl1.flOwner = fl2.flOwner

def locksConflict (callerFl sysFl : FileLock) : Bool :=
  if sysFl.flType = .wrlck then true
  else if callerFl.flType = .wrlck then true
  else false

def posixLocksConflict (callerFl sysFl : FileLock) : Bool :=
  if !isPosix sysFl || posixSameOwner callerFl sysFl then false
  else if !locksOverlap callerFl sysFl then false
  else locksConflict callerFl sysFl

def LockType.isMand : LockType → Bool
  | .mand _ => true
  | _ => false

def flockLocksConflict (callerFl sysFl : FileLock) : Bool :=
  if !isFlock sysFl || callerFl.flFile = sysFl.flFile then false
  else if callerFl.flType.isMand || sysFl.flType.isMand then false
  else locksConflict callerFl sysFl

theorem posixLocksConflict_iff (callerFl sysFl : FileLock) :
    posixLocksConflict callerFl sysFl = true ↔
      sysFl.kind = .posix ∧ callerFl.flOwner ≠ sysFl.flOwner ∧
      (sysFl.flStart ≤ callerFl.flEnd ∧ callerFl.flStart ≤ sysFl.flEnd) ∧
      (sysFl.flType = .wrlck ∨ callerFl.flType = .wrlck) := by
  unfold posixLocksConflict locksConflict locksOverlap posixSameOwner isPosix
  by_cases hk : sysFl.kind = .posix <;> by_cases ho : callerFl.flOwner = sysFl.flOwner <;>
    by_cases hr : sysFl.flStart ≤ callerFl.flEnd ∧ callerFl.flStart ≤ sysFl.flEnd <;>
    by_cases ht : sysFl.flType = .wrlck <;> simp [ho]

/-- What a caller may pass to `__posix_lock_file`: `flock64_to_posix_lock` and
`assign_type` refuse every other range and type. -/
structure PosixRequest where
  addr : Nat
  flOwner : LockOwner
  flFile : Nat
  flType : LockType
  flStart : Int
  flEnd : Int
  flAccess : Bool
  flSleep : Bool
  flExists : Bool
  posixType : flType = .rdlck ∨ flType = .wrlck ∨ flType = .unlck
  range : 0 ≤ flStart ∧ flStart ≤ flEnd ∧ flEnd ≤ offsetMax

def PosixRequest.lock (req : PosixRequest) : FileLock :=
  { addr := req.addr, kind := .posix, flOwner := req.flOwner, flFile := req.flFile,
    flType := req.flType, flStart := req.flStart, flEnd := req.flEnd }

def isPosixType (type : LockType) : Prop := type = .rdlck ∨ type = .wrlck ∨ type = .unlck

theorem isPosixType_rdlck : isPosixType .rdlck := .inl rfl

theorem isPosixType_wrlck : isPosixType .wrlck := .inr (.inl rfl)

/-- A request of a process for `fcntl(F_SETLK)`, or `F_SETLKW` if it may sleep. -/
def setlk (files : Nat) (flSleep : Bool) (type : LockType) (posixType : isPosixType type)
    (start fin : Int) (range : 0 ≤ start ∧ start ≤ fin ∧ fin ≤ offsetMax) : PosixRequest :=
  { addr := files, flOwner := .files files, flFile := 0, flType := type, flStart := start,
    flEnd := fin, flAccess := false, flSleep, flExists := false, posixType, range }

inductive LockResult where
  | ok | eagain | edeadlk | deferred | enolck | enoent | enomem
  deriving DecidableEq, Repr

/-- The local variables of the update loop. `request` is the value of `*request`, and
`linked` tells that the pointer has moved from the caller's structure to the record of
the list with that address. `right` is only ever set to the record at `before`. -/
structure Walk where
  passed : List FileLock
  request : FileLock
  linked : Bool
  added : Bool
  left : Option Nat
  right : Bool
  newFl : Option Nat
  woken : List Nat
  deriving Repr

def setRange (addr : Nat) (start fin : Int) (locks : List FileLock) : List FileLock :=
  locks.map fun fl => if fl.addr = addr then { fl with flStart := start, flEnd := fin } else fl

def setEnd (addr : Nat) (fin : Int) (locks : List FileLock) : List FileLock :=
  locks.map fun fl => if fl.addr = addr then { fl with flEnd := fin } else fl

def Walk.pass (w : Walk) (fl : FileLock) : Walk := { w with passed := w.passed ++ [fl] }

def Walk.delete (w : Walk) (fl : FileLock) : Walk := { w with woken := fl.addr :: w.woken }

/-- The stores to `request->fl_start` and `request->fl_end` of the merge branch. -/
def Walk.widen (w : Walk) (start fin : Int) : Walk :=
  { w with
    request := { w.request with flStart := start, flEnd := fin }
    passed := if w.linked then setRange w.request.addr start fin w.passed else w.passed }

/-- How the loop over the owner's locks ends: the position of `before`, and whether the
replace branch left through `goto out` without a spare record. -/
structure WalkEnd where
  walk : Walk
  rest : List FileLock
  failed : Bool
  deriving Repr

/-- The branch for a lock of another type that overlaps the request. `next` continues the
loop after `fl`. -/
def differentType (w : Walk) (fl : FileLock) (rest : List FileLock)
    (next : Walk → WalkEnd) : WalkEnd :=
  let w := if w.request.flType = .unlck then { w with added := true } else w
  let w := if fl.flStart < w.request.flStart then { w with left := some fl.addr } else w
  if fl.flEnd > w.request.flEnd then ⟨{ w with right := true }, fl :: rest, false⟩
  else if fl.flStart ≥ w.request.flStart then
    if w.added then next (w.delete fl)
    else match w.newFl with
      | none => ⟨w, fl :: rest, true⟩
      | some addr =>
        let new := { w.request with addr := addr }
        ⟨{ w.delete fl with
            passed := w.passed ++ [new], request := new, linked := true,
            newFl := none, added := true }, rest, false⟩
  else next (w.pass fl)

theorem differentType_eq {w : Walk} {req : FileLock} (request : w.request = req) (fl : FileLock)
    (rest : List FileLock) (next : Walk → WalkEnd) : differentType w fl rest next =
      let w' : Walk :=
        { w with
          added := decide (req.flType = .unlck) || w.added
          left := if fl.flStart < req.flStart then some fl.addr else w.left }
      if fl.flEnd > req.flEnd then ⟨{ w' with right := true }, fl :: rest, false⟩
      else if fl.flStart ≥ req.flStart then
        if w'.added then next (w'.delete fl)
        else match w.newFl with
          | none => ⟨w', fl :: rest, true⟩
          | some addr =>
            ⟨{ w'.delete fl with
                passed := w.passed ++ [{ req with addr := addr }], request := { req with addr := addr },
                linked := true, newFl := none, added := true }, rest, false⟩
      else next (w'.pass fl) := by
  subst request
  unfold differentType
  by_cases unlock : w.request.flType = .unlck <;> by_cases starts : fl.flStart < w.request.flStart <;>
    simp [unlock, starts]

def processLocks : Walk → List FileLock → WalkEnd
  | w, [] => ⟨w, [], false⟩
  | w, fl :: rest =>
    if !posixSameOwner w.request fl then ⟨w, fl :: rest, false⟩
    else if w.request.flType = fl.flType then
      if fl.flEnd < w.request.flStart - 1 then processLocks (w.pass fl) rest
      else if fl.flStart - 1 > w.request.flEnd then ⟨w, fl :: rest, false⟩
      else
        let start := if fl.flStart > w.request.flStart then w.request.flStart else fl.flStart
        let fin := if fl.flEnd < w.request.flEnd then w.request.flEnd else fl.flEnd
        if w.added then processLocks ((w.widen start fin).delete fl) rest
        else
          let fl := { fl with flStart := start, flEnd := fin }
          processLocks { (w.widen start fin).pass fl with
            request := fl, linked := true, added := true } rest
    else
      if fl.flEnd < w.request.flStart then processLocks (w.pass fl) rest
      else if fl.flStart > w.request.flEnd then ⟨w, fl :: rest, false⟩
      else differentType w fl rest fun w' => processLocks w' rest

/-- The list, the records whose waiters were woken, and the return value. -/
structure Update where
  error : LockResult
  iFlock : List FileLock
  woken : List Nat
  deriving Repr

/-- Trim `left` and `right` around the request, which now is in the list: `inserted` is
the record that was put at `before`, and `newFl2` the copy that a split needs. -/
def trim (w : Walk) (inserted rest : List FileLock) (newFl2 : Option Nat) : Update :=
  match w.right, rest with
  | true, right :: tail =>
    let cut := { right with flStart := w.request.flEnd + 1 }
    match decide (w.left = some right.addr), newFl2 with
    | true, some addr =>
      { error := .ok
        iFlock := setEnd addr (w.request.flStart - 1)
          (w.passed ++ { right with addr := addr } :: inserted ++ cut :: tail)
        woken := addr :: right.addr :: w.woken }
    | _, _ =>
      match w.left with
      | some left =>
        { error := .ok
          iFlock := setEnd left (w.request.flStart - 1) (w.passed ++ inserted ++ cut :: tail)
          woken := left :: right.addr :: w.woken }
      | none => ⟨.ok, w.passed ++ inserted ++ cut :: tail, right.addr :: w.woken⟩
  | _, _ =>
    match w.left with
    | some left =>
      { error := .ok
        iFlock := setEnd left (w.request.flStart - 1) (w.passed ++ inserted ++ rest)
        woken := left :: w.woken }
    | none => ⟨.ok, w.passed ++ inserted ++ rest, w.woken⟩

/-- `left == right`: one lock of another type surrounds the request. -/
def Walk.splits (w : Walk) (rest : List FileLock) : Bool :=
  match rest with
  | fl :: _ => w.right && decide (w.left = some fl.addr)
  | [] => false

def finishUpdate (flExists : Bool) (e : WalkEnd) (newFl2 : Option Nat) : Update :=
  let w := e.walk
  if e.failed then ⟨.enolck, w.passed ++ e.rest, w.woken⟩
  else if w.splits e.rest && newFl2 = none then ⟨.enolck, w.passed ++ e.rest, w.woken⟩
  else if w.added then trim w [] e.rest newFl2
  else if w.request.flType = .unlck then
    ⟨if flExists then .enoent else .ok, w.passed ++ e.rest, w.woken⟩
  else match w.newFl with
    | none => ⟨.enolck, w.passed ++ e.rest, w.woken⟩
    | some addr => trim w [{ w.request with addr := addr }] e.rest newFl2

/-- `!IS_POSIX(fl) || !posix_same_owner(request, fl)`. -/
def otherOwner (request fl : FileLock) : Bool := !isPosix fl || !posixSameOwner request fl

/-- The part of `__posix_lock_file` after the conflict check. -/
def posixUpdate (locks : List FileLock) (req : PosixRequest) (newFl newFl2 : Option Nat) :
    Update :=
  let start : Walk :=
    { passed := locks.takeWhile (otherOwner req.lock), request := req.lock, linked := false,
      added := false, left := none, right := false, newFl := newFl, woken := [] }
  finishUpdate req.flExists (processLocks start (locks.dropWhile (otherOwner req.lock))) newFl2

theorem trim_error (w : Walk) (inserted rest : List FileLock) (newFl2 : Option Nat) :
    (trim w inserted rest newFl2).error = .ok := by
  unfold trim
  split
  · split
    · rfl
    · split <;> rfl
  · split <;> rfl

/-- Past the conflict check a call does not report a deadlock. -/
theorem posixUpdate_error (locks : List FileLock) (req : PosixRequest) (newFl newFl2 : Option Nat) :
    (posixUpdate locks req newFl newFl2).error ≠ .edeadlk := by
  unfold posixUpdate finishUpdate
  dsimp only
  split
  · simp
  split
  · simp
  split
  · simp [trim_error]
  split
  · split <;> simp
  · split <;> simp [trim_error]

/-- A request on a blocker's `fl_block` list: `flNext` is the blocker's address and
`hashed` tells that the request is in `blocked_hash`. -/
structure Waiter where
  request : FileLock
  ino : Nat
  flNext : Nat
  hashed : Bool
  deriving DecidableEq, Repr

/-- The lock lists of all inodes and the blocked requests, the latest first, which is the
order of a `blocked_hash` bucket. -/
structure LockState where
  iFlock : Nat → List FileLock
  blocked : List Waiter
  nextAddr : Nat

def LockState.empty : LockState := ⟨fun _ => [], [], 0⟩

def LockState.blocker (s : LockState) (w : Waiter) : Option FileLock :=
  (s.iFlock w.ino).find? fun fl => fl.addr = w.flNext

def whatOwnerIsWaitingFor (s : LockState) (blockFl : FileLock) : Option FileLock :=
  match s.blocked.find? fun w => w.hashed && posixSameOwner w.request blockFl with
  | some w => s.blocker w
  | none => none

def maxDeadlkIterations : Nat := 10

/-- `budget` is `MAX_DEADLK_ITERATIONS + 1 - i`: the test `i++ > MAX_DEADLK_ITERATIONS`
gives up at the twelfth record. -/
def deadlockLoop (s : LockState) (callerFl : FileLock) : Nat → FileLock → Bool
  | 0, _ => false
  | budget + 1, blockFl =>
    match whatOwnerIsWaitingFor s blockFl with
    | none => false
    | some next => posixSameOwner callerFl next || deadlockLoop s callerFl budget next

def posixLocksDeadlock (s : LockState) (callerFl blockFl : FileLock) : Bool :=
  if isOfdlck callerFl then false
  else deadlockLoop s callerFl (maxDeadlkIterations + 1) blockFl

def locksInsertBlock (s : LockState) (ino : Nat) (fl request : FileLock) : LockState :=
  { s with blocked := ⟨request, ino, fl.addr, isPosix fl && !isOfdlck fl⟩ :: s.blocked }

def wakeUpBlocks (woken : List Nat) (blocked : List Waiter) : List Waiter :=
  blocked.filter fun w => w.flNext ∉ woken

def conflicting (locks : List FileLock) (req : PosixRequest) : Option FileLock :=
  if req.flType = .unlck then none
  else locks.find? fun fl => isPosix fl && posixLocksConflict req.lock fl

def wantsSpare (req : PosixRequest) : Bool :=
  !req.flAccess && (req.flType ≠ .unlck || req.flStart ≠ 0 || req.flEnd ≠ offsetMax)

def posixLockFile (s : LockState) (ino : Nat) (req : PosixRequest) (alloc alloc2 : Bool) :
    LockResult × LockState :=
  let newFl := if wantsSpare req && alloc then some s.nextAddr else none
  let newFl2 := if wantsSpare req && alloc2 then some (s.nextAddr + 1) else none
  let s := { s with nextAddr := s.nextAddr + 2 }
  match conflicting (s.iFlock ino) req with
  | some fl =>
    if !req.flSleep then (.eagain, s)
    else if posixLocksDeadlock s req.lock fl then (.edeadlk, s)
    else (.deferred, locksInsertBlock s ino fl req.lock)
  | none =>
    if req.flAccess then (.ok, s)
    else
      let u := posixUpdate (s.iFlock ino) req newFl newFl2
      (u.error, { s with
        iFlock := fun i => if i = ino then u.iFlock else s.iFlock i
        blocked := wakeUpBlocks u.woken s.blocked })

/-- What may happen to the lock state: a call, or `locks_delete_block` by a waiter that
gives up. -/
inductive LockEvent where
  | call (ino : Nat) (req : PosixRequest) (alloc alloc2 : Bool)
  | deleteBlock (addr : Nat)

def lockStep (s : LockState) : LockEvent → LockState
  | .call ino req alloc alloc2 => (posixLockFile s ino req alloc alloc2).2
  | .deleteBlock addr => { s with blocked := s.blocked.filter fun w => w.request.addr ≠ addr }

theorem deadlockLoop_nextAddr (s : LockState) (n : Nat) (callerFl : FileLock) (budget : Nat)
    (blockFl : FileLock) : deadlockLoop { s with nextAddr := n } callerFl budget blockFl =
      deadlockLoop s callerFl budget blockFl := by
  induction budget generalizing blockFl with
  | zero => rfl
  | succ budget ih =>
    have same : whatOwnerIsWaitingFor { s with nextAddr := n } blockFl =
      whatOwnerIsWaitingFor s blockFl := rfl
    simp only [deadlockLoop, ih, same]

theorem posixLocksDeadlock_nextAddr (s : LockState) (n : Nat) (callerFl blockFl : FileLock) :
    posixLocksDeadlock { s with nextAddr := n } callerFl blockFl =
      posixLocksDeadlock s callerFl blockFl := by
  rw [posixLocksDeadlock, posixLocksDeadlock, deadlockLoop_nextAddr]

/-- What a call does: it meets a lock in its way, it only tests, or it updates the list. -/
theorem posixLockFile_cases (s : LockState) (ino : Nat) (req : PosixRequest) (alloc alloc2 : Bool) :
    let s' : LockState := { s with nextAddr := s.nextAddr + 2 }
    (∃ fl, conflicting (s.iFlock ino) req = some fl ∧
      (posixLockFile s ino req alloc alloc2 = (.eagain, s') ∨
        (posixLocksDeadlock s req.lock fl = true ∧
          posixLockFile s ino req alloc alloc2 = (.edeadlk, s')) ∨
        (posixLocksDeadlock s req.lock fl = false ∧
          posixLockFile s ino req alloc alloc2 =
            (.deferred, locksInsertBlock s' ino fl req.lock)))) ∨
    (conflicting (s.iFlock ino) req = none ∧ req.flAccess = true ∧
      posixLockFile s ino req alloc alloc2 = (.ok, s')) ∨
    (conflicting (s.iFlock ino) req = none ∧ req.flAccess = false ∧
      ∃ newFl newFl2, (∀ a, newFl = some a → a = s.nextAddr) ∧
        (∀ a, newFl2 = some a → a = s.nextAddr + 1) ∧
        let u := posixUpdate (s.iFlock ino) req newFl newFl2
        posixLockFile s ino req alloc alloc2 = (u.error, { s' with
          iFlock := fun i => if i = ino then u.iFlock else s.iFlock i
          blocked := wakeUpBlocks u.woken s.blocked })) := by
  unfold posixLockFile
  cases hfl : conflicting (s.iFlock ino) req with
  | some fl =>
    refine .inl ⟨fl, rfl, ?_⟩
    simp only [hfl]
    cases req.flSleep with
    | false => exact .inl rfl
    | true =>
      rw [posixLocksDeadlock_nextAddr]
      cases posixLocksDeadlock s req.lock fl with
      | true => exact .inr (.inl ⟨rfl, rfl⟩)
      | false => exact .inr (.inr ⟨rfl, rfl⟩)
  | none =>
    simp only [hfl]
    cases req.flAccess with
    | true => exact .inr (.inl ⟨trivial, rfl, rfl⟩)
    | false =>
      refine .inr (.inr ⟨trivial, rfl, _, _, ?_, ?_, rfl⟩)
      all_goals
        intro a ha
        split at ha
        · exact (Option.some.inj ha).symm
        · simp at ha

end Linux318.Source.Fs
