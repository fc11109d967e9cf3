import Linux318.Source.Fs.PosixLockFile

/-!
# `flock_lock_file`

Source: fs/locks.c:643-697,732-743,838-924. A call that converts a lock deletes the old
record, drops `i_lock`, and takes it again before it looks for conflicts. The two parts of
the call under the lock are two steps of the state, and `window` holds the calls between
them. The list of the inode also has leases, and POSIX locks at its end.
-/
namespace Linux318.Source.Fs
open List

structure FlockRequest where
  addr : Nat
  flFile : Nat
  flType : LockType
  flAccess : Bool
  flSleep : Bool
  flExists : Bool
  deriving DecidableEq, Repr

/-- The request seen as a `struct file_lock`; a FLOCK lock covers the whole file. -/
def FlockRequest.lock (req : FlockRequest) : FileLock :=
  { addr := req.addr, kind := .flock, flOwner := .filp req.flFile, flFile := req.flFile,
    flType := req.flType, flStart := 0, flEnd := offsetMax }

/-- How the loop over the old lock of the open file ends. -/
inductive OldLock where
  /-- The lock is held already: `goto out`. -/
  | same
  | absent
  | deleted (fl : FileLock) (rest : List FileLock)
  deriving Repr

/-- The first loop: find the lock of this open file, and delete it if the type differs. -/
def findOld (request : FileLock) : List FileLock → OldLock
  | [] => .absent
  | fl :: rest =>
    if isPosix fl then .absent
    else if isLease fl || request.flFile ≠ fl.flFile then
      match findOld request rest with
      | .deleted old rest => .deleted old (fl :: rest)
      | found => found
    else if request.flType = fl.flType then .same
    else .deleted fl rest

/-- `find_conflict`: the first FLOCK lock that stands in the way. -/
def flockConflicting (request : FileLock) : List FileLock → Option FileLock
  | [] => none
  | fl :: rest =>
    if isPosix fl then none
    else if isLease fl || !flockLocksConflict request fl then flockConflicting request rest
    else some fl

/-- `locks_insert_lock` where the loop ended: before the first POSIX lock. -/
def insertFlock (new : FileLock) : List FileLock → List FileLock
  | [] => [new]
  | fl :: rest => if isPosix fl then new :: fl :: rest else fl :: insertFlock new rest

/-- The list of one inode, the requests that sleep, and the calls that have dropped
`i_lock`, each with its spare record. -/
structure FlockState where
  iFlock : List FileLock
  blocked : List Waiter
  window : Nat → Option (FlockRequest × Nat)
  nextAddr : Nat

def FlockState.init (locks : List FileLock) (nextAddr : Nat) : FlockState :=
  ⟨locks, [], fun _ => none, nextAddr⟩

/-- The code from `find_conflict` on. -/
def flockFinish (s : FlockState) (req : FlockRequest) (newFl : Nat) : LockResult × FlockState :=
  match flockConflicting req.lock s.iFlock with
  | some fl =>
    if !req.flSleep then (.eagain, s)
    else (.deferred, { s with blocked := ⟨req.lock, 0, fl.addr, false⟩ :: s.blocked })
  | none =>
    if req.flAccess then (.ok, s)
    else (.ok, { s with iFlock := insertFlock { req.lock with addr := newFl } s.iFlock })

/-- The call up to its return, or up to the point where it drops `i_lock`. -/
def flockLockFile (s : FlockState) (thread : Nat) (req : FlockRequest) (alloc : Bool) :
    Option LockResult × FlockState :=
  let newFl := s.nextAddr
  if !req.flAccess && req.flType ≠ .unlck && !alloc then (some .enomem, s)
  else
    let s := { s with nextAddr := s.nextAddr + 1 }
    if req.flAccess then
      let r := flockFinish s req newFl
      (some r.1, r.2)
    else
      match findOld req.lock s.iFlock with
      | .same => (some .ok, s)
      | .absent =>
        if req.flType = .unlck then (some (if req.flExists then .enoent else .ok), s)
        else
          let r := flockFinish s req newFl
          (some r.1, r.2)
      | .deleted old rest =>
        let s := { s with iFlock := rest, blocked := wakeUpBlocks [old.addr] s.blocked }
        if req.flType = .unlck then (some .ok, s)
        else (none, { s with window := fun t => if t = thread then some (req, newFl) else s.window t })

def flockResume (s : FlockState) (thread : Nat) : FlockState :=
  match s.window thread with
  | none => s
  | some (req, newFl) =>
    (flockFinish { s with window := fun t => if t = thread then none else s.window t } req newFl).2

/-- A thread that is not in a call starts one, or a call takes `i_lock` again. -/
inductive FlockEvent where
  | call (thread : Nat) (req : FlockRequest) (alloc : Bool)
  | resume (thread : Nat)

def flockStep (s : FlockState) : FlockEvent → FlockState
  | .call thread req alloc =>
    if (s.window thread).isSome then s else (flockLockFile s thread req alloc).2
  | .resume thread => flockResume s thread

def FlockExclusive (locks : List FileLock) : Prop :=
  locks.Pairwise fun a b => isFlock a = true → isFlock b = true → a.flFile ≠ b.flFile

def FreeOf (file : Nat) (locks : List FileLock) : Prop :=
  ∀ fl ∈ locks, isFlock fl = true → fl.flFile ≠ file

/-- FLOCK records stand before the POSIX locks, where the loops look for them. -/
def FlocksFirst (locks : List FileLock) : Prop :=
  locks.Pairwise fun a b => isPosix a = true → isFlock b = false

section Lists
variable {locks rest : List FileLock} {request old new : FileLock}

theorem kind_of_not {fl : FileLock} (notPosix : ¬ isPosix fl = true) (notLease : ¬ isLease fl = true) :
    isFlock fl = true := by
  cases hkind : fl.kind <;> simp_all [isPosix, isLease, isFlock]

theorem findOld_deleted (h : findOld request locks = .deleted old rest) :
    ∃ p q, locks = p ++ old :: q ∧ rest = p ++ q ∧ isFlock old = true ∧
      old.flFile = request.flFile := by
  induction locks generalizing rest with
  | nil => simp [findOld] at h
  | cons fl locks ih =>
    rw [findOld] at h
    split at h
    · cases h
    · next notPosix =>
      split at h
      · split at h
        · next old' rest' hrest =>
          cases h
          obtain ⟨p, q, hp, hq, found⟩ := ih hrest
          exact ⟨fl :: p, q, by rw [hp, cons_append], by rw [hq, cons_append], found⟩
        · next hne => exact absurd h (hne old rest)
      · next other =>
        simp only [Bool.or_eq_true, not_or] at other
        split at h
        · cases h
        cases h
        have hfile : request.flFile = old.flFile := by simpa using other.2
        exact ⟨[], locks, rfl, rfl, kind_of_not notPosix other.1, hfile.symm⟩

/-- Without a hit the loop has seen every FLOCK record. -/
theorem findOld_absent (first : FlocksFirst locks) (h : findOld request locks = .absent) :
    FreeOf request.flFile locks := by
  induction locks with
  | nil => simp [FreeOf]
  | cons fl locks ih =>
    obtain ⟨head, tail⟩ := pairwise_cons.mp first
    intro r hr flock
    rw [findOld] at h
    split at h
    · next posix =>
      rcases mem_cons.mp hr with rfl | hr
      · simp_all [isPosix, isFlock]
      · simp [head r hr posix] at flock
    · split at h
      · next other =>
        rcases mem_cons.mp hr with rfl | hr
        · rcases Bool.or_eq_true_iff.mp other with lease | other
          · simp_all [isLease, isFlock]
          · exact Ne.symm (by simpa using other)
        refine ih tail ?_ r hr flock
        split at h
        · cases h
        · exact h
      · split at h <;> cases h

theorem findOld_same (h : findOld request locks = .same) :
    ∃ fl ∈ locks, isFlock fl = true ∧ fl.flType = request.flType := by
  induction locks with
  | nil => simp [findOld] at h
  | cons fl locks ih =>
    rw [findOld] at h
    split at h
    · cases h
    · next notPosix =>
      split at h
      · split at h
        · cases h
        · obtain ⟨r, hr, found⟩ := ih h
          exact ⟨r, mem_cons_of_mem _ hr, found⟩
      · next other =>
        simp only [Bool.or_eq_true, not_or] at other
        split at h
        · next same =>
          exact ⟨fl, mem_cons_self, kind_of_not notPosix other.1, same.symm⟩
        · cases h

theorem insertFlock_eq (new : FileLock) (locks : List FileLock) :
    ∃ p q, locks = p ++ q ∧ insertFlock new locks = p ++ new :: q ∧
      ∀ fl ∈ p, ¬ isPosix fl = true := by
  induction locks with
  | nil => exact ⟨[], [], rfl, rfl, by simp⟩
  | cons fl locks ih =>
    rw [insertFlock]
    split
    · exact ⟨[], fl :: locks, rfl, rfl, by simp⟩
    · next notPosix =>
      obtain ⟨p, q, hlocks, hinsert, before⟩ := ih
      refine ⟨fl :: p, q, by rw [hlocks, cons_append], by rw [hinsert, cons_append], ?_⟩
      intro r hr
      rcases mem_cons.mp hr with rfl | hr
      · exact notPosix
      · exact before r hr

theorem mem_insertFlock {fl : FileLock} : fl ∈ insertFlock new locks ↔ fl = new ∨ fl ∈ locks := by
  obtain ⟨p, q, hlocks, hinsert, _⟩ := insertFlock_eq new locks
  rw [hinsert, hlocks]
  simp only [mem_append, mem_cons]
  tauto

theorem flocksFirst_insertFlock (first : FlocksFirst locks) (flock : isFlock new = true) :
    FlocksFirst (insertFlock new locks) := by
  obtain ⟨p, q, hlocks, hinsert, before⟩ := insertFlock_eq new locks
  unfold FlocksFirst at first ⊢
  rw [hlocks, pairwise_append] at first
  rw [hinsert, pairwise_append]
  obtain ⟨hp, hq, hpq⟩ := first
  simp_all [isPosix, isFlock]

/-- The insertion keeps exclusivity exactly if the open file has no FLOCK record. -/
theorem flockExclusive_insertFlock (flock : isFlock new = true) :
    FlockExclusive (insertFlock new locks) ↔ FlockExclusive locks ∧ FreeOf new.flFile locks := by
  obtain ⟨p, q, hlocks, hinsert, _⟩ := insertFlock_eq new locks
  unfold FlockExclusive FreeOf
  rw [hinsert, hlocks, pairwise_append, pairwise_append, pairwise_cons]
  constructor
  · rintro ⟨hp, ⟨hnew, hq⟩, hpq⟩
    refine ⟨⟨hp, hq, fun a ha b hb => hpq a ha b (mem_cons_of_mem _ hb)⟩, fun fl hfl hflock => ?_⟩
    rcases mem_append.mp hfl with hfl | hfl
    · exact hpq fl hfl new mem_cons_self hflock flock
    · exact (hnew fl hfl flock hflock).symm
  rintro ⟨⟨hp, hq, hpq⟩, free⟩
  refine ⟨hp, ⟨fun b hb _ hflock => (free b (mem_append_right _ hb) hflock).symm, hq⟩, ?_⟩
  intro a ha b hb hflock hflock'
  rcases mem_cons.mp hb with rfl | hb
  · exact free a (mem_append_left _ ha) hflock
  · exact hpq a ha b hb hflock hflock'

end Lists

end Linux318.Source.Fs
