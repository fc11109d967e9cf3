import Linux318.Source.Fs.FlockLockFile

/-!
# FLOCK locks over whole runs

Source: fs/locks.c:838-924. Any number of threads call `flock` on the open files of one
inode, and a conversion may be interrupted where it drops `i_lock`. When it goes on it
looks for conflicts, but a lock of its own open file is none, so another thread may have
put a record for the same open file into the list meanwhile.
-/
namespace Linux318.Guarantees
open Lib Source.Fs List

/-- A conversion that goes on to insert its lock finds no FLOCK record of its open file. -/
def ResumesAlone (s : FlockState) : FlockEvent → Prop
  | .call _ _ _ => True
  | .resume thread => ∀ p ∈ s.window thread,
    flockConflicting p.1.lock s.iFlock = none → FreeOf p.1.flFile s.iFlock

instance (file : Nat) (locks : List FileLock) : Decidable (FreeOf file locks) :=
  inferInstanceAs (Decidable (∀ fl ∈ locks, _))

instance (s : FlockState) (e : FlockEvent) : Decidable (ResumesAlone s e) :=
  match e with
  | .call _ _ _ => isTrue trivial
  | .resume thread => inferInstanceAs (Decidable (∀ p ∈ s.window thread,
      flockConflicting p.1.lock s.iFlock = none → FreeOf p.1.flFile s.iFlock))

structure FlockOk (s : FlockState) : Prop where
  exclusive : FlockExclusive s.iFlock
  first : FlocksFirst s.iFlock
  held : ∀ fl ∈ s.iFlock, isFlock fl = true → fl.flType ≠ .unlck
  window : ∀ t req newFl, s.window t = some (req, newFl) → req.flType ≠ .unlck

theorem FlockOk.init {locks : List FileLock} (clean : ∀ fl ∈ locks, isFlock fl = false)
    (nextAddr : Nat) : FlockOk (.init locks nextAddr) where
  exclusive := by
    refine pairwise_iff_forall_sublist.mpr fun {a b} sub flock => ?_
    simp [clean a (sub.subset mem_cons_self)] at flock
  first := by
    refine pairwise_iff_forall_sublist.mpr fun {a b} sub _ => ?_
    exact clean b (sub.subset (mem_cons_of_mem _ mem_cons_self))
  held := by
    intro fl hfl flock
    simp [clean fl hfl] at flock
  window := by simp [FlockState.init]

section
variable {s : FlockState} (ok : FlockOk s)
include s ok

theorem flockFinish_ok {req : FlockRequest} (newFl : Nat)
    (lock : req.flAccess = false → req.flType ≠ .unlck)
    (free : flockConflicting req.lock s.iFlock = none → req.flAccess = false →
      FreeOf req.flFile s.iFlock) : FlockOk (flockFinish s req newFl).2 := by
  unfold flockFinish
  split
  · split
    · exact ok
    · exact ⟨ok.exclusive, ok.first, ok.held, ok.window⟩
  · next hnone =>
    split
    · exact ok
    · next noAccess =>
      have noAccess : req.flAccess = false := by simpa using noAccess
      refine ⟨(flockExclusive_insertFlock rfl).mpr ⟨ok.exclusive, free hnone noAccess⟩,
        flocksFirst_insertFlock ok.first rfl, ?_, ok.window⟩
      intro fl hfl flock
      rcases mem_insertFlock.mp hfl with rfl | hfl
      · exact lock noAccess
      · exact ok.held fl hfl flock

/-- The old record is gone, and with it every FLOCK record of the open file. -/
theorem FlockOk.deleted {request old : FileLock}
    {rest : List FileLock} (h : findOld request s.iFlock = .deleted old rest) :
    FlockExclusive rest ∧ FlocksFirst rest ∧ (∀ fl ∈ rest, fl ∈ s.iFlock) ∧
      FreeOf request.flFile rest := by
  obtain ⟨p, q, hlocks, hrest, flock, file⟩ := findOld_deleted h
  have sub : rest.Sublist s.iFlock := by
    rw [hlocks, hrest]
    exact (List.Sublist.refl p).append (sublist_cons_self old q)
  refine ⟨ok.exclusive.sublist sub, ok.first.sublist sub, fun fl hfl => sub.subset hfl, ?_⟩
  have exclusive := ok.exclusive
  unfold FlockExclusive at exclusive
  rw [hlocks, pairwise_append, pairwise_cons] at exclusive
  obtain ⟨_, ⟨hq, _⟩, hp⟩ := exclusive
  intro fl hfl hflock
  rw [hrest] at hfl
  rw [← file]
  rcases mem_append.mp hfl with hfl | hfl
  · exact hp fl hfl old mem_cons_self hflock flock
  · exact (hq fl hfl flock hflock).symm

/-- Every call keeps the list. -/
theorem flockLockFile_ok (thread : Nat) (req : FlockRequest)
    (alloc : Bool) : FlockOk (flockLockFile s thread req alloc).2 := by
  have ok' : FlockOk { s with nextAddr := s.nextAddr + 1 } :=
    ⟨ok.exclusive, ok.first, ok.held, ok.window⟩
  unfold flockLockFile
  dsimp only
  split
  · exact ok
  split
  · next access =>
    refine flockFinish_ok ok' _ ?_ ?_ <;> simp [access]
  split
  · exact ok'
  · next habsent =>
    split
    · exact ok'
    · next lock =>
      exact flockFinish_ok ok' _ (fun _ => lock) fun _ _ => findOld_absent ok.first habsent
  · next old rest hdeleted =>
    obtain ⟨exclusive, first, mem, _⟩ := ok.deleted hdeleted
    have held : ∀ fl ∈ rest, isFlock fl = true → fl.flType ≠ .unlck :=
      fun fl hfl => ok.held fl (mem fl hfl)
    split
    · exact ⟨exclusive, first, held, ok.window⟩
    · next lock =>
      refine ⟨exclusive, first, held, ?_⟩
      intro t req' newFl hwindow
      dsimp only at hwindow
      split at hwindow
      · cases hwindow
        exact lock
      · exact ok.window t req' newFl hwindow

end

theorem flockStep_ok (s : FlockState) (e : FlockEvent) (ok : FlockOk s) (alone : ResumesAlone s e) :
    FlockOk (flockStep s e) := by
  cases e with
  | call thread req alloc =>
    rw [flockStep]
    split
    · exact ok
    · exact flockLockFile_ok ok thread req alloc
  | resume thread =>
    rw [flockStep, flockResume]
    split
    · exact ok
    · next req newFl hwindow =>
      have left : FlockOk { s with window := fun t => if t = thread then none else s.window t } := by
        refine ⟨ok.exclusive, ok.first, ok.held, fun t req' newFl' h => ?_⟩
        dsimp only at h
        split at h
        · cases h
        · exact ok.window t req' newFl' h
      exact flockFinish_ok left newFl (fun _ => ok.window thread req newFl hwindow)
        fun hnone _ => alone (req, newFl) hwindow hnone

/-- `LOCK_UN` returns with no FLOCK record of the open file. -/
theorem flockLockFile_unlock {s : FlockState} (ok : FlockOk s) (thread : Nat) {req : FlockRequest}
    (unlock : req.flType = .unlck) (noAccess : req.flAccess = false) (alloc : Bool) :
    FreeOf req.flFile (flockLockFile s thread req alloc).2.iFlock := by
  unfold flockLockFile
  simp only [unlock, noAccess, ne_eq, not_true_eq_false, decide_false, Bool.and_false,
    Bool.false_and, Bool.false_eq_true, if_false]
  split
  · next hsame =>
    obtain ⟨fl, hfl, flock, htype⟩ := findOld_same hsame
    exact absurd (htype.trans unlock) (ok.held fl hfl flock)
  · next habsent => exact findOld_absent ok.first habsent
  · next hdeleted => exact (ok.deleted hdeleted).2.2.2

/-- In every run in which each conversion goes on alone, an open file has one FLOCK record
at most, and `LOCK_UN` leaves none. -/
theorem run_flockExclusive (locks : List FileLock) (clean : ∀ fl ∈ locks, isFlock fl = false)
    (nextAddr : Nat) (events : List FlockEvent)
    (alone : StepsMeet flockStep ResumesAlone (.init locks nextAddr) events) :
    FlockExclusive (runFrom flockStep (.init locks nextAddr) events).iFlock ∧
    ∀ thread req alloc, (runFrom flockStep (.init locks nextAddr) events).window thread = none →
      req.flType = .unlck → req.flAccess = false →
      FreeOf req.flFile (flockStep (runFrom flockStep (.init locks nextAddr) events)
        (.call thread req alloc)).iFlock := by
  have ok := runFrom_invariant flockStep flockStep_ok events _ (FlockOk.init clean nextAddr) alone
  refine ⟨ok.exclusive, fun thread req alloc idle unlock noAccess => ?_⟩
  rw [flockStep, idle]
  exact flockLockFile_unlock ok thread unlock noAccess alloc

def flockRequest (file : Nat) (type : LockType) : FlockRequest :=
  { addr := 0, flFile := file, flType := type, flAccess := false, flSleep := false,
    flExists := false }

/-- Thread 1 locks open file 7 shared and then exclusively, with nobody else on it. -/
def convertAlone : List FlockEvent :=
  [.call 1 (flockRequest 7 .rdlck) true, .call 1 (flockRequest 7 .wrlck) true, .resume 1]

/-- The same, with thread 2 locking the same open file while thread 1 is without `i_lock`. -/
def convertTogether : List FlockEvent :=
  [.call 1 (flockRequest 7 .rdlck) true, .call 1 (flockRequest 7 .wrlck) true,
    .call 2 (flockRequest 7 .rdlck) true, .resume 1]

theorem run_flockExclusive_convertAlone :
    FlockExclusive (runFrom flockStep (.init [] 0) convertAlone).iFlock :=
  (run_flockExclusive [] (by simp) 0 convertAlone (by decide +kernel)).1

/-- Open file 7 has two records, and an unlock removes one of them. -/
theorem convertTogether_two_records :
    ¬ FlockExclusive (runFrom flockStep (.init [] 0) convertTogether).iFlock ∧
    (runFrom flockStep (.init [] 0) convertTogether).window 2 = none ∧
    ¬ FreeOf 7 (flockStep (runFrom flockStep (.init [] 0) convertTogether)
      (.call 2 (flockRequest 7 .unlck) true)).iFlock := by
  unfold FlockExclusive
  decide +kernel

end Linux318.Guarantees
