import Linux318.Lib.Run
import Linux318.Source.Ipc.SemAsleep

/-!
# Semaphore arrays over whole runs

Source: ipc/sem.c. Any sequence of calls on one array: operations that complete, fail or
sleep, sleepers that are woken, interrupted or time out, `SETVAL`, `SETALL`, the exit of
processes with undo structures, and the removal of the array.
-/
namespace Linux318.Guarantees
open Lib Source.Ipc SemArray

variable {sma : SemArray} {v : SemVals} {q : SemQueue} {sop : Sembuf} {sops : List Sembuf}
  {n un : Nat} {e : SemEvent} {zero : Bool}

def applySop (v : SemVals) (un : Nat) (sop : Sembuf) : SemVals where
  semval i := if i = sop.semNum then v.semval i + sop.semOp else v.semval i
  semadj u i :=
    if sop.undo ∧ u = un ∧ i = sop.semNum then v.semadj u i - sop.semOp else v.semadj u i

/-- All operations applied in order. The values are in range before and after each of them,
and a wait for zero finds zero. -/
inductive Applied (un : Nat) : SemVals → List Sembuf → SemVals → Prop where
  | nil {v : SemVals} (range : v.InRange) : Applied un v [] v
  | cons {v w : SemVals} {sop : Sembuf} {rest : List Sembuf} (range : v.InRange)
      (zero : sop.semOp = 0 → v.semval sop.semNum = 0)
      (others : Applied un (applySop v un sop) rest w) : Applied un v (sop :: rest) w

theorem doSop_eq_applySop {v' : SemVals} (ok : doSop v un sop = .ok v') :
    v' = applySop v un sop := by
  obtain ⟨_, _, _, hval, _, hadj⟩ := doSop_ok ok
  have vals : v'.semval = (applySop v un sop).semval := by
    rw [hval]
    funext i
    by_cases same : i = sop.semNum <;> simp [applySop, same]
  have adjs : v'.semadj = (applySop v un sop).semadj := by
    rw [hadj]
    funext u i
    by_cases same : sop.undo = true ∧ u = un ∧ i = sop.semNum <;> simp [applySop, same]
  cases v'
  simp_all

/-- A batch that goes through is applied in order. -/
theorem doSops_applied (range : v.InRange) (done : (doSops un v sops).2 = none) :
    Applied un v sops (doSops un v sops).1 := by
  induction sops generalizing v with
  | nil => exact .nil range
  | cons sop rest ih =>
    obtain ⟨v', ok, same⟩ := doSops_cons_done done
    rw [same] at done ⊢
    refine .cons range (doSop_ok ok).1 ?_
    rw [← doSop_eq_applySop ok]
    exact ih (doSop_inRange range ok) done

/-- `perform_atomic_semop` applies all operations and returns 0, or it returns something
else and leaves every value, every adjustment and every `sempid`. -/
theorem perform_allOrNothing (sma : SemArray) (q : SemQueue) (range : sma.vals.InRange) :
    ((sma.perform q).1 = .done → Applied q.undo sma.vals q.sops (sma.perform q).2.1.vals) ∧
    ((sma.perform q).1 ≠ .done → (sma.perform q).2.1.vals = sma.vals ∧
      (sma.perform q).2.1.sempid = sma.sempid) := by
  refine ⟨fun done => doSops_applied range ?_, fun failed => ?_⟩
  · change semResult (doSops q.undo sma.vals q.sops).2 = .done at done
    cases stops : (doSops q.undo sma.vals q.sops).2 with
    | none => rfl
    | some stop =>
      rw [stops] at done
      rcases stop with ⟨_, _ | _⟩ | _ <;> cases done
  · exact ⟨perform_vals_of_ne_done failed, if_neg failed⟩

/-- An increment, a decrement by more, and the undo of the increment. -/
theorem perform_allOrNothing_overdrawn :
    ((newary 1).perform (newQueue 1 [⟨0, 3, false, true⟩, ⟨0, -5, false, false⟩] 0 7)).1 ≠ .done ∧
    ((newary 1).perform (newQueue 1 [⟨0, 3, false, true⟩, ⟨0, -5, false, false⟩] 0 7)).2.1.vals =
      (newary 1).vals :=
  ⟨by decide, ((perform_allOrNothing _ _ (Placed.newary 1).range).2 (by decide)).1⟩

/-- The placement of the queued operations while `sem_perm.lock` is free. -/
structure QueuesPlaced (sma : SemArray) : Prop where
  count : sma.complexCount = sma.queued.countP (fun q => decide (q.nsops > 1))
  simpleMode : sma.complexCount = 0 → sma.pendingAlter = [] ∧
    ∀ q ∈ sma.queued, q.nsops = 1 → (∃ sop ∈ q.sops, sop.semOp ≠ 0) → q ∈ sma.semAlter q.semNum
  complexMode : 0 < sma.complexCount → ∀ n, sma.semAlter n = []

theorem mem_queued : q ∈ sma.queued ↔
    q ∈ sma.pendingAlter ∨ q ∈ sma.pendingConst ∨
      ∃ i < sma.nsems, q ∈ sma.semAlter i ∨ q ∈ sma.semConst i := by
  simp [queued]

/-- Only the global lists hold complex operations. -/
theorem complexIn_queued (ok : sma.Entries) :
    complexIn sma.queued = complexIn sma.pendingAlter + complexIn sma.pendingConst := by
  have simple : complexIn ((List.range sma.nsems).flatMap
      fun i => sma.semAlter i ++ sma.semConst i) = 0 := by
    rw [complexIn_eq_zero]
    intro q mem
    obtain ⟨i, _, mem⟩ := List.mem_flatMap.mp mem
    rcases List.mem_append.mp mem with mem | mem
    · rw [ok.nsops_alter mem]
      omega
    obtain ⟨sop, one, _⟩ := ok.semConst i q mem
    rw [nsops_of_single one]
    omega
  rw [queued, complexIn_append, complexIn_append]
  omega

theorem queuesPlaced_of_placed (placed : sma.Placed) : QueuesPlaced sma where
  count := by
    have := placed.queued.complexCount_eq
    rw [← complexIn_queued placed.toEntries] at this
    exact this
  simpleMode := by
    intro zero
    have empty := placed.simple zero
    refine ⟨empty, fun q mem one ⟨sop, hsop, alters⟩ => ?_⟩
    rcases mem_queued.mp mem with mem | mem | ⟨i, _, mem | mem⟩
    · rw [empty] at mem
      cases mem
    · have := (placed.pendingConst q mem).1
      omega
    · rwa [(IsDecrement.semNum_eq (placed.semAlter i q mem)).2]
    · obtain ⟨only, single, _, none, _⟩ := placed.semConst i q mem
      rw [single, List.mem_singleton] at hsop
      exact absurd (hsop ▸ none) alters
  complexMode := fun positive => placed.complex (by omega)

/-- Every call waits on its queue, in every run. -/
theorem run_placed (nsems : Nat) (events : List SemEvent) :
    (runFrom semStep (newary nsems) events).Placed :=
  runFrom_invariant_always semStep (fun _ e placed => (placed.step e).1) events _ (.newary nsems)

/-- No run takes a value out of 0 to SEMVMX, or an adjustment out of its 16 bits. -/
theorem run_inRange (nsems : Nat) (events : List SemEvent) :
    (runFrom semStep (newary nsems) events).vals.InRange :=
  (run_placed nsems events).range

/-- In every state that a run reaches the queues are placed. The waiting altering operations
of one semaphore keep their order in the next step, whatever it merges and unmerges, and a
new one comes last; merging alone changes nothing in this order. -/
theorem run_queuesPlaced (nsems : Nat) (events : List SemEvent) :
    QueuesPlaced (runFrom semStep (newary nsems) events) ∧
    (∀ e n, Shrinks ((runFrom semStep (newary nsems) events).alterOrder n ++ arrived e)
      ((semStep (runFrom semStep (newary nsems) events) e).alterOrder n)) ∧
    ∀ n, (runFrom semStep (newary nsems) events).mergeQueues.alterOrder n =
      (runFrom semStep (newary nsems) events).alterOrder n := by
  have placed := run_placed nsems events
  exact ⟨queuesPlaced_of_placed placed, fun e => (placed.step e).2, placed.queued.merged.order⟩

theorem asleep_newary (nsems : Nat) : (newary nsems).Asleep where
  asleep m := by cases m <;> simp [newary, constList, AsleepIn]
  stable := by simp [newary]
  alter m := by cases m <;> simp [newary, alterList, AsleepIn]

structure NoneLost (sma : SemArray) : Prop where
  placed : sma.Placed
  asleep : sma.Asleep

theorem NoneLost.queued_sleeps (ok : NoneLost sma) :
    ∀ q ∈ sma.queued, (performAtomicSemop sma.vals q).1 = .sleep := by
  intro q mem
  rcases mem_queued.mp mem with mem | mem | ⟨i, _, mem | mem⟩
  · exact ok.asleep.alter none q mem
  · exact ok.asleep.asleep none q mem
  · exact ok.asleep.alter (some i) q mem
  · exact ok.asleep.asleep (some i) q mem

/-- No call loses a sleeper. -/
theorem NoneLost.step (ok : NoneLost sma) (behind : sma.NowaitBehind e) :
    NoneLost (semStep sma e) :=
  ⟨(ok.placed.step e).1, ok.asleep.step ok.placed behind⟩

/-- In every run whose complex waits for zero name no semaphore to wait for behind one with
`IPC_NOWAIT`, `perform_atomic_semop` would return 1 for every queued operation. -/
theorem run_queued_sleeps (nsems : Nat) (events : List SemEvent)
    (meets : StepsMeet semStep NowaitBehind (newary nsems) events) :
    ∀ q ∈ (runFrom semStep (newary nsems) events).queued,
      (performAtomicSemop (runFrom semStep (newary nsems) events).vals q).1 = .sleep := by
  have ok : NoneLost (runFrom semStep (newary nsems) events) :=
    runFrom_invariant semStep (fun _ _ ok behind => ok.step behind) events _
      ⟨.newary nsems, asleep_newary nsems⟩ meets
  exact ok.queued_sleeps

def waitZero (semNum : Nat) (nowait : Bool) : Sembuf :=
  { semNum, semOp := 0, nowait, undo := false }

def increment (semNum : Nat) : List Sembuf :=
  [{ semNum, semOp := 1, nowait := false, undo := false }]

/-- A request for two zeros sleeps on semaphore 0, and then semaphore 1 grows. -/
def zerosRun (sops : List Sembuf) : List SemEvent :=
  [.semtimedop 1 (increment 0) 0 1, .semtimedop 2 sops 0 2, .semtimedop 3 (increment 1) 0 3]

theorem run_queued_sleeps_nowaitLast :
    (runFrom semStep (newary 2) (zerosRun [waitZero 0 false, waitZero 1 true])).queued ≠ [] ∧
    ∀ q ∈ (runFrom semStep (newary 2) (zerosRun [waitZero 0 false, waitZero 1 true])).queued,
      (performAtomicSemop
        (runFrom semStep (newary 2) (zerosRun [waitZero 0 false, waitZero 1 true])).vals q).1 =
          .sleep :=
  ⟨by decide, run_queued_sleeps 2 _ (by decide)⟩

/-- With `IPC_NOWAIT` first the request stays on its list, though it would now return
`-EAGAIN`. -/
theorem queued_eagain_nowaitFirst :
    ∃ q ∈ (runFrom semStep (newary 2) (zerosRun [waitZero 1 true, waitZero 0 false])).queued,
      (performAtomicSemop
        (runFrom semStep (newary 2) (zerosRun [waitZero 1 true, waitZero 0 false])).vals q).1 =
          .eagain := by
  decide

instance (v : SemVals) (sop : Sembuf) : Decidable (Blocks v sop) :=
  inferInstanceAs (Decidable (_ ∨ _))

/-- The first operation that cannot go on in these values, the others executed in order. -/
def firstBlocked (un : Nat) : SemVals → List Sembuf → Option Sembuf
  | _, [] => none
  | v, sop :: rest =>
    if Blocks v sop then some sop
    else firstBlocked un (applySop v un sop) rest

def waitsOn (v : SemVals) (n : Nat) (zero : Bool) (q : SemQueue) : Bool :=
  (firstBlocked q.undo v q.sops).any fun sop =>
    sop.semNum = n ∧ if zero then sop.semOp = 0 else sop.semOp < 0

theorem firstBlocked_of_stop {i : Nat} {nowait : Bool}
    (stops : (doSops un v sops).2 = some (.wouldBlock i nowait)) :
    firstBlocked un v sops = sops[i]? := by
  induction sops generalizing v i with
  | nil => cases stops
  | cons sop rest ih =>
    rw [firstBlocked]
    rcases doSop_cases v un sop with ⟨stop, blocks⟩ | ⟨stop, _⟩ | ⟨⟨v', stop⟩, free⟩
    · rw [doSops, stop] at stops
      cases stops
      rw [if_pos blocks]
      rfl
    · rw [doSops, stop] at stops
      cases stops
    · obtain ⟨j, later, rfl⟩ := doSops_cons_stop stop stops
      rw [if_neg free, ← doSop_eq_applySop stop, ih later]
      rfl

theorem waitsOn_eq (first : firstBlocked q.undo v q.sops = some sop) :
    waitsOn v n zero q = countsFor n zero sop := by
  rw [waitsOn, first, countsFor]
  by_cases same : sop.semNum = n <;> cases zero <;> simp

theorem fresh_waitsOn (fresh : Fresh v q) (n : Nat) (zero : Bool) :
    waitsOn v n zero q = checkQop n zero q := by
  obtain ⟨i, stops, same⟩ := fresh
  have first := firstBlocked_of_stop stops
  rw [List.getElem?_eq_getElem (wouldBlock_lt stops)] at first same
  rw [waitsOn_eq first, checkQop, ← same, Option.any_some]

/-- All operations of such an entry count alike. -/
theorem oneSemaphore_waitsOn (one : OneSemaphore q.sops) (zeros : ∀ sop ∈ q.sops, sop.semOp = 0)
    (sleeps : Sleeps v q) (n : Nat) (zero : Bool) : waitsOn v n zero q = checkQop n zero q := by
  obtain ⟨i, stops⟩ := sleeps.stops
  have inside := wouldBlock_lt stops
  have first := firstBlocked_of_stop stops
  rw [List.getElem?_eq_getElem inside] at first
  have mem := List.getElem_mem inside
  rw [waitsOn_eq first, checkQop]
  cases blocking : q.blockingSop with
  | none =>
    have empty := List.head?_eq_none_iff.mp (Option.or_eq_none_iff.mp blocking).2
    exact absurd empty (List.ne_nil_of_mem mem)
  | some sop =>
    have hsop := SemQueue.mem_of_blockingSop blocking
    simp [countsFor, one _ mem sop hsop, zeros _ mem, zeros sop hsop]

theorem single_waitsOn (one : q.sops = [sop]) (sleeps : Sleeps v q) :
    waitsOn v n zero q = countsFor n zero sop := by
  obtain ⟨i, stops⟩ := sleeps.stops
  have inside := wouldBlock_lt stops
  have first := firstBlocked_of_stop stops
  rw [one, List.length_singleton, Nat.lt_one_iff] at inside
  rw [inside] at first
  exact waitsOn_eq (one ▸ first)

/-- Only one of the lists has entries that count. -/
theorem countP_flatMap_range {α : Type} {p : α → Bool} {f : Nat → List α}
    (others : ∀ i, i ≠ n → (f i).countP p = 0) (k : Nat) :
    ((List.range k).flatMap f).countP p = if n < k then (f n).countP p else 0 := by
  induction k with
  | zero => simp
  | succ k ih =>
    rw [List.range_succ, List.flatMap_append, List.countP_append, ih, List.flatMap_singleton]
    by_cases same : k = n
    · subst same
      simp
    rw [others k same]
    by_cases lt : n < k
    · rw [if_pos lt, if_pos (by omega), Nat.add_zero]
    · rw [if_neg lt, if_neg (by omega)]

/-- The lists of one semaphore hold the operations that sleep on exactly that semaphore. -/
theorem NoneLost.countP_semLists (ok : NoneLost sma) (n : Nat) (zero : Bool)
    (i : Nat) : (sma.semAlter i ++ sma.semConst i).countP (waitsOn sma.vals n zero) =
      if i = n then (if zero then sma.semConst n else sma.semAlter n).length else 0 := by
  have alter : ∀ q ∈ sma.semAlter i, waitsOn sma.vals n zero q = (decide (i = n) && !zero) := by
    intro q mem
    obtain ⟨sop, one, rfl, neg, _⟩ := ok.placed.semAlter i q mem
    rw [single_waitsOn one (ok.asleep.alter (some _) q mem), countsFor]
    by_cases same : sop.semNum = n <;> cases zero <;> simp [neg, Int.ne_of_lt neg]
  have const : ∀ q ∈ sma.semConst i, waitsOn sma.vals n zero q = (decide (i = n) && zero) := by
    intro q mem
    obtain ⟨sop, one, rfl, none, _⟩ := ok.placed.semConst i q mem
    rw [single_waitsOn one (ok.asleep.asleep (some _) q mem), countsFor]
    by_cases same : sop.semNum = n <;> cases zero <;> simp [none]
  rw [List.countP_append, List.countP_congr fun q h => by rw [alter q h],
    List.countP_congr (l := sma.semConst i) fun q h => by rw [const q h]]
  by_cases same : i = n <;> cases zero <;> simp [same]

/-- The invariant of the runs in which every count is exact. -/
structure Exact (sma : SemArray) : Prop extends NoneLost sma where
  counted : sma.Counted

/-- Every call keeps the counts exact. -/
theorem Exact.step (ok : Exact sma) (one : sma.OneZero e) : Exact (semStep sma e) :=
  ⟨ok.toNoneLost.step one.nowaitBehind, ok.counted.step ok.placed ok.asleep one⟩

theorem Exact.countSemcnt_eq (ok : Exact sma) (inside : n < sma.nsems) (zero : Bool) :
    countSemcnt sma n zero = sma.queued.countP (waitsOn sma.vals n zero) := by
  have alter : sma.pendingAlter.countP (waitsOn sma.vals n zero) =
      sma.pendingAlter.countP (checkQop n zero) :=
    List.countP_congr fun q mem => by rw [fresh_waitsOn (ok.counted.alter q mem)]
  have const : sma.pendingConst.countP (waitsOn sma.vals n zero) =
      sma.pendingConst.countP (checkQop n zero) :=
    List.countP_congr fun q mem => by
      rw [oneSemaphore_waitsOn (ok.counted.const q mem) (ok.placed.pendingConst q mem).2
        (ok.asleep.asleep none q mem)]
  have noDecrement : sma.pendingConst.countP (checkQop n false) = 0 := by
    refine List.countP_eq_zero.mpr fun q mem => ?_
    cases blocking : q.blockingSop with
    | none => simp [checkQop, blocking]
    | some sop =>
      have zero := (ok.placed.pendingConst q mem).2 sop (SemQueue.mem_of_blockingSop blocking)
      simp [checkQop, blocking, countsFor, zero]
  rw [queued, List.countP_append, List.countP_append, countP_flatMap_range
    (fun i ne => by rw [ok.countP_semLists, if_neg ne]), if_pos inside, ok.countP_semLists,
    if_pos rfl, countSemcnt]
  cases zero
  · simp
    omega
  · simp
    omega

/-- In every run whose complex waits for zero wait for one semaphore, `GETNCNT` and `GETZCNT`
count exactly the sleepers whose first blocked operation is on the semaphore. -/
theorem run_countSemcnt (nsems : Nat) (events : List SemEvent)
    (meets : StepsMeet semStep OneZero (newary nsems) events) (n : Nat)
    (inside : n < (runFrom semStep (newary nsems) events).nsems) (zero : Bool) :
    countSemcnt (runFrom semStep (newary nsems) events) n zero =
      (runFrom semStep (newary nsems) events).queued.countP
        (waitsOn (runFrom semStep (newary nsems) events).vals n zero) := by
  have ok : Exact (runFrom semStep (newary nsems) events) :=
    runFrom_invariant semStep (fun _ _ ok one => ok.step one) events _
      ⟨⟨.newary nsems, asleep_newary nsems⟩, by simp [newary, FreshIn], by simp [newary]⟩ meets
  exact ok.countSemcnt_eq inside zero

theorem run_countSemcnt_oneSemaphore :
    countSemcnt (runFrom semStep (newary 2) (zerosRun [waitZero 0 false, waitZero 0 false])) 0 true =
      (runFrom semStep (newary 2) (zerosRun [waitZero 0 false, waitZero 0 false])).queued.countP
        (waitsOn (runFrom semStep (newary 2)
          (zerosRun [waitZero 0 false, waitZero 0 false])).vals 0 true) :=
  run_countSemcnt 2 _ (by decide) 0 (by decide) true

/-- The request sleeps on semaphore 0 behind a wait that went on; semaphore 1 has grown since
and now blocks it first, but no sleeper is counted there. -/
theorem countSemcnt_stale :
    countSemcnt (runFrom semStep (newary 2) (zerosRun [waitZero 1 false, waitZero 0 false])) 1 true =
      0 ∧
    (runFrom semStep (newary 2) (zerosRun [waitZero 1 false, waitZero 0 false])).queued.countP
      (waitsOn (runFrom semStep (newary 2)
        (zerosRun [waitZero 1 false, waitZero 0 false])).vals 1 true) = 1 := by
  decide

end Linux318.Guarantees
