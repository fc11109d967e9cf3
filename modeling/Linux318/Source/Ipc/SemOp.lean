import Mathlib.Tactic.Common

/-!
# `perform_atomic_semop`

Source: ipc/sem.c:91-133,602-681. The semaphores of one array are functions of their
number. `semadj` has one row for each undo structure. `SEMVMX` and `SEMAEM` are defined in
a header outside this tree, with the same value.
-/
namespace Linux318.Source.Ipc
open List

variable {v v' : SemVals} {un n : Nat} {sop : Sembuf} {sops : List Sembuf} {q : SemQueue}

def semvmx : Int := 32767

def semaem : Int := semvmx

structure Sembuf where
  semNum : Nat
  semOp : Int
  nowait : Bool
  undo : Bool
  deriving DecidableEq, Repr

structure SemVals where
  semval : Nat → Int
  semadj : Nat → Nat → Int

/-- `struct sem_queue`: `id` is the sleeper, `undo` the undo structure and `blocking` the
position in `sops` of the operation that blocked. -/
structure SemQueue where
  id : Nat
  sops : List Sembuf
  alter : Bool
  undo : Nat
  pid : Int
  blocking : Nat
  deriving DecidableEq, Repr

inductive SemResult where
  | done | sleep | eagain | erange | eidrm | einval | efbig
  deriving DecidableEq, Repr

/-- Why a loop over the operations stopped: `would_block` at a position, or `out_of_range`. -/
inductive SopStop where
  | wouldBlock (sop : Nat) (nowait : Bool)
  | outOfRange
  deriving DecidableEq, Repr

def SemVals.setVal (v : SemVals) (n : Nat) (val : Int) : SemVals :=
  { v with semval := fun i => if i = n then val else v.semval i }

def SemVals.setAdj (v : SemVals) (un n : Nat) (adj : Int) : SemVals :=
  { v with semadj := fun u i => if u = un ∧ i = n then adj else v.semadj u i }

/-- One operation: the values after it, or the reason to stop. -/
def doSop (v : SemVals) (un : Nat) (sop : Sembuf) : Except SopStop SemVals :=
  if sop.semOp = 0 ∧ v.semval sop.semNum ≠ 0 then .error (.wouldBlock 0 sop.nowait)
  else
    let result := v.semval sop.semNum + sop.semOp
    if result < 0 then .error (.wouldBlock 0 sop.nowait)
    else if result > semvmx then .error .outOfRange
    else if sop.undo then
      let undo := v.semadj un sop.semNum - sop.semOp
      if undo < -semaem - 1 ∨ undo > semaem then .error .outOfRange
      else .ok ((v.setAdj un sop.semNum undo).setVal sop.semNum result)
    else .ok (v.setVal sop.semNum result)

/-- The body of the `undo` loop. -/
def undoSop (v : SemVals) (un : Nat) (sop : Sembuf) : SemVals :=
  let v := v.setVal sop.semNum (v.semval sop.semNum - sop.semOp)
  if sop.undo then v.setAdj un sop.semNum (v.semadj un sop.semNum + sop.semOp) else v

def SopStop.shift : SopStop → SopStop
  | .wouldBlock sop nowait => .wouldBlock (sop + 1) nowait
  | .outOfRange => .outOfRange

/-- All operations in order; after a stop the ones before it are undone, the last first. -/
def doSops (un : Nat) : SemVals → List Sembuf → SemVals × Option SopStop
  | v, [] => (v, none)
  | v, sop :: rest =>
    match doSop v un sop with
    | .error stop => (v, some stop)
    | .ok v' =>
      match doSops un v' rest with
      | (v'', none) => (v'', none)
      | (v'', some stop) => (undoSop v'' un sop, some stop.shift)

def semResult : Option SopStop → SemResult
  | none => .done
  | some (.wouldBlock _ true) => .eagain
  | some (.wouldBlock _ false) => .sleep
  | some .outOfRange => .erange

def SemQueue.block (q : SemQueue) : Option SopStop → SemQueue
  | some (.wouldBlock sop _) => { q with blocking := sop }
  | _ => q

/-- The return value, the values and the queue entry after the call. -/
def performAtomicSemop (v : SemVals) (q : SemQueue) : SemResult × SemVals × SemQueue :=
  let r := doSops q.undo v q.sops
  (semResult r.2, r.1, q.block r.2)

/-- `sempid` of the semaphores of a completed operation. -/
def setPids (sops : List Sembuf) (pid : Int) (sempid : Nat → Int) : Nat → Int :=
  fun n => if n ∈ sops.map Sembuf.semNum then pid else sempid n

def Sleeps (v : SemVals) (q : SemQueue) : Prop := (performAtomicSemop v q).1 = .sleep

instance (v : SemVals) (q : SemQueue) : Decidable (Sleeps v q) :=
  inferInstanceAs (Decidable ((performAtomicSemop v q).1 = .sleep))

structure SemVals.InRange (v : SemVals) : Prop where
  semval : ∀ n, 0 ≤ v.semval n ∧ v.semval n ≤ semvmx
  semadj : ∀ un n, -semaem - 1 ≤ v.semadj un n ∧ v.semadj un n ≤ semaem

/-- What a completed operation has checked, and what it has changed. -/
theorem doSop_ok (ok : doSop v un sop = .ok v') : (sop.semOp = 0 → v.semval sop.semNum = 0) ∧
    0 ≤ v.semval sop.semNum + sop.semOp ∧ v.semval sop.semNum + sop.semOp ≤ semvmx ∧
    v'.semval = (fun i => if i = sop.semNum then v.semval sop.semNum + sop.semOp
      else v.semval i) ∧
    (sop.undo = true → -semaem - 1 ≤ v.semadj un sop.semNum - sop.semOp ∧
      v.semadj un sop.semNum - sop.semOp ≤ semaem) ∧
    v'.semadj = (fun u i => if sop.undo = true ∧ u = un ∧ i = sop.semNum
      then v.semadj un sop.semNum - sop.semOp else v.semadj u i) := by
  unfold doSop at ok
  split at ok
  · cases ok
  next zero =>
    have zero' : sop.semOp = 0 → v.semval sop.semNum = 0 := by tauto
    simp only at ok
    split at ok
    · cases ok
    split at ok
    · cases ok
    split at ok
    next undo =>
      split at ok
      · cases ok
      cases ok
      refine ⟨zero', by omega, by omega, rfl, fun _ => by omega, ?_⟩
      simp [SemVals.setVal, SemVals.setAdj, undo]
    next undo =>
      cases ok
      refine ⟨zero', by omega, by omega, rfl, fun h => absurd h undo, ?_⟩
      simp [SemVals.setVal, undo]

theorem undoSop_doSop (ok : doSop v un sop = .ok v') : undoSop v' un sop = v := by
  obtain ⟨_, _, _, hval, _, hadj⟩ := doSop_ok ok
  have vals : (undoSop v' un sop).semval = v.semval := by
    funext i
    unfold undoSop
    split <;> by_cases same : i = sop.semNum <;> simp [SemVals.setVal, SemVals.setAdj, hval, same]
  have adjs : (undoSop v' un sop).semadj = v.semadj := by
    funext u i
    unfold undoSop
    cases undo : sop.undo <;> by_cases same : u = un ∧ i = sop.semNum <;>
      simp_all [SemVals.setVal, SemVals.setAdj]
  cases h : undoSop v' un sop
  simp_all

/-- An operation that stops leaves the values as they were. -/
theorem doSops_stop {stop : SopStop}
    (h : (doSops un v sops).2 = some stop) : (doSops un v sops).1 = v := by
  induction sops generalizing v stop with
  | nil => cases h
  | cons sop rest ih =>
    rw [doSops] at h ⊢
    split
    · rfl
    next v' ok =>
      simp only [ok] at h
      split
      next all => simp [all] at h
      next v'' stop' failed =>
        have kept := ih (by rw [failed])
        simp only [failed] at kept
        rw [kept]
        exact undoSop_doSop ok

theorem doSops_cons_done {rest : List Sembuf} (done : (doSops un v (sop :: rest)).2 = none) :
    ∃ v', doSop v un sop = .ok v' ∧ doSops un v (sop :: rest) = doSops un v' rest := by
  rw [doSops] at done
  split at done
  · cases done
  next v' ok =>
    refine ⟨v', ok, ?_⟩
    split at done
    next all => simp only [doSops, ok, all]
    · cases done

/-- What every operation of the list preserves, the list preserves. -/
theorem doSops_preserves {P : SemVals → Prop}
    (step : ∀ sop ∈ sops, ∀ v v', P v → doSop v un sop = .ok v' → P v')
    (before : P v) : P (doSops un v sops).1 := by
  induction sops generalizing v with
  | nil => exact before
  | cons sop rest ih =>
    cases stops : (doSops un v (sop :: rest)).2 with
    | some stop => rwa [doSops_stop stops]
    | none =>
      obtain ⟨v', ok, same⟩ := doSops_cons_done stops
      rw [same]
      exact ih (fun s mem => step s (mem_cons_of_mem _ mem)) (step sop mem_cons_self v v' before ok)

theorem doSop_inRange (range : v.InRange) (ok : doSop v un sop = .ok v') : v'.InRange := by
  obtain ⟨_, low, high, hval, hundo, hadj⟩ := doSop_ok ok
  refine ⟨fun n => ?_, fun u n => ?_⟩
  · rw [hval]
    dsimp only
    split
    · exact ⟨low, high⟩
    · exact range.semval n
  · rw [hadj]
    dsimp only
    split
    next same => exact hundo same.1
    · exact range.semadj u n

theorem perform_inRange (range : v.InRange) : (performAtomicSemop v q).2.1.InRange :=
  doSops_preserves (fun _ _ _ _ => doSop_inRange) range

/-- Only a completed operation changes values. -/
theorem perform_vals_of_ne_done
    (h : (performAtomicSemop v q).1 ≠ .done) : (performAtomicSemop v q).2.1 = v := by
  unfold performAtomicSemop at h ⊢
  cases stops : (doSops q.undo v q.sops).2 with
  | some stop => exact doSops_stop stops
  | none => simp [stops, semResult] at h

/-- A semaphore that no operation increases does not grow. -/
theorem perform_semval_le (noInc : ∀ sop ∈ q.sops, sop.semNum = n → sop.semOp ≤ 0) :
    (performAtomicSemop v q).2.1.semval n ≤ v.semval n := by
  refine doSops_preserves (P := fun w => w.semval n ≤ v.semval n) ?_ (Int.le_refl _)
  intro sop mem w w' before ok
  obtain ⟨_, _, _, hval, _⟩ := doSop_ok ok
  rw [hval]
  dsimp only
  split
  next same =>
    have := noInc sop mem same.symm
    rw [← same]
    omega
  · exact before

/-- A semaphore that no operation names keeps its value. -/
theorem perform_semval_of_notMem (unnamed : n ∉ q.sops.map Sembuf.semNum) :
    (performAtomicSemop v q).2.1.semval n = v.semval n := by
  refine doSops_preserves (P := fun w => w.semval n = v.semval n) ?_ rfl
  intro sop mem w w' before ok
  obtain ⟨_, _, _, hval, _⟩ := doSop_ok ok
  rw [hval]
  dsimp only
  split
  next same => exact absurd (same ▸ mem_map_of_mem mem) unnamed
  · exact before

/-- The entry keeps everything but `blocking`. -/
theorem block_eq (q : SemQueue) (stop : Option SopStop) :
    ∃ k, q.block stop = { q with blocking := k } := by
  unfold SemQueue.block
  split
  · exact ⟨_, rfl⟩
  · exact ⟨q.blocking, rfl⟩

def zeroResult (v : SemVals) (sops : List Sembuf) : SemResult :=
  match sops.find? (v.semval ·.semNum ≠ 0) with
  | none => .done
  | some sop => if sop.nowait then .eagain else .sleep

theorem semResult_shift (stop : SopStop) : semResult (some stop.shift) = semResult (some stop) := by
  cases stop with
  | wouldBlock sop nowait => cases nowait <;> rfl
  | outOfRange => rfl

theorem doSop_zero (range : v.InRange) (un : Nat) (zero : sop.semOp = 0) : doSop v un sop =
      if v.semval sop.semNum = 0 then .ok v else .error (.wouldBlock 0 sop.nowait) := by
  have hadj := range.semadj un sop.semNum
  have same : v.setVal sop.semNum (v.semval sop.semNum) = v := by
    unfold SemVals.setVal
    congr 1
    funext i
    split <;> simp_all
  have sameAdj : v.setAdj un sop.semNum (v.semadj un sop.semNum) = v := by
    unfold SemVals.setAdj
    congr 1
    funext u i
    split <;> simp_all
  unfold doSop
  by_cases h : v.semval sop.semNum = 0
  · rw [h] at same
    simp only [zero, h, Int.sub_zero, Int.add_zero, sameAdj, same]
    simp [semvmx, show ¬ (v.semadj un sop.semNum < -semaem - 1 ∨
      semaem < v.semadj un sop.semNum) by omega]
  · simp [zero, h]

theorem doSops_zero (range : v.InRange) (un : Nat) (zero : ∀ sop ∈ sops, sop.semOp = 0) :
    (doSops un v sops).1 = v ∧ semResult (doSops un v sops).2 = zeroResult v sops := by
  induction sops with
  | nil => exact ⟨rfl, rfl⟩
  | cons sop rest ih =>
    obtain ⟨kept, res⟩ := ih fun s mem => zero s (mem_cons_of_mem _ mem)
    cases stops : (doSops un v (sop :: rest)).2 with
    | none =>
      obtain ⟨v', ok, same⟩ := doSops_cons_done stops
      rw [doSop_zero range un (zero sop mem_cons_self)] at ok
      split at ok
      next h =>
        cases ok
        rw [stops.symm, same]
        refine ⟨kept, res.trans ?_⟩
        simp [zeroResult, h]
      · cases ok
    | some stop =>
      refine ⟨doSops_stop stops, ?_⟩
      rw [← stops, doSops, doSop_zero range un (zero sop mem_cons_self)]
      by_cases h : v.semval sop.semNum = 0
      · have next : zeroResult v (sop :: rest) = zeroResult v rest := by simp [zeroResult, h]
        rw [if_pos h, next, ← res]
        dsimp only
        split
        next all => rw [all]
        next failed => rw [failed, semResult_shift]
      · cases nowait : sop.nowait <;> simp [zeroResult, h, nowait, semResult]

theorem perform_zero (range : v.InRange) (zero : ∀ sop ∈ q.sops, sop.semOp = 0) :
    (performAtomicSemop v q).2.1 = v ∧ (performAtomicSemop v q).1 = zeroResult v q.sops :=
  doSops_zero range q.undo zero

def Blocks (v : SemVals) (sop : Sembuf) : Prop :=
  sop.semOp = 0 ∧ v.semval sop.semNum ≠ 0 ∨ v.semval sop.semNum + sop.semOp < 0

theorem doSop_cases (v : SemVals) (un : Nat) (sop : Sembuf) :
    doSop v un sop = .error (.wouldBlock 0 sop.nowait) ∧ Blocks v sop ∨
    doSop v un sop = .error .outOfRange ∧ ¬ Blocks v sop ∨
    (∃ v', doSop v un sop = .ok v') ∧ ¬ Blocks v sop := by
  unfold doSop Blocks
  split
  next zero => exact .inl ⟨rfl, .inl zero⟩
  next zero =>
    dsimp only
    split
    next low => exact .inl ⟨rfl, .inr low⟩
    next low =>
      have free : ¬ (sop.semOp = 0 ∧ v.semval sop.semNum ≠ 0 ∨
        v.semval sop.semNum + sop.semOp < 0) := by tauto
      right
      split
      · exact .inl ⟨rfl, free⟩
      split
      · split
        · exact .inl ⟨rfl, free⟩
        · exact .inr ⟨⟨_, rfl⟩, free⟩
      · exact .inr ⟨⟨_, rfl⟩, free⟩

theorem sleeps_single (one : q.sops = [sop]) : Sleeps v q ↔ sop.nowait = false ∧ Blocks v sop := by
  unfold Sleeps performAtomicSemop
  rw [one]
  rcases doSop_cases v q.undo sop with ⟨stop, blocks⟩ | ⟨stop, free⟩ | ⟨⟨v', stop⟩, free⟩
  · cases nowait : sop.nowait <;> simp [doSops, stop, semResult, blocks, nowait]
  · simp [doSops, stop, semResult, free]
  · simp [doSops, stop, semResult, free]

/-- A blocking decrement of one semaphore, the only simple operation that changes values
and can sleep. -/
def IsDecrement (n : Nat) (q : SemQueue) : Prop :=
  ∃ sop, q.sops = [sop] ∧ sop.semNum = n ∧ sop.semOp < 0 ∧ sop.nowait = false

def IsZeroWait (n : Nat) (q : SemQueue) : Prop :=
  ∃ sop, q.sops = [sop] ∧ sop.semNum = n ∧ sop.semOp = 0 ∧ sop.nowait = false

/-- A sleeping decrement sleeps on while its semaphore does not grow. -/
theorem IsDecrement.sleeps_mono {w : SemVals} (dec : IsDecrement n q) (le : w.semval n ≤ v.semval n)
    (sleeps : Sleeps v q) : Sleeps w q := by
  obtain ⟨sop, one, rfl, neg, wait⟩ := dec
  rw [sleeps_single one] at sleeps ⊢
  refine ⟨wait, ?_⟩
  have := sleeps.2
  unfold Blocks at this ⊢
  omega

theorem IsDecrement.sleeps_of_zero
    (dec : IsDecrement n q) (zero : v.semval n = 0) : Sleeps v q := by
  obtain ⟨sop, one, rfl, neg, wait⟩ := dec
  rw [sleeps_single one]
  exact ⟨wait, .inr (by omega)⟩

theorem IsZeroWait.sleeps_iff (zero : IsZeroWait n q) : Sleeps v q ↔ v.semval n ≠ 0 := by
  obtain ⟨sop, one, rfl, none, wait⟩ := zero
  rw [sleeps_single one]
  simp only [wait, Blocks, true_and]
  omega

/-- A simple operation that sleeps waits for zero or is a decrement. -/
theorem sleeps_simple (range : v.InRange) (one : q.sops = [sop]) (sleeps : Sleeps v q) :
    IsZeroWait sop.semNum q ∧ sop.semOp = 0 ∨ IsDecrement sop.semNum q ∧ sop.semOp ≠ 0 := by
  have := range.semval sop.semNum
  obtain ⟨wait, blocks⟩ := (sleeps_single one).mp sleeps
  unfold Blocks at blocks
  by_cases zero : sop.semOp = 0
  · exact .inl ⟨⟨sop, one, rfl, zero, wait⟩, zero⟩
  · exact .inr ⟨⟨sop, one, rfl, by omega, wait⟩, zero⟩

/-- `*q->blocking`. A pointer that was never written stands for the first operation. -/
def SemQueue.blockingSop (q : SemQueue) : Option Sembuf := q.sops[q.blocking]?.or q.sops.head?

variable {i : Nat} {nowait : Bool}

theorem doSops_cons_stop (ok : doSop v un sop = .ok v')
    (stops : (doSops un v (sop :: sops)).2 = some (.wouldBlock i nowait)) :
    ∃ j, (doSops un v' sops).2 = some (.wouldBlock j nowait) ∧ i = j + 1 := by
  rw [doSops, ok] at stops
  rcases later : doSops un v' sops with ⟨w, _ | ⟨j, _⟩ | _⟩ <;> simp only [later] at stops <;>
    cases stops
  exact ⟨j, rfl, rfl⟩

theorem wouldBlock_lt (stops : (doSops un v sops).2 = some (.wouldBlock i nowait)) :
    i < sops.length := by
  induction sops generalizing v i with
  | nil => cases stops
  | cons sop rest ih =>
    rcases doSop_cases v un sop with ⟨stop, _⟩ | ⟨stop, _⟩ | ⟨⟨v', ok⟩, _⟩
    · rw [doSops, stop] at stops
      cases stops
      simp
    · rw [doSops, stop] at stops
      cases stops
    · obtain ⟨j, later, rfl⟩ := doSops_cons_stop ok stops
      simpa using ih later

theorem SemQueue.mem_of_blockingSop (blocking : q.blockingSop = some sop) : sop ∈ q.sops := by
  rcases Option.or_eq_some_iff.mp blocking with here | ⟨_, first⟩
  · exact mem_of_getElem? here
  · exact mem_of_mem_head? first

/-- The operation sleeps, and `q->blocking` is the operation that blocks. -/
def Fresh (v : SemVals) (q : SemQueue) : Prop :=
  ∃ i, (doSops q.undo v q.sops).2 = some (.wouldBlock i false) ∧ q.sops[i]? = q.blockingSop

theorem Sleeps.stops (sleeps : Sleeps v q) :
    ∃ i, (doSops q.undo v q.sops).2 = some (.wouldBlock i false) := by
  change semResult (doSops q.undo v q.sops).2 = .sleep at sleeps
  rcases h : (doSops q.undo v q.sops).2 with _ | ⟨i, _ | _⟩ | _
  · rw [h] at sleeps
    cases sleeps
  · exact ⟨i, rfl⟩
  · rw [h] at sleeps
    cases sleeps
  · rw [h] at sleeps
    cases sleeps

theorem Fresh.sleeps (fresh : Fresh v q) : Sleeps v q := by
  obtain ⟨i, stops, _⟩ := fresh
  simp [Sleeps, performAtomicSemop, stops, semResult]

theorem Sleeps.fresh_perform (sleeps : Sleeps v q) : Fresh v (performAtomicSemop v q).2.2 := by
  obtain ⟨i, stops⟩ := sleeps.stops
  have inside := wouldBlock_lt stops
  have entry : (performAtomicSemop v q).2.2 = { q with blocking := i } := by
    simp [performAtomicSemop, stops, SemQueue.block]
  rw [entry]
  exact ⟨i, stops, by simp [SemQueue.blockingSop, inside]⟩

theorem Sleeps.fresh_single (sleeps : Sleeps v q) (one : q.sops = [sop]) : Fresh v q := by
  obtain ⟨i, stops⟩ := sleeps.stops
  have inside := wouldBlock_lt stops
  refine ⟨i, stops, ?_⟩
  rw [one, length_singleton] at inside
  rcases Nat.eq_zero_or_pos q.blocking with zero | pos
  · simp [SemQueue.blockingSop, one, inside, zero]
  · simp [SemQueue.blockingSop, one, inside, show ¬ q.blocking = 0 by omega]

end Linux318.Source.Ipc
