import Linux318.Source.Ipc.Sem
import Mathlib.Data.List.Count
import Mathlib.Order.Basic

/-!
# What a scan of the semaphore queues can do

Source: ipc/sem.c:730-1010. A scan only takes entries off the lists, notes where the
others block, and keeps `complex_count` in step with the lists.
-/
namespace Linux318.Source.Ipc
open List

variable {q' q : SemQueue} {l l' : List SemQueue} {k m : Option Nat} {sma sma' : SemArray}
  {sop : Sembuf}

def SemQueue.bare (q : SemQueue) : SemQueue := { q with blocking := 0 }

theorem SemQueue.sops_of_bare (same : q'.bare = q.bare) : q'.sops = q.sops := by
  have sops := congrArg SemQueue.sops same
  exact sops

theorem Sleeps.of_bare {v : SemVals} (same : q'.bare = q.bare)
    (sleeps : Sleeps v q) : Sleeps v q' := by
  have bare : Sleeps v q.bare := sleeps
  rw [← same] at bare
  exact bare

theorem SemQueue.bare_block (q : SemQueue) (stop : Option SopStop) :
    (q.block stop).bare = q.bare := by
  obtain ⟨k, h⟩ := block_eq q stop
  rw [h]
  rfl

def Shrinks (l l' : List SemQueue) : Prop := (l'.map SemQueue.bare).Sublist (l.map SemQueue.bare)

theorem Shrinks.refl (l : List SemQueue) : Shrinks l l := List.Sublist.refl _

theorem Shrinks.trans {a b c : List SemQueue} (ab : Shrinks a b) (bc : Shrinks b c) : Shrinks a c :=
    List.Sublist.trans bc ab

theorem Shrinks.mem (h : Shrinks l l') (mem : q' ∈ l') : ∃ q ∈ l, q'.sops = q.sops := by
  obtain ⟨q, hq, same⟩ := mem_map.mp (h.subset (mem_map_of_mem mem))
  exact ⟨q, hq, SemQueue.sops_of_bare same.symm⟩

theorem Shrinks.eq_nil (h : Shrinks l l') (empty : l = []) : l' = [] := by
  subst empty
  simpa [Shrinks] using h

theorem Shrinks.cons (same : q'.bare = q.bare)
    (h : Shrinks l l') : Shrinks (q :: l) (q' :: l') := by
  unfold Shrinks
  rw [map_cons, same]
  exact List.Sublist.cons_cons _ h

theorem Shrinks.cons_left (q : SemQueue) (h : Shrinks l l') : Shrinks (q :: l) l' :=
  List.Sublist.cons _ h

theorem shrinks_remove (before behind : List SemQueue) (q : SemQueue) :
    Shrinks (before ++ q :: behind) (before ++ behind) :=
  ((List.Sublist.refl before).append (sublist_cons_self q behind)).map _

theorem shrinks_replace (same : q'.bare = q.bare) (before behind : List SemQueue) :
    Shrinks (before ++ q :: behind) (before ++ q' :: behind) := by
  simp [Shrinks, same]

def complexIn (l : List SemQueue) : Int := l.countP (fun q => decide (q.nsops > 1))

@[simp] theorem complexIn_nil : complexIn [] = 0 := rfl

theorem complexIn_append (l l' : List SemQueue) :
    complexIn (l ++ l') = complexIn l + complexIn l' := by
  simp [complexIn]

theorem complexIn_cons (q : SemQueue) (l : List SemQueue) :
    complexIn (q :: l) = complexIn l + (if q.nsops > 1 then 1 else 0) := by
  unfold complexIn
  by_cases many : q.nsops > 1 <;> simp [many]

theorem complexIn_nonneg (l : List SemQueue) : 0 ≤ complexIn l := Int.natCast_nonneg _

theorem complexIn_eq_zero : complexIn l = 0 ↔ ∀ q ∈ l, ¬ q.nsops > 1 := by
  unfold complexIn
  simp

theorem complexIn_bare (same : l'.map SemQueue.bare = l.map SemQueue.bare) :
    complexIn l' = complexIn l := by
  have count (l : List SemQueue) : complexIn l = complexIn (l.map SemQueue.bare) := by
    unfold complexIn
    rw [countP_map]
    rfl
  rw [count l', count l, same]

namespace SemArray

/-- The part of the complex operations that `complex_count` does not count. -/
def uncounted (sma : SemArray) : Int :=
  complexIn sma.pendingAlter + complexIn sma.pendingConst - sma.complexCount

def FitsAlter : Option Nat → SemQueue → Prop
  | none, q => q.nsops > 1 ∨ ∃ n, IsDecrement n q
  | some n, q => IsDecrement n q

def FitsConst : Option Nat → SemQueue → Prop
  | none, q => q.nsops > 1 ∧ ∀ sop ∈ q.sops, sop.semOp = 0
  | some n, q => IsZeroWait n q

/-- The entries of the lists are of the kind that the list is for. -/
structure Entries (sma : SemArray) : Prop where
  range : sma.vals.InRange
  alter : ∀ m, ∀ q ∈ sma.alterList m, FitsAlter m q
  const : ∀ m, ∀ q ∈ sma.constList m, FitsConst m q
  alterNamed : ∀ m, ∀ q ∈ sma.alterList m, ∀ sop ∈ q.sops, sop.semNum < sma.nsems
  constNamed : ∀ m, ∀ q ∈ sma.constList m, ∀ sop ∈ q.sops, sop.semNum < sma.nsems

structure Scanned (sma sma' : SemArray) : Prop where
  nsems : sma'.nsems = sma.nsems
  removed : sma'.removed = sma.removed
  alter : ∀ m, Shrinks (sma.alterList m) (sma'.alterList m)
  const : ∀ m, Shrinks (sma.constList m) (sma'.constList m)
  count : sma'.uncounted = sma.uncounted

theorem Scanned.refl (sma : SemArray) : Scanned sma sma :=
  ⟨rfl, rfl, fun _ => .refl _, fun _ => .refl _, rfl⟩

theorem Scanned.trans {a b c : SemArray} (ab : Scanned a b) (bc : Scanned b c) : Scanned a c :=
  ⟨bc.nsems.trans ab.nsems, bc.removed.trans ab.removed,
    fun m => (ab.alter m).trans (bc.alter m), fun m => (ab.const m).trans (bc.const m),
    bc.count.trans ab.count⟩

theorem FitsAlter.congr (same : q'.sops = q.sops) (h : FitsAlter m q) : FitsAlter m q' := by
  cases m <;> simpa only [FitsAlter, SemQueue.nsops, IsDecrement, same] using h

theorem FitsConst.congr (same : q'.sops = q.sops) (h : FitsConst m q) : FitsConst m q' := by
  cases m <;> simpa only [FitsConst, SemQueue.nsops, IsZeroWait, same] using h

theorem Scanned.entries (scan : Scanned sma sma') (ok : sma.Entries) (range : sma'.vals.InRange) :
    sma'.Entries where
  range := range
  alter := by
    intro m q' mem
    obtain ⟨q, hq, same⟩ := (scan.alter m).mem mem
    exact (ok.alter m q hq).congr same
  const := by
    intro m q' mem
    obtain ⟨q, hq, same⟩ := (scan.const m).mem mem
    exact (ok.const m q hq).congr same
  alterNamed := by
    intro m q' mem
    obtain ⟨q, hq, same⟩ := (scan.alter m).mem mem
    rw [scan.nsems, same]
    exact ok.alterNamed m q hq
  constNamed := by
    intro m q' mem
    obtain ⟨q, hq, same⟩ := (scan.const m).mem mem
    rw [scan.nsems, same]
    exact ok.constNamed m q hq

theorem Entries.semAlter (ok : sma.Entries) (n : Nat) : ∀ q ∈ sma.semAlter n, IsDecrement n q :=
  ok.alter (some n)

theorem Entries.semConst (ok : sma.Entries) (n : Nat) : ∀ q ∈ sma.semConst n, IsZeroWait n q :=
  ok.const (some n)

theorem Entries.pendingAlter (ok : sma.Entries) :
    ∀ q ∈ sma.pendingAlter, q.nsops > 1 ∨ ∃ n, IsDecrement n q :=
  ok.alter none

theorem Entries.pendingConst (ok : sma.Entries) :
    ∀ q ∈ sma.pendingConst, q.nsops > 1 ∧ ∀ sop ∈ q.sops, sop.semOp = 0 :=
  ok.const none

section
variable (sma l)

@[simp] theorem alterList_setAlter_self (m : Option Nat) : (sma.setAlter l m).alterList m = l := by
  cases m <;> simp [setAlter, alterList]

theorem alterList_setAlter_of_ne (ne : k ≠ m) : (sma.setAlter l m).alterList k = sma.alterList k := by
  cases m <;> cases k <;> simp_all [setAlter, alterList]

@[simp] theorem constList_setConst_self (m : Option Nat) : (sma.setConst l m).constList m = l := by
  cases m <;> simp [setConst, constList]

theorem constList_setConst_of_ne (ne : k ≠ m) : (sma.setConst l m).constList k = sma.constList k := by
  cases m <;> cases k <;> simp_all [setConst, constList]

@[simp] theorem constList_setAlter (m k : Option Nat) :
    (sma.setAlter l m).constList k = sma.constList k := by
  cases m <;> cases k <;> rfl

@[simp] theorem alterList_setConst (m k : Option Nat) :
    (sma.setConst l m).alterList k = sma.alterList k := by
  cases m <;> cases k <;> rfl

end

section
variable (sma l m)

@[simp] theorem vals_setAlter : (sma.setAlter l m).vals = sma.vals := by cases m <;> rfl

@[simp] theorem vals_setConst : (sma.setConst l m).vals = sma.vals := by cases m <;> rfl

@[simp] theorem nsems_setAlter : (sma.setAlter l m).nsems = sma.nsems := by cases m <;> rfl

@[simp] theorem nsems_setConst : (sma.setConst l m).nsems = sma.nsems := by cases m <;> rfl

@[simp] theorem removed_setAlter : (sma.setAlter l m).removed = sma.removed := by cases m <;> rfl

@[simp] theorem removed_setConst : (sma.setConst l m).removed = sma.removed := by cases m <;> rfl

@[simp] theorem complexCount_setAlter : (sma.setAlter l m).complexCount =
    sma.complexCount := by cases m <;> rfl

@[simp] theorem complexCount_setConst : (sma.setConst l m).complexCount =
    sma.complexCount := by cases m <;> rfl

end

/-- `uncounted` in terms of the lists. -/
theorem uncounted_eq (sma : SemArray) : sma.uncounted =
    complexIn (sma.alterList none) + complexIn (sma.constList none) - sma.complexCount := rfl

/-- The array with other values, count and tasks: only the lists stay. -/
def withRest (sma : SemArray) (vals : SemVals) (sempid : Nat → Int) (complexCount : Int)
    (tasks : List (Nat × SemResult)) : SemArray :=
  { sma with vals, sempid, complexCount, tasks }

section WithRest
variable (sma : SemArray) (vals : SemVals) (sempid : Nat → Int) (complexCount : Int)
  (tasks : List (Nat × SemResult))

@[simp] theorem alterList_withRest (m : Option Nat) :
    (sma.withRest vals sempid complexCount tasks).alterList m = sma.alterList m := by
  cases m <;> rfl

@[simp] theorem constList_withRest (m : Option Nat) :
    (sma.withRest vals sempid complexCount tasks).constList m = sma.constList m := by
  cases m <;> rfl

@[simp] theorem vals_withRest : (sma.withRest vals sempid complexCount tasks).vals = vals := rfl

@[simp] theorem nsems_withRest : (sma.withRest vals sempid complexCount tasks).nsems = sma.nsems := rfl

@[simp] theorem removed_withRest :
    (sma.withRest vals sempid complexCount tasks).removed = sma.removed := rfl

@[simp] theorem complexCount_withRest :
    (sma.withRest vals sempid complexCount tasks).complexCount = complexCount := rfl

end WithRest

theorem perform_eq (sma : SemArray) (q : SemQueue) : ∃ sempid, (sma.perform q).2.1 =
      sma.withRest (performAtomicSemop sma.vals q).2.1 sempid sma.complexCount sma.tasks :=
  ⟨_, rfl⟩

theorem uncount_eq (sma : SemArray) (q : SemQueue) : sma.uncount q =
    sma.withRest sma.vals sma.sempid (sma.complexCount - if q.nsops > 1 then 1 else 0)
      sma.tasks := by
  unfold uncount
  split <;> simp [withRest]

theorem perform_bare (sma : SemArray) (q : SemQueue) : (sma.perform q).2.2.bare = q.bare :=
  SemQueue.bare_block q _

def AsleepIn (v : SemVals) (l : List SemQueue) : Prop := ∀ q ∈ l, Sleeps v q

def FreshIn (v : SemVals) (l : List SemQueue) : Prop := ∀ q ∈ l, Fresh v q

theorem wakeConstWalk_spec (range : sma.vals.InRange)
    (zero : ∀ q ∈ l, ∀ sop ∈ q.sops, sop.semOp = 0) :
    (∃ sempid tasks, (wakeConstWalk sma l).1 = sma.withRest sma.vals sempid
      (sma.complexCount - (complexIn l - complexIn (wakeConstWalk sma l).2)) tasks) ∧
    Shrinks l (wakeConstWalk sma l).2 ∧ AsleepIn sma.vals (wakeConstWalk sma l).2 := by
  induction l generalizing sma with
  | nil =>
    refine ⟨⟨sma.sempid, sma.tasks, ?_⟩, .refl _, ?_⟩
    · simp [wakeConstWalk, withRest]
    · simp [wakeConstWalk, AsleepIn]
  | cons q rest ih =>
    obtain ⟨sempid, same⟩ := perform_eq sma q
    rw [(perform_zero range (zero q mem_cons_self)).1] at same
    have zero' : ∀ q ∈ rest, ∀ sop ∈ q.sops, sop.semOp = 0 :=
      fun q mem => zero q (mem_cons_of_mem _ mem)
    rw [wakeConstWalk]
    rw [same]
    split
    next sleeps =>
      obtain ⟨⟨pids, tasks, eq⟩, shrinks, asleep⟩ :=
        @ih (sma.withRest sma.vals sempid sma.complexCount sma.tasks) range zero'
      refine ⟨⟨pids, tasks, ?_⟩, ?_, ?_⟩
      · rw [eq, complexIn_cons, complexIn_cons]
        have many : (sma.perform q).2.2.nsops = q.nsops :=
          congrArg List.length (SemQueue.sops_of_bare (perform_bare sma q))
        simp only [withRest]
        congr 1
        omega
      · exact shrinks.cons (perform_bare sma q)
      · intro q' mem
        rcases mem_cons.mp mem with rfl | mem
        · exact Sleeps.of_bare (perform_bare sma q) sleeps
        · exact asleep q' mem
    next awake =>
      rw [uncount_eq]
      obtain ⟨⟨pids, tasks, eq⟩, shrinks, asleep⟩ :=
        @ih (((sma.withRest sma.vals sempid sma.complexCount sma.tasks).withRest
          sma.vals sempid (sma.complexCount - if q.nsops > 1 then 1 else 0)
          sma.tasks).wakeUpSemQueuePrepare q (sma.perform q).1) range zero'
      refine ⟨⟨pids, tasks, ?_⟩, ?_, asleep⟩
      · refine eq.trans ?_
        rw [complexIn_cons]
        simp only [withRest, wakeUpSemQueuePrepare]
        congr 1
        omega
      · exact shrinks.cons_left q

/-- The effect of a scan of wait-for-zero lists: values and other lists stay, and lists
whose entries sleep keep this. -/
structure ConstScanned (sma sma' : SemArray) : Prop extends Scanned sma sma' where
  vals : sma'.vals = sma.vals
  sameAlter : ∀ m, sma'.alterList m = sma.alterList m
  asleep : ∀ m, AsleepIn sma.vals (sma.constList m) → AsleepIn sma.vals (sma'.constList m)

theorem ConstScanned.refl (sma : SemArray) : ConstScanned sma sma :=
  ⟨.refl sma, rfl, fun _ => rfl, fun _ h => h⟩

theorem ConstScanned.trans {a b c : SemArray} (ab : ConstScanned a b)
    (bc : ConstScanned b c) : ConstScanned a c where
  toScanned := ab.toScanned.trans bc.toScanned
  vals := bc.vals.trans ab.vals
  sameAlter m := (bc.sameAlter m).trans (ab.sameAlter m)
  asleep m h := by
    have later := bc.asleep m
    rw [ab.vals] at later
    exact later (ab.asleep m h)

theorem ConstScanned.entries (scan : ConstScanned sma sma') (ok : sma.Entries) : sma'.Entries :=
  scan.toScanned.entries ok (scan.vals ▸ ok.range)

theorem Entries.zero (ok : sma.Entries) (mem : q ∈ sma.constList m) (hsop : sop ∈ q.sops) :
    sop.semOp = 0 := by
  cases m with
  | none => exact (ok.pendingConst q mem).2 sop hsop
  | some n =>
    obtain ⟨only, one, _, zero, _⟩ := ok.semConst n q mem
    rw [one, mem_singleton] at hsop
    rwa [hsop]

theorem nsops_of_single (one : q.sops = [sop]) : q.nsops = 1 := by
  rw [SemQueue.nsops, one]
  rfl

theorem Entries.simple_const (ok : sma.Entries) (n : Nat) : complexIn (sma.semConst n) = 0 := by
  rw [complexIn_eq_zero]
  intro q mem
  obtain ⟨sop, one, _⟩ := ok.semConst n q mem
  rw [nsops_of_single one]
  omega

theorem complexIn_of_shrinks (h : Shrinks l l') (zero : complexIn l = 0) : complexIn l' = 0 := by
  rw [complexIn_eq_zero] at zero ⊢
  intro q' mem
  obtain ⟨q, hq, same⟩ := h.mem mem
  have simple := zero q hq
  unfold SemQueue.nsops at simple ⊢
  rwa [same]

section
variable (ok : sma.Entries)
include ok

theorem wakeConstOps_spec (m : Option Nat) : ConstScanned sma (sma.wakeConstOps m) ∧
      AsleepIn sma.vals ((sma.wakeConstOps m).constList m) := by
  obtain ⟨⟨sempid, tasks, eq⟩, shrinks, asleep⟩ :=
    wakeConstWalk_spec ok.range fun q mem sop => ok.zero mem
  have target : sma.wakeConstOps m = (sma.withRest sma.vals sempid (sma.complexCount -
      (complexIn (sma.constList m) - complexIn (wakeConstWalk sma (sma.constList m)).2))
      tasks).setConst (wakeConstWalk sma (sma.constList m)).2 m := by
    rw [wakeConstOps, eq]
  generalize (wakeConstWalk sma (sma.constList m)).2 = kept at *
  rw [target]
  have others (k : Option Nat) (ne : k ≠ m) : ((sma.withRest sma.vals sempid
      (sma.complexCount - (complexIn (sma.constList m) - complexIn kept)) tasks).setConst
      kept m).constList k = sma.constList k := by
    rw [constList_setConst_of_ne _ _ ne, constList_withRest]
  refine ⟨⟨⟨by simp, by simp, fun k => ?_, fun k => ?_, ?_⟩, by simp,
    fun k => by simp, fun k before => ?_⟩, by simpa using asleep⟩
  · simpa using Shrinks.refl _
  · by_cases same : k = m
    · subst same
      simpa using shrinks
    · rw [others k same]
      exact .refl _
  · rw [uncounted_eq, uncounted_eq]
    cases m with
    | none =>
      simp only [alterList_setConst, alterList_withRest, constList_setConst_self,
        complexCount_setConst, complexCount_withRest]
      omega
    | some n =>
      have before : complexIn (sma.constList (some n)) = 0 := ok.simple_const n
      have after := complexIn_of_shrinks shrinks before
      rw [others none (by simp)]
      simp only [before, after]
      simp
  · by_cases same : k = m
    · subst same
      simpa using asleep
    · rwa [others k same]

theorem wakeZeroLoop_spec (gotZero : Bool) (nums : List Nat) :
    ConstScanned sma (wakeZeroLoop sma gotZero nums).1 ∧
    (∀ n ∈ nums, sma.vals.semval n = 0 →
      AsleepIn sma.vals ((wakeZeroLoop sma gotZero nums).1.semConst n)) ∧
    (wakeZeroLoop sma gotZero nums).2 = (gotZero || nums.any (sma.vals.semval · = 0)) := by
  induction nums generalizing sma gotZero with
  | nil => exact ⟨.refl sma, by simp, by simp [wakeZeroLoop]⟩
  | cons num rest ih =>
    rw [wakeZeroLoop]
    split
    next zero =>
      obtain ⟨scan, slept⟩ := wakeConstOps_spec ok (some num)
      obtain ⟨scan', slept', flag⟩ := ih (scan.entries ok) true
      rw [scan.vals] at slept' flag
      refine ⟨scan.trans scan', fun n mem hn => ?_, by simp [flag, zero]⟩
      rcases mem_cons.mp mem with rfl | mem
      · have asleep := scan'.asleep (some n)
        rw [scan.vals] at asleep
        exact asleep slept
      · exact slept' n mem hn
    next nonzero =>
      obtain ⟨scan, slept, flag⟩ := ih ok gotZero
      refine ⟨scan, fun n mem hn => ?_, by simp [flag, nonzero]⟩
      rcases mem_cons.mp mem with rfl | mem
      · exact absurd hn nonzero
      · exact slept n mem hn

/-- After the scan the lists of the semaphores at zero are asleep, and if there is one
among the modified semaphores, the global list is. -/
theorem doSmartWakeupZero_spec (sops : Option (List Sembuf)) :
    ConstScanned sma (sma.doSmartWakeupZero sops) ∧
    ∀ n ∈ sma.modified sops, sma.vals.semval n = 0 →
      AsleepIn sma.vals ((sma.doSmartWakeupZero sops).semConst n) ∧
      AsleepIn sma.vals (sma.doSmartWakeupZero sops).pendingConst := by
  obtain ⟨scan, slept, flag⟩ := wakeZeroLoop_spec ok false (sma.modified sops)
  rw [doSmartWakeupZero]
  split
  next got =>
    obtain ⟨scan', slept'⟩ := wakeConstOps_spec (scan.entries ok) none
    refine ⟨scan.trans scan', fun n mem zero => ⟨?_, scan.vals ▸ slept'⟩⟩
    have asleep := scan'.asleep (some n)
    rw [scan.vals] at asleep
    exact asleep (slept n mem zero)
  next got =>
    refine ⟨scan, fun n mem zero => ?_⟩
    rw [flag] at got
    simp only [Bool.false_or, any_eq_true, decide_eq_true_eq, not_exists, not_and] at got
    exact absurd zero (got n mem)

theorem Entries.nsops_alter {n : Nat} (mem : q ∈ sma.semAlter n) : q.nsops = 1 := by
  obtain ⟨sop, one, _⟩ := ok.semAlter n q mem
  exact nsops_of_single one

theorem Entries.simple_alter (n : Nat) : complexIn (sma.semAlter n) = 0 :=
  complexIn_eq_zero.mpr fun q mem => by rw [ok.nsops_alter mem]; omega

end

/-- One of the lists shrinks, and the count goes down by the complex entries it loses. -/
theorem shrinks_of_set {f g : Option Nat → List SemQueue} (simple : ∀ n, complexIn (f (some n)) = 0)
    (others : ∀ k, k ≠ m → g k = f k) (shrinks : Shrinks (f m) (g m)) {old new : Int}
    (count : complexIn (f m) - complexIn (g m) = old - new) :
    (∀ k, Shrinks (f k) (g k)) ∧ complexIn (g none) - new = complexIn (f none) - old := by
  refine ⟨fun k => ?_, ?_⟩
  · by_cases same : k = m
    · exact same ▸ shrinks
    · rw [others k same]
      exact .refl _
  cases m with
  | none => omega
  | some n =>
    have zero := complexIn_of_shrinks shrinks (simple n)
    rw [others none (by simp)]
    rw [simple n] at count
    omega

section SetList
variable {sma : SemArray} (ok : sma.Entries) {m : Option Nat} {l : List SemQueue} {c : Int}
  (vals : SemVals) (sempid : Nat → Int) (tasks : List (Nat × SemResult))
include ok

theorem setAlter_scanned (shrinks : Shrinks (sma.alterList m) l)
    (count : complexIn (sma.alterList m) - complexIn l = sma.complexCount - c) :
    Scanned sma ((sma.withRest vals sempid c tasks).setAlter l m) := by
  obtain ⟨lists, counts⟩ := shrinks_of_set
    (g := ((sma.withRest vals sempid c tasks).setAlter l m).alterList) ok.simple_alter
    (fun k other => by rw [alterList_setAlter_of_ne _ _ other, alterList_withRest])
    (by simpa using shrinks) (by simpa using count)
  refine ⟨by simp, by simp, lists, fun k => by simpa using Shrinks.refl _, ?_⟩
  simp only [uncounted_eq, constList_setAlter, constList_withRest, complexCount_setAlter,
    complexCount_withRest]
  omega

theorem setConst_scanned (shrinks : Shrinks (sma.constList m) l)
    (count : complexIn (sma.constList m) - complexIn l = sma.complexCount - c) :
    Scanned sma ((sma.withRest vals sempid c tasks).setConst l m) := by
  obtain ⟨lists, counts⟩ := shrinks_of_set
    (g := ((sma.withRest vals sempid c tasks).setConst l m).constList) ok.simple_const
    (fun k other => by rw [constList_setConst_of_ne _ _ other, constList_withRest])
    (by simpa using shrinks) (by simpa using count)
  refine ⟨by simp, by simp, fun k => by simpa using Shrinks.refl _, lists, ?_⟩
  simp only [uncounted_eq, alterList_setConst, alterList_withRest, complexCount_setConst,
    complexCount_withRest]
  omega

variable {before behind : List SemQueue} {q : SemQueue}

/-- An entry is taken off its list, whatever happens to the values. -/
theorem unlinkAlter_scanned (list : sma.alterList m = before ++ q :: behind) :
    Scanned sma ((sma.withRest vals sempid sma.complexCount sma.tasks).unlinkAlter
      before q behind m) := by
  rw [unlinkAlter, uncount_eq]
  refine setAlter_scanned ok vals sempid sma.tasks (list ▸ shrinks_remove before behind q) ?_
  simp only [list, complexIn_append, complexIn_cons, complexCount_withRest]
  omega

theorem unlinkConst_scanned (list : sma.constList m = before ++ q :: behind) :
    Scanned sma ((sma.uncount q).setConst (before ++ behind) m) := by
  rw [uncount_eq]
  refine setConst_scanned ok sma.vals sma.sempid sma.tasks
    (list ▸ shrinks_remove before behind q) ?_
  simp only [list, complexIn_append, complexIn_cons]
  omega

end SetList

theorem scanned_wakeUp (sma : SemArray) (q : SemQueue) (error : SemResult) :
    Scanned sma (sma.wakeUpSemQueuePrepare q error) :=
  ⟨rfl, rfl, fun m => by cases m <;> exact .refl _, fun m => by cases m <;> exact .refl _, rfl⟩

theorem perform_of_ne_done (ne : (sma.perform q).1 ≠ .done) : (sma.perform q).2.1 = sma := by
  have kept : (performAtomicSemop sma.vals q).2.1 = sma.vals := perform_vals_of_ne_done ne
  unfold perform at ne ⊢
  dsimp only at ne ⊢
  rw [kept, if_neg ne]

section
variable (sma) (before : List SemQueue) (q : SemQueue) (behind : List SemQueue)

theorem alterList_unlinkAlter (m : Option Nat) :
    (sma.unlinkAlter before q behind m).alterList m = before ++ behind :=
  alterList_setAlter_self _ _ _

@[simp] theorem vals_unlinkAlter (m : Option Nat) :
    (sma.unlinkAlter before q behind m).vals = sma.vals := by
  rw [unlinkAlter, vals_setAlter, uncount_eq, vals_withRest]

@[simp] theorem alterList_wakeUp (error : SemResult) (m : Option Nat) :
    (sma.wakeUpSemQueuePrepare q error).alterList m = sma.alterList m := by
  cases m <;> rfl

@[simp] theorem constList_wakeUp (error : SemResult) (m : Option Nat) :
    (sma.wakeUpSemQueuePrepare q error).constList m = sma.constList m := by
  cases m <;> rfl

@[simp] theorem vals_wakeUp (error : SemResult) :
    (sma.wakeUpSemQueuePrepare q error).vals = sma.vals := rfl

@[simp] theorem constList_unlinkAlter (m k : Option Nat) :
    (sma.unlinkAlter before q behind m).constList k = sma.constList k := by
  rw [unlinkAlter, constList_setAlter, uncount_eq, constList_withRest]

theorem alterList_unlinkAlter_of_ne (ne : k ≠ m) :
    (sma.unlinkAlter before q behind m).alterList k = sma.alterList k := by
  rw [unlinkAlter, alterList_setAlter_of_ne _ _ ne, uncount_eq, alterList_withRest]

end

theorem perform_done (done : (sma.perform q).1 = .done) :
    (sma.perform q).2.1 = sma.withRest (performAtomicSemop sma.vals q).2.1
      (setPids q.sops q.pid sma.sempid) sma.complexCount sma.tasks := by
  unfold perform at done ⊢
  dsimp only at done ⊢
  rw [if_pos done]
  rfl

/-- The array when a walk over the list `m` has gone past an entry. -/
structure WentPast (m : Option Nat) (l : List SemQueue) (sma next : SemArray) : Prop where
  scan : Scanned sma next
  entries : next.Entries
  list : next.alterList m = l
  others : ∀ k, k ≠ m → next.alterList k = sma.alterList k

/-- The array after the operation of an entry went through and the waits for zero were
looked at. -/
def completed (sma : SemArray) (passed : List SemQueue) (q : SemQueue) (rest : List SemQueue)
    (m : Option Nat) (sempid : Nat → Int) : SemArray :=
  ((((sma.withRest (performAtomicSemop sma.vals q).2.1 sempid sma.complexCount
    sma.tasks).unlinkAlter passed q rest m).doSmartWakeupZero
    (some q.sops)).wakeUpSemQueuePrepare q .done)

inductive WalkStep (m : Option Nat) (sma : SemArray) (passed : List SemQueue) (q : SemQueue)
    (rest : List SemQueue) (out : SemArray × Bool) : Prop where
  | stop (noneLeft : sma.noneLeft m = true) (eq : out = (sma, false))
  | sleep (q' : SemQueue) (next : SemArray) (fresh : Fresh sma.vals q')
      (past : WentPast m (passed ++ q' :: rest) sma next)
      (vals : next.vals = sma.vals) (const : ∀ k, next.constList k = sma.constList k)
      (eq : out = updateWalk m next (passed ++ [q']) rest)
  | fail (next : SemArray) (past : WentPast m (passed ++ rest) sma next)
      (vals : next.vals = sma.vals) (const : ∀ k, next.constList k = sma.constList k)
      (eq : out = updateWalk m next passed rest)
  | done (sempid : Nat → Int) (next : SemArray)
      (completed : next = sma.completed passed q rest m sempid)
      (past : WentPast m (passed ++ rest) sma next)
      (vals : next.vals = (performAtomicSemop sma.vals q).2.1)
      (eq : out = if next.checkRestart q then (next, true) else updateWalk m next passed rest)

section WentPast
variable {sma : SemArray} (ok : sma.Entries) {m : Option Nat} {passed rest : List SemQueue}
  {q : SemQueue} (list : sma.alterList m = passed ++ q :: rest)
include ok list

/-- An entry stays on its list and notes where it blocks. -/
theorem noted_scanned (same : q'.bare = q.bare) :
    Scanned sma (sma.setAlter (passed ++ q' :: rest) m) := by
  refine setAlter_scanned ok sma.vals sma.sempid sma.tasks
    (list ▸ shrinks_replace same passed rest) ?_
  have bare : (passed ++ q' :: rest).map SemQueue.bare = (passed ++ q :: rest).map SemQueue.bare := by
    simp [same]
  rw [list, complexIn_bare bare]
  omega

theorem setAlter_wentPast (same : q'.bare = q.bare) :
    WentPast m (passed ++ q' :: rest) sma (sma.setAlter (passed ++ q' :: rest) m) where
  scan := noted_scanned ok list same
  entries := (noted_scanned ok list same).entries ok (by simpa using ok.range)
  list := alterList_setAlter_self _ _ _
  others _ ne := alterList_setAlter_of_ne _ _ ne

theorem unlinkAlter_wentPast (error : SemResult) : WentPast m (passed ++ rest) sma
    ((sma.unlinkAlter passed q rest m).wakeUpSemQueuePrepare q error) := by
  have scan := (unlinkAlter_scanned ok sma.vals sma.sempid list).trans (scanned_wakeUp _ q error)
  refine ⟨scan, scan.entries ok (by simpa using ok.range), ?_, fun k ne => ?_⟩
  · rw [alterList_wakeUp, alterList_unlinkAlter]
  · rw [alterList_wakeUp, alterList_unlinkAlter_of_ne _ _ _ _ ne]

theorem completed_wentPast (sempid : Nat → Int) :
    WentPast m (passed ++ rest) sma (sma.completed passed q rest m sempid) ∧
    (sma.completed passed q rest m sempid).vals = (performAtomicSemop sma.vals q).2.1 := by
  have unlink := unlinkAlter_scanned ok (performAtomicSemop sma.vals q).2.1 sempid list
  have unlinkOk := unlink.entries ok (by simpa using perform_inRange ok.range)
  have zero := (doSmartWakeupZero_spec unlinkOk (some q.sops)).1
  have vals : (sma.completed passed q rest m sempid).vals =
      (performAtomicSemop sma.vals q).2.1 := by
    rw [completed, vals_wakeUp, zero.vals, vals_unlinkAlter, vals_withRest]
  have scan := (unlink.trans zero.toScanned).trans (scanned_wakeUp _ q .done)
  refine ⟨⟨scan, scan.entries ok ?_, ?_, fun k ne => ?_⟩, vals⟩
  · exact vals.symm ▸ perform_inRange ok.range
  · rw [completed, alterList_wakeUp, zero.sameAlter, alterList_unlinkAlter]
  · rw [completed, alterList_wakeUp, zero.sameAlter, alterList_unlinkAlter_of_ne _ _ _ _ ne,
      alterList_withRest]

theorem updateWalk_step : WalkStep m sma passed q rest (updateWalk m sma passed (q :: rest)) := by
  rw [updateWalk]
  split
  next none => exact .stop none rfl
  dsimp only
  split
  next sleeps =>
    rw [perform_of_ne_done (by rw [sleeps]; decide)]
    exact .sleep _ _ (Sleeps.fresh_perform sleeps) (setAlter_wentPast ok list (perform_bare sma q))
      (by simp) (by simp) rfl
  next =>
    split
    next done =>
      obtain ⟨past, vals⟩ := completed_wentPast ok list (setPids q.sops q.pid sma.sempid)
      rw [perform_done done, done]
      exact .done _ _ rfl past vals rfl
    next failed =>
      rw [perform_of_ne_done failed]
      exact .fail _ (unlinkAlter_wentPast ok list _) (by simp) (by simp) rfl

end WentPast

/-- A walk scans, keeps the values in range, and removes an entry before it restarts. -/
theorem updateWalk_scanned {passed rest : List SemQueue}
    (ok : sma.Entries) (list : sma.alterList m = passed ++ rest) :
    Scanned sma (updateWalk m sma passed rest).1 ∧
    (updateWalk m sma passed rest).1.vals.InRange ∧
    ((updateWalk m sma passed rest).2 = true →
      ((updateWalk m sma passed rest).1.alterList m).length < (passed ++ rest).length) := by
  induction rest generalizing sma passed with
  | nil => exact ⟨.refl sma, ok.range, fun h => by cases h⟩
  | cons q rest ih =>
    cases updateWalk_step ok list with
    | stop none eq =>
      rw [eq]
      exact ⟨.refl sma, ok.range, fun h => by cases h⟩
    | sleep q' next _ past vals const eq =>
      rw [eq]
      obtain ⟨later, range, shorter⟩ := @ih next (passed ++ [q']) past.entries
        (by rw [past.list]; simp)
      exact ⟨past.scan.trans later, range, fun h => by simpa using shorter h⟩
    | fail next past vals const eq =>
      rw [eq]
      obtain ⟨later, range, shorter⟩ := ih past.entries past.list
      refine ⟨past.scan.trans later, range, fun h => Nat.lt_trans (shorter h) ?_⟩
      simp
    | done sempid next completed past vals eq =>
      rw [eq]
      split
      · refine ⟨past.scan, past.entries.range, fun _ => ?_⟩
        rw [past.list]
        simp
      · obtain ⟨later, range, shorter⟩ := ih past.entries past.list
        refine ⟨past.scan.trans later, range, fun h => Nat.lt_trans (shorter h) ?_⟩
        simp

theorem walk_scanned (ok : sma.Entries) (m : Option Nat) :
    Scanned sma (updateWalk m sma [] (sma.alterList m)).1 ∧
    (updateWalk m sma [] (sma.alterList m)).1.vals.InRange ∧
    ((updateWalk m sma [] (sma.alterList m)).2 = true →
      ((updateWalk m sma [] (sma.alterList m)).1.alterList m).length < (sma.alterList m).length) :=
  updateWalk_scanned ok rfl

section
variable {P : SemArray → Prop}
  (keeps : ∀ sma, sma.Entries → P sma → (updateWalk m sma [] (sma.alterList m)).2 = true →
    P (updateWalk m sma [] (sma.alterList m)).1)
include keeps

/-- With enough rounds the scan ends in a walk that does not restart. `P` is any property
that the walks which restart preserve. -/
theorem updateRounds_last {fuel : Nat} (ok : sma.Entries) (before : P sma)
    (enough : (sma.alterList m).length < fuel) : ∃ last, last.Entries ∧ Scanned sma last ∧ P last ∧
      updateWalk m last [] (last.alterList m) = (updateRounds m fuel sma, false) := by
  induction fuel generalizing sma with
  | zero => omega
  | succ fuel ih =>
    obtain ⟨scan, range, shorter⟩ := walk_scanned ok m
    rw [updateRounds]
    split
    next again =>
      have fewer := shorter again
      obtain ⟨last, okLast, scanLast, pLast, eq⟩ :=
        ih (scan.entries ok range) (keeps sma ok before again) (by omega)
      exact ⟨last, okLast, scan.trans scanLast, pLast, eq⟩
    next once =>
      exact ⟨sma, ok, .refl sma, before, by simp [Prod.ext_iff, once]⟩

theorem updateQueue_last (ok : sma.Entries) (before : P sma) :
    ∃ last, last.Entries ∧ Scanned sma last ∧ P last ∧
      updateWalk m last [] (last.alterList m) = (sma.updateQueue m, false) :=
  updateRounds_last keeps ok before (Nat.lt_succ_self _)

end

theorem updateQueue_scanned (ok : sma.Entries) (m : Option Nat) :
    Scanned sma (sma.updateQueue m) ∧ (sma.updateQueue m).Entries := by
  obtain ⟨last, okLast, scan, _, eq⟩ :=
    updateQueue_last (P := fun _ => True) (fun _ _ _ _ => trivial) ok trivial
  obtain ⟨scan', range, _⟩ := walk_scanned okLast m
  rw [eq] at scan' range
  have all := scan.trans scan'
  exact ⟨all, all.entries ok range⟩

theorem updateQueues_scanned (ok : sma.Entries) (nums : List Nat) :
    Scanned sma (nums.foldl (fun sma n => sma.updateQueue (some n)) sma) ∧
      (nums.foldl (fun sma n => sma.updateQueue (some n)) sma).Entries := by
  induction nums generalizing sma with
  | nil => exact ⟨.refl sma, ok⟩
  | cons n rest ih =>
    obtain ⟨scan, ok'⟩ := updateQueue_scanned ok (some n)
    obtain ⟨later, okLater⟩ := ih ok'
    exact ⟨scan.trans later, okLater⟩

theorem doSmartUpdate_scanned (ok : sma.Entries) (sops : Option (List Sembuf)) :
    Scanned sma (sma.doSmartUpdate sops) ∧ (sma.doSmartUpdate sops).Entries := by
  obtain ⟨scan, _⟩ := doSmartWakeupZero_spec ok sops
  have ok' := scan.entries ok
  rw [doSmartUpdate]
  split
  · obtain ⟨later, okLater⟩ := updateQueue_scanned ok' none
    exact ⟨scan.toScanned.trans later, okLater⟩
  · obtain ⟨later, okLater⟩ := updateQueues_scanned ok' ((sma.doSmartWakeupZero sops).increased sops)
    exact ⟨scan.toScanned.trans later, okLater⟩

end SemArray

end Linux318.Source.Ipc
