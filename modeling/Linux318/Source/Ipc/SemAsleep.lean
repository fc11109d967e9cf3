import Linux318.Source.Ipc.SemPlacement
import Mathlib.Data.List.Pairwise

/-!
# Which scans find every operation that need not sleep

Source: ipc/sem.c:662-668,747-1080. After a change of the values the scans are enough for the
altering operations in both modes, and for single waits for zero. A complex wait for zero
is looked at when a changed semaphore is zero; this is enough unless `IPC_NOWAIT` stands
before an operation that waits. The counts of `count_semcnt` read `q->blocking`, which
the walk over the global list of altering operations writes again after every change.
-/
namespace Linux318.Source.Ipc
open List

variable {v : SemVals} {q : SemQueue} {sops : List Sembuf}

/-- The operations on semaphores that no earlier one names. -/
def firstUses : List Nat → List Sembuf → List Sembuf
  | _, [] => []
  | seen, sop :: rest =>
    if sop.semNum ∈ seen then firstUses seen rest
    else sop :: firstUses (sop.semNum :: seen) rest

/-- Among the first uses of semaphores none that waits stands behind an `IPC_NOWAIT`. -/
def NowaitLast (sops : List Sembuf) : Prop :=
  (firstUses [] sops).Pairwise fun a b => a.nowait = true → b.nowait = true

instance (sops : List Sembuf) : Decidable (NowaitLast sops) :=
  inferInstanceAs (Decidable (List.Pairwise _ _))

theorem find?_firstUses (p : Nat → Bool) {seen : List Nat} (no : ∀ n ∈ seen, p n = false)
    (sops : List Sembuf) : (firstUses seen sops).find? (fun sop => p sop.semNum) =
      sops.find? (fun sop => p sop.semNum) := by
  induction sops generalizing seen with
  | nil => rfl
  | cons sop rest ih =>
    rw [firstUses]
    split
    next used => rw [ih no, List.find?_cons_of_neg (by simp [no _ used])]
    next fresh =>
      cases h : p sop.semNum
      · rw [List.find?_cons_of_neg (by simp [h]), List.find?_cons_of_neg (by simp [h])]
        refine ih fun n mem => ?_
        rcases mem_cons.mp mem with rfl | mem
        · exact h
        · exact no n mem
      · simp [h]

theorem zeroResult_eq_sleep : zeroResult v sops = .sleep ↔
      ∃ sop, (firstUses [] sops).find? (fun sop => decide (v.semval sop.semNum ≠ 0)) = some sop ∧
        sop.nowait = false := by
  rw [find?_firstUses (fun n => decide (v.semval n ≠ 0)) (by simp), zeroResult]
  cases sops.find? (fun sop => decide (v.semval sop.semNum ≠ 0)) with
  | none => simp
  | some sop => cases h : sop.nowait <;> simp

/-- Such an operation sleeps on while no semaphore becomes zero. -/
theorem NowaitLast.sleep_mono {w : SemVals} (last : NowaitLast sops)
    (nonzero : ∀ n, v.semval n ≠ 0 → w.semval n ≠ 0) (sleep : zeroResult v sops = .sleep) :
    zeroResult w sops = .sleep := by
  rw [zeroResult_eq_sleep] at sleep ⊢
  obtain ⟨a, found, waits⟩ := sleep
  have blocks : decide (w.semval a.semNum ≠ 0) = true := by
    have := List.find?_some found
    simp only [decide_eq_true_eq] at this ⊢
    exact nonzero _ this
  have mem := mem_of_find?_eq_some found
  cases found' : (firstUses [] sops).find? (fun sop => decide (w.semval sop.semNum ≠ 0)) with
  | none => exact absurd blocks (List.find?_eq_none.mp found' a mem)
  | some b =>
    refine ⟨b, rfl, ?_⟩
    obtain ⟨_, before, behind, split, free⟩ := List.find?_eq_some_iff_append.mp found'
    unfold NowaitLast at last
    rw [split] at last mem
    rcases mem_append.mp mem with earlier | later
    · have := free a earlier
      simp only [blocks] at this
      cases this
    rcases mem_cons.mp later with rfl | later
    · exact waits
    have order := (pairwise_cons.mp (pairwise_append.mp last).2.1).1 a later
    rw [waits] at order
    simpa using order

namespace SemArray

theorem Shrinks.asleep {l l' : List SemQueue} (h : Shrinks l l')
    (asleep : AsleepIn v l) : AsleepIn v l' := by
  intro q' mem
  obtain ⟨q, hq, same⟩ := mem_map.mp (List.Sublist.subset h (mem_map_of_mem mem))
  exact (asleep q hq).of_bare same.symm

structure ConstAsleep (sma : SemArray) : Prop where
  asleep : ∀ m, AsleepIn sma.vals (sma.constList m)
  stable : ∀ q ∈ sma.pendingConst, NowaitLast q.sops

structure Asleep (sma : SemArray) : Prop extends ConstAsleep sma where
  alter : ∀ m, AsleepIn sma.vals (sma.alterList m)

theorem ConstAsleep.shrinks {sma sma' : SemArray} (h : sma.ConstAsleep)
    (const : ∀ m, Shrinks (sma.constList m) (sma'.constList m)) (vals : sma'.vals = sma.vals) :
    sma'.ConstAsleep where
  asleep m := vals ▸ Shrinks.asleep (const m) (h.asleep m)
  stable := by
    intro q' mem
    obtain ⟨q, hq, same⟩ := (const none).mem mem
    rw [same]
    exact h.stable q hq

theorem ConstAsleep.congr {sma sma' : SemArray} (h : sma.ConstAsleep)
    (const : ∀ m, sma'.constList m = sma.constList m) (vals : sma'.vals = sma.vals) :
    sma'.ConstAsleep :=
  h.shrinks (fun m => by rw [const m]; exact .refl _) vals

section
variable {sma : SemArray}

theorem Entries.sleeps_pendingConst (ok : sma.Entries) (range : v.InRange)
    (mem : q ∈ sma.pendingConst) : Sleeps v q ↔ zeroResult v q.sops = .sleep := by
  unfold Sleeps
  rw [(perform_zero range (ok.pendingConst q mem).2).2]

/-- The scan of `do_smart_wakeup_zero` after the values changed from `v`. -/
theorem doSmartWakeupZero_asleep (ok : sma.Entries)
    (range : v.InRange) (before : ∀ m, AsleepIn v (sma.constList m))
    (stable : ∀ q ∈ sma.pendingConst, NowaitLast q.sops) (sops : Option (List Sembuf))
    (same : ∀ n, n ∉ sma.modified sops → sma.vals.semval n = v.semval n) :
    (sma.doSmartWakeupZero sops).ConstAsleep := by
  obtain ⟨scan, zeros⟩ := doSmartWakeupZero_spec ok sops
  have ok' := scan.entries ok
  refine ⟨fun m q' mem => ?_, fun q' mem => ?_⟩
  · rw [scan.vals]
    cases m with
    | some n =>
      obtain ⟨q, hq, sameSops⟩ := (scan.const (some n)).mem mem
      have wait := ok.semConst n q hq
      have wait' := ok'.semConst n q' mem
      have old := wait.sleeps_iff.mp (before (some n) q hq)
      by_cases changed : n ∈ sma.modified sops
      · by_cases zero : sma.vals.semval n = 0
        · exact (zeros n changed zero).1 q' mem
        · exact wait'.sleeps_iff.mpr zero
      · rw [wait'.sleeps_iff, same n changed]
        exact old
    | none =>
      by_cases got : ∃ n ∈ sma.modified sops, sma.vals.semval n = 0
      · obtain ⟨n, changed, zero⟩ := got
        exact (zeros n changed zero).2 q' mem
      obtain ⟨q, hq, sameSops⟩ := (scan.const none).mem mem
      have old := (ok.sleeps_pendingConst range hq).mp (before none q hq)
      rw [ok'.sleeps_pendingConst ok.range mem, sameSops]
      refine (stable q hq).sleep_mono (fun n nonzero => ?_) old
      by_cases changed : n ∈ sma.modified sops
      · exact fun zero => got ⟨n, changed, zero⟩
      · rwa [same n changed]
  · obtain ⟨q, hq, sameSops⟩ := (scan.const none).mem mem
    rw [sameSops]
    exact stable q hq

/-- The waits for zero after an altering operation went through. -/
theorem ConstAsleep.completed (ok : sma.Entries) (const : sma.ConstAsleep)
    {passed rest : List SemQueue} {m : Option Nat} (list : sma.alterList m = passed ++ q :: rest)
    (sempid : Nat → Int) : (sma.completed passed q rest m sempid).ConstAsleep := by
  have scan := unlinkAlter_scanned ok (performAtomicSemop sma.vals q).2.1 sempid list
  have entries := scan.entries ok (by simpa using perform_inRange ok.range)
  have asleep := doSmartWakeupZero_asleep entries ok.range (fun k => ?_) ?_ (some q.sops)
    fun n unnamed => ?_
  · exact asleep.congr (fun k => constList_wakeUp _ _ _ k) rfl
  · rw [constList_unlinkAlter]
    exact const.asleep k
  · intro q' mem
    refine const.stable q' ?_
    change q' ∈ SemArray.constList _ none at mem
    rwa [constList_unlinkAlter] at mem
  · rw [vals_unlinkAlter]
    exact perform_semval_of_notMem unnamed

/-- Without a restart nothing is left on the global list. -/
theorem pendingAlter_of_checkRestart (once : ¬ sma.checkRestart q = true) :
    sma.pendingAlter = [] := by
  unfold checkRestart at once
  split at once
  · exact absurd rfl once
  next h => simpa using h

theorem updateWalk_none_asleep {passed rest : List SemQueue}
    (ok : sma.Entries) (list : sma.pendingAlter = passed ++ rest) (const : sma.ConstAsleep)
    (fresh : FreshIn sma.vals passed) : (updateWalk none sma passed rest).1.ConstAsleep ∧
    ((updateWalk none sma passed rest).2 = false →
      FreshIn (updateWalk none sma passed rest).1.vals
        (updateWalk none sma passed rest).1.pendingAlter) := by
  induction rest generalizing sma passed with
  | nil =>
    refine ⟨const, fun _ => ?_⟩
    rw [updateWalk, list, append_nil]
    exact fresh
  | cons q rest ih =>
    cases updateWalk_step (m := none) ok list with
    | stop none eq => cases none
    | sleep q' next here past vals sameConst eq =>
      rw [eq]
      refine @ih next (passed ++ [q']) past.entries (past.list.trans (by simp))
        (const.congr sameConst vals) fun p mem => ?_
      rw [vals]
      rcases mem_append.mp mem with mem | mem
      · exact fresh p mem
      · rw [mem_singleton.mp mem]
        exact here
    | fail next past vals sameConst eq =>
      rw [eq]
      exact ih past.entries past.list (const.congr sameConst vals) (vals ▸ fresh)
    | done sempid next completed past vals eq =>
      have constNext : next.ConstAsleep := completed ▸ const.completed ok (m := none) list sempid
      rw [eq]
      split
      · exact ⟨constNext, fun h => by cases h⟩
      next once =>
        have empty := pendingAlter_of_checkRestart once
        obtain ⟨rfl, rfl⟩ := append_eq_nil_iff.mp (past.list.symm.trans empty)
        refine ⟨constNext, fun _ => ?_⟩
        rw [updateWalk, empty]
        simp [FreshIn]

/-- The scan of the global list ends with a walk that finds no operation to complete. -/
theorem updateQueue_none_asleep (ok : sma.Entries) (const : sma.ConstAsleep) :
    (sma.updateQueue none).ConstAsleep ∧
      FreshIn (sma.updateQueue none).vals (sma.updateQueue none).pendingAlter := by
  obtain ⟨last, okLast, _, constLast, eq⟩ := updateQueue_last (fun s okS constS _ =>
      (updateWalk_none_asleep okS rfl constS (by simp [FreshIn])).1) ok const
  have walk := @updateWalk_none_asleep last [] (last.alterList none) okLast rfl constLast
    (by simp [FreshIn])
  rw [eq] at walk
  exact ⟨walk.1, walk.2 rfl⟩

end

/-- In simple mode one walk is enough: it only takes from its semaphore. -/
theorem updateWalk_some_asleep {n : Nat} {sma : SemArray} {passed rest : List SemQueue}
    (ok : sma.Entries) (list : sma.semAlter n = passed ++ rest) (empty : sma.pendingAlter = [])
    (const : sma.ConstAsleep) (asleep : AsleepIn sma.vals passed) :
    (updateWalk (some n) sma passed rest).2 = false ∧
    (updateWalk (some n) sma passed rest).1.ConstAsleep ∧
    AsleepIn (updateWalk (some n) sma passed rest).1.vals
      ((updateWalk (some n) sma passed rest).1.semAlter n) ∧
    (∀ k, (updateWalk (some n) sma passed rest).1.vals.semval k ≤ sma.vals.semval k) ∧
    ∀ k, k ≠ some n → (updateWalk (some n) sma passed rest).1.alterList k = sma.alterList k := by
  induction rest generalizing sma passed with
  | nil =>
    refine ⟨rfl, const, ?_, fun _ => Int.le_refl _, fun _ _ => rfl⟩
    rw [updateWalk, list, append_nil]
    exact asleep
  | cons q rest ih =>
    have decs : ∀ p ∈ passed ++ q :: rest, IsDecrement n p := list ▸ ok.semAlter n
    have goOn {next : SemArray} {l : List SemQueue} (past : WentPast (some n) l sma next) :
        next.pendingAlter = [] := (past.others none (by simp)).trans empty
    cases updateWalk_step (m := some n) ok list with
    | stop none eq =>
      rw [eq]
      refine ⟨rfl, const, ?_, fun _ => Int.le_refl _, fun _ _ => rfl⟩
      have zero : sma.vals.semval n = 0 := by simpa [noneLeft] using none
      intro p mem
      exact (ok.semAlter n p mem).sleeps_of_zero zero
    | sleep q' next fresh past vals sameConst eq =>
      rw [eq]
      have later := @ih next (passed ++ [q']) past.entries (past.list.trans (by simp))
        (goOn past) (const.congr sameConst vals) fun p mem => by
          rw [vals]
          rcases mem_append.mp mem with mem | mem
          · exact asleep p mem
          · rw [mem_singleton.mp mem]
            exact fresh.sleeps
      obtain ⟨once, constLater, asleepLater, le, others⟩ := later
      rw [vals] at le
      exact ⟨once, constLater, asleepLater, le, fun k ne => (others k ne).trans (past.others k ne)⟩
    | fail next past vals sameConst eq =>
      rw [eq]
      obtain ⟨once, constLater, asleepLater, le, others⟩ := ih past.entries past.list
        (goOn past) (const.congr sameConst vals) (vals ▸ asleep)
      rw [vals] at le
      exact ⟨once, constLater, asleepLater, le, fun k ne => (others k ne).trans (past.others k ne)⟩
    | done sempid next completed past vals eq =>
      have constNext : next.ConstAsleep :=
        completed ▸ const.completed ok (m := some n) list sempid
      obtain ⟨sop, one, num, neg, _⟩ := decs q (by simp)
      have taken (k : Nat) : next.vals.semval k ≤ sma.vals.semval k := by
        rw [vals]
        refine perform_semval_le fun s mem _ => ?_
        rw [one, mem_singleton] at mem
        rw [mem]
        omega
      have once : next.checkRestart q = false := by
        simp [checkRestart, goOn past, nsops_of_single one]
      rw [eq, once]
      obtain ⟨done, constLater, asleepLater, le, others⟩ := ih past.entries past.list
        (goOn past) constNext fun p mem =>
          (decs p (mem_append_left _ mem)).sleeps_mono (taken n) (asleep p mem)
      exact ⟨done, constLater, asleepLater, fun k => Int.le_trans (le k) (taken k),
        fun k ne => (others k ne).trans (past.others k ne)⟩

section
variable {sma : SemArray} (ok : sma.Entries) (empty : sma.pendingAlter = [])
  (const : sma.ConstAsleep)
include ok empty const

theorem updateQueue_some_asleep (n : Nat) : (sma.updateQueue (some n)).ConstAsleep ∧
    AsleepIn (sma.updateQueue (some n)).vals ((sma.updateQueue (some n)).semAlter n) ∧
    (∀ k, (sma.updateQueue (some n)).vals.semval k ≤ sma.vals.semval k) ∧
    ∀ k, k ≠ some n → (sma.updateQueue (some n)).alterList k = sma.alterList k := by
  obtain ⟨once, walk⟩ := @updateWalk_some_asleep n sma [] (sma.alterList (some n)) ok rfl empty
    const (by simp [AsleepIn])
  have eq : sma.updateQueue (some n) = (updateWalk (some n) sma [] (sma.alterList (some n))).1 := by
    rw [updateQueue, updateRounds, once]
    rfl
  rw [eq]
  exact walk

/-- The scans of `do_smart_update` in simple mode: the decrements of the semaphores that are
not scanned have to be asleep before. -/
theorem updateQueues_asleep (nums : List Nat)
    (asleep : ∀ n, n ∉ nums → AsleepIn sma.vals (sma.semAlter n)) :
    (nums.foldl (fun sma n => sma.updateQueue (some n)) sma).Asleep := by
  induction nums generalizing sma with
  | nil =>
    refine ⟨const, fun m => ?_⟩
    cases m with
    | none => simp [alterList, empty, AsleepIn]
    | some n => exact asleep n (by simp)
  | cons i rest ih =>
    obtain ⟨constNext, asleepI, le, others⟩ := updateQueue_some_asleep ok empty const i
    refine ih (updateQueue_scanned ok (some i)).2 ((others none (by simp)).trans empty) constNext
      fun n out => ?_
    by_cases same : n = i
    · exact same ▸ asleepI
    have list : (sma.updateQueue (some i)).semAlter n = sma.semAlter n :=
      others (some n) (by simpa using same)
    rw [list]
    exact fun q mem => (ok.semAlter n q mem).sleeps_mono (le n)
      (asleep n (by simp [same, out]) q mem)

end

/-- `do_smart_update` after the values of a sleeping array changed from `v`. -/
theorem doSmartUpdate_asleep {sma : SemArray} (ok : sma.Queued) (range : v.InRange)
    (alter : ∀ m, AsleepIn v (sma.alterList m)) (const : ∀ m, AsleepIn v (sma.constList m))
    (stable : ∀ q ∈ sma.pendingConst, NowaitLast q.sops) (sops : Option (List Sembuf))
    (same : ∀ n, n ∉ sma.modified sops → sma.vals.semval n = v.semval n)
    (le : ∀ n, n ∉ sma.increased sops → sma.vals.semval n ≤ v.semval n) :
    (sma.doSmartUpdate sops).Asleep ∧
      FreshIn (sma.doSmartUpdate sops).vals (sma.doSmartUpdate sops).pendingAlter := by
  have zero := doSmartWakeupZero_asleep ok.toEntries range const stable sops same
  obtain ⟨scan, _⟩ := doSmartWakeupZero_spec ok.toEntries sops
  have okZero := ok.scanned scan.toScanned (scan.entries ok.toEntries)
  have increased : (sma.doSmartWakeupZero sops).increased sops = sma.increased sops := by
    cases sops with
    | some sops => rfl
    | none => rw [SemArray.increased, SemArray.increased, scan.nsems]
  rw [doSmartUpdate]
  split
  next some =>
    obtain ⟨constAfter, fresh⟩ := updateQueue_none_asleep okZero.toEntries zero
    refine ⟨⟨constAfter, fun m => ?_⟩, fresh⟩
    cases m with
    | none => exact fun q mem => (fresh q mem).sleeps
    | some n =>
      have empty := okZero.mode.resolve_left fun h => some h.2
      have list := ((updateQueue_scanned okZero.toEntries none).1.alter (Option.some n)).eq_nil
        (empty n)
      rw [list]
      simp [AsleepIn]
  next none =>
    have none : (sma.doSmartWakeupZero sops).pendingAlter = [] := by simpa using none
    have empty := ((updateQueues_scanned okZero.toEntries
      ((sma.doSmartWakeupZero sops).increased sops)).1.alter Option.none).eq_nil none
    refine ⟨updateQueues_asleep okZero.toEntries none zero _ fun n out => ?_, fun q mem => ?_⟩
    swap
    · rw [show pendingAlter _ = [] from empty] at mem
      cases mem
    rw [increased] at out
    have list : (sma.doSmartWakeupZero sops).semAlter n = sma.semAlter n :=
      scan.sameAlter (some n)
    rw [list, scan.vals]
    exact fun q mem => (ok.semAlter n q mem).sleeps_mono (le n out) (alter (some n) q mem)

theorem unmergeQueues_frame (sma : SemArray) : sma.unmergeQueues.vals = sma.vals ∧
      ∀ m, sma.unmergeQueues.constList m = sma.constList m := by
  by_cases zero : sma.complexCount = 0
  · rw [unmergeQueues_eq zero]
    exact ⟨rfl, fun m => by cases m <;> rfl⟩
  · rw [unmergeQueues, if_pos zero]
    exact ⟨rfl, fun _ => rfl⟩

theorem Asleep.semUnlock {sma : SemArray} (asleep : sma.Asleep) (array : Bool) :
    (sma.semUnlock array).Asleep := by
  cases array with
  | false => exact asleep
  | true =>
    obtain ⟨vals, const⟩ := unmergeQueues_frame sma
    refine ⟨asleep.toConstAsleep.congr const vals, fun m q mem => ?_⟩
    obtain ⟨k, mem⟩ := unmergeQueues_moved sma m q mem
    rw [show (sma.semUnlock true).vals = sma.vals from vals]
    exact asleep.alter k q mem

/-- Taking entries off the lists wakes nobody else. -/
theorem Asleep.scanned {sma sma' : SemArray} (asleep : sma.Asleep) (scan : Scanned sma sma')
    (vals : sma'.vals = sma.vals) : sma'.Asleep where
  toConstAsleep := asleep.toConstAsleep.shrinks scan.const vals
  alter m := vals ▸ Shrinks.asleep (scan.alter m) (asleep.alter m)

theorem Asleep.enqueued {sma sma' : SemArray} (asleep : sma.Asleep) (sleeps : Sleeps sma.vals q)
    (last : q.alter = false → NowaitLast q.sops) (enqueued : Enqueued q sma sma') :
    sma'.Asleep where
  asleep m q' mem := by
    rw [enqueued.vals]
    rcases enqueued.const m q' mem with ⟨rfl, _⟩ | mem
    · exact sleeps
    · exact asleep.asleep m q' mem
  stable q' mem := by
    rcases enqueued.const none q' mem with ⟨rfl, const⟩ | mem
    · exact last const
    · exact asleep.stable q' mem
  alter m q' mem := by
    rw [enqueued.vals]
    rcases enqueued.alter m q' mem with rfl | ⟨k, mem⟩
    · exact sleeps
    · exact asleep.alter k q' mem

/-- An update after a change of the values of the semaphores that it looks at. -/
theorem Asleep.update {sma : SemArray} (asleep : sma.Asleep) (placed : sma.Placed) {vals : SemVals}
    (range : vals.InRange) (sempid : Nat → Int) (sops : Option (List Sembuf))
    (same : ∀ n, n ∉ sma.modified sops → vals.semval n = sma.vals.semval n)
    (le : ∀ n, n ∉ sma.increased sops → vals.semval n ≤ sma.vals.semval n) :
    let after := (sma.withRest vals sempid sma.complexCount sma.tasks).doSmartUpdate sops
    after.Asleep ∧ FreshIn after.vals after.pendingAlter := by
  have scan := scanned_withRest sma vals sempid sma.tasks
  have queued := placed.queued.scanned scan (scan.entries placed.toEntries range)
  refine doSmartUpdate_asleep queued placed.range (fun m => ?_) (fun m => ?_) asleep.stable sops
    (fun n out => same n ?_) (fun n out => le n ?_)
  · exact asleep.alter m
  · exact asleep.asleep m
  · cases sops <;> exact out
  · cases sops <;> exact out

/-- A complex request that has to wait for zeros names no semaphore to wait for behind one
with `IPC_NOWAIT`. -/
def NowaitBehind (sma : SemArray) : SemEvent → Prop
  | .semtimedop id sops undo pid =>
    Sleeps sma.vals (newQueue id sops undo pid) → (∀ sop ∈ sops, sop.semOp = 0) → NowaitLast sops
  | _ => True

instance (sma : SemArray) (e : SemEvent) : Decidable (NowaitBehind sma e) :=
  match e with
  | .semtimedop id sops undo pid =>
    inferInstanceAs (Decidable (Sleeps sma.vals (newQueue id sops undo pid) → _ → _))
  | .interrupted _ | .setval _ _ _ | .setall _ | .exitSem _ _ | .glance | .rmid => isTrue trivial

theorem Asleep.step {sma : SemArray} (asleep : sma.Asleep) (placed : sma.Placed) {e : SemEvent}
    (behind : sma.NowaitBehind e) : (semStep sma e).Asleep := by
  have effect := placed.effect e
  generalize semStep sma e = after at effect ⊢
  cases effect with
  | same => exact asleep
  | update range same le _ => exact (asleep.update placed range _ _ same le).1.semUnlock _
  | scan scan vals _ _ => exact (asleep.scanned scan vals).semUnlock _
  | queue call sleeps arrives =>
    refine (asleep.enqueued arrives.sleeps (fun const => ?_) (placed.enqueue_spec arrives)).semUnlock
      _
    have zero := arrives.zero const
    rw [SemQueue.sops_of_bare (perform_bare sma _)] at zero ⊢
    subst call
    exact behind sleeps zero
  | @remove sma' scan vals _ =>
    have after := asleep.scanned scan vals
    have removed : ({ sma' with removed := true } : SemArray).Asleep :=
      ⟨after.toConstAsleep.congr (fun m => by cases m <;> rfl) rfl, fun
        | none => after.alter none
        | some n => after.alter (some n)⟩
    exact removed.semUnlock true

end SemArray

/-- A task that is blocked at this operation counts for the semaphore. -/
def countsFor (semnum : Nat) (countZero : Bool) (sop : Sembuf) : Bool :=
  if sop.semNum ≠ semnum then false
  else if countZero ∧ sop.semOp = 0 then true
  else if !countZero ∧ sop.semOp < 0 then true
  else false

def checkQop (semnum : Nat) (countZero : Bool) (q : SemQueue) : Bool :=
  q.blockingSop.any (countsFor semnum countZero)

def countSemcnt (sma : SemArray) (semnum : Nat) (countZero : Bool) : Nat :=
  let l := if countZero then sma.semConst semnum else sma.semAlter semnum
  let semcnt := l.length
  let semcnt := semcnt + sma.pendingAlter.countP (checkQop semnum countZero)
  if countZero then semcnt + sma.pendingConst.countP (checkQop semnum countZero) else semcnt

def OneSemaphore (sops : List Sembuf) : Prop := ∀ a ∈ sops, ∀ b ∈ sops, a.semNum = b.semNum

instance (sops : List Sembuf) : Decidable (OneSemaphore sops) :=
  inferInstanceAs (Decidable (∀ a ∈ sops, ∀ b ∈ sops, a.semNum = b.semNum))

theorem firstUses_seen {seen : List Nat} (used : ∀ sop ∈ sops, sop.semNum ∈ seen) :
    firstUses seen sops = [] := by
  induction sops with
  | nil => rfl
  | cons sop rest ih =>
    rw [firstUses, if_pos (used sop mem_cons_self)]
    exact ih fun s mem => used s (mem_cons_of_mem _ mem)

theorem OneSemaphore.nowaitLast (one : OneSemaphore sops) : NowaitLast sops := by
  unfold NowaitLast
  cases sops with
  | nil => exact Pairwise.nil
  | cons sop rest =>
    rw [firstUses, firstUses_seen fun s mem => mem_singleton.mpr
      (one s (mem_cons_of_mem _ mem) sop mem_cons_self)]
    exact pairwise_singleton _ _

namespace SemArray
variable {sma sma' : SemArray}

/-- A request that has to wait for zeros waits for one semaphore. -/
def OneZero (sma : SemArray) : SemEvent → Prop
  | .semtimedop id sops undo pid =>
    Sleeps sma.vals (newQueue id sops undo pid) → (∀ sop ∈ sops, sop.semOp = 0) → OneSemaphore sops
  | _ => True

instance (sma : SemArray) (e : SemEvent) : Decidable (OneZero sma e) :=
  match e with
  | .semtimedop id sops undo pid =>
    inferInstanceAs (Decidable (Sleeps sma.vals (newQueue id sops undo pid) → _ → _))
  | .interrupted _ | .setval _ _ _ | .setall _ | .exitSem _ _ | .glance | .rmid => isTrue trivial

theorem OneZero.nowaitBehind {e : SemEvent} (one : OneZero sma e) : NowaitBehind sma e := by
  cases e with
  | semtimedop id sops undo pid => exact fun sleeps zero => (one sleeps zero).nowaitLast
  | _ => trivial

structure Counted (sma : SemArray) : Prop where
  alter : FreshIn sma.vals sma.pendingAlter
  const : ∀ q ∈ sma.pendingConst, OneSemaphore q.sops

theorem Counted.semUnlock (counted : sma.Counted) (array : Bool) :
    (sma.semUnlock array).Counted := by
  cases array with
  | false => exact counted
  | true =>
    show sma.unmergeQueues.Counted
    by_cases zero : sma.complexCount = 0
    · rw [unmergeQueues_eq zero]
      exact ⟨by simp [FreshIn], counted.const⟩
    · rwa [unmergeQueues, if_pos zero]

theorem Counted.const_scanned (counted : sma.Counted) (scan : Scanned sma sma') :
    ∀ q ∈ sma'.pendingConst, OneSemaphore q.sops := by
  intro q mem
  obtain ⟨old, oldMember, same⟩ := (scan.const none).mem mem
  rw [same]
  exact counted.const old oldMember

theorem Counted.step {e : SemEvent} (counted : sma.Counted) (placed : sma.Placed)
    (asleep : sma.Asleep) (one : sma.OneZero e) : (semStep sma e).Counted := by
  have effect := placed.effect e
  generalize semStep sma e = after at effect ⊢
  cases effect with
  | same => exact counted
  | @update vals sempid sops array range same le _ =>
    have scan := (doSmartUpdate_withRest_scanned placed.toEntries range sempid sops).1
    have fresh := (asleep.update placed range sempid sops same le).2
    exact Counted.semUnlock ⟨fresh, counted.const_scanned scan⟩ array
  | scan scan vals pending _ =>
    refine Counted.semUnlock ⟨fun q mem => ?_, counted.const_scanned scan⟩ _
    rw [vals]
    exact counted.alter q (pending q mem)
  | @queue id undo sops pid call sleeps arrives =>
    have enqueued := placed.enqueue_spec arrives
    refine Counted.semUnlock ⟨fun q mem => ?_, fun q mem => ?_⟩ _
    · rw [enqueued.vals]
      rcases enqueued.alter none q mem with rfl | ⟨_ | n, mem⟩
      · exact sleeps.fresh_perform
      · exact counted.alter q mem
      · obtain ⟨sop, single, _⟩ := placed.semAlter n q mem
        exact (asleep.alter (some n) q mem).fresh_single single
    · rcases enqueued.const none q mem with ⟨rfl, const⟩ | mem
      · have zero := arrives.zero const
        rw [SemQueue.sops_of_bare (perform_bare sma _)] at zero ⊢
        subst call
        exact one sleeps zero
      · exact counted.const q mem
  | @remove sma' scan _ pending =>
    have removed : ({ sma' with removed := true } : SemArray).Counted :=
      ⟨by simp [FreshIn, pending], (counted.const_scanned scan :)⟩
    exact removed.semUnlock true

end SemArray

end Linux318.Source.Ipc
