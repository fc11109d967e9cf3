import Linux318.Source.Ipc.SemOp

/-!
# Semaphore arrays and their queues

Source: ipc/sem.c:199-244,284-372,697-1010,1087-1140,1255-1345,1440-1462,1788-2160. A list
of the kernel is a Lean list, oldest entry first. Each event is one section under the
locks: sections under the locks of two single semaphores touch different values and
lists, so that their order does not matter.

`semnum = -1` of the source, the global list, is `none` here. A loop that starts `again`
gets one round more than there are entries on its list; every restart has removed one.
-/
namespace Linux318.Source.Ipc

structure SemArray where
  nsems : Nat
  vals : SemVals
  sempid : Nat → Int
  pendingAlter : List SemQueue
  pendingConst : List SemQueue
  /-- `sem_base[i].pending_alter` -/
  semAlter : Nat → List SemQueue
  /-- `sem_base[i].pending_const` -/
  semConst : Nat → List SemQueue
  complexCount : Int
  /-- The sleepers that were woken, with the status they got. -/
  tasks : List (Nat × SemResult)
  /-- The array has left the IDR. -/
  removed : Bool

def SemQueue.nsops (q : SemQueue) : Nat := q.sops.length

def SemQueue.semNum (q : SemQueue) : Nat :=
  match q.sops with
  | [] => 0
  | sop :: _ => sop.semNum

namespace SemArray

def alterList (sma : SemArray) : Option Nat → List SemQueue
  | none => sma.pendingAlter
  | some n => sma.semAlter n

def constList (sma : SemArray) : Option Nat → List SemQueue
  | none => sma.pendingConst
  | some n => sma.semConst n

def setAlter (sma : SemArray) (l : List SemQueue) : Option Nat → SemArray
  | none => { sma with pendingAlter := l }
  | some n => { sma with semAlter := fun i => if i = n then l else sma.semAlter i }

def setConst (sma : SemArray) (l : List SemQueue) : Option Nat → SemArray
  | none => { sma with pendingConst := l }
  | some n => { sma with semConst := fun i => if i = n then l else sma.semConst i }

/-- `perform_atomic_semop` on the array: its return value, the array and the entry. -/
def perform (sma : SemArray) (q : SemQueue) : SemResult × SemArray × SemQueue :=
  let r := performAtomicSemop sma.vals q
  (r.1,
    { sma with
      vals := r.2.1
      sempid := if r.1 = .done then setPids q.sops q.pid sma.sempid else sma.sempid },
    r.2.2)

/-- The part of `unlink_queue` that is not the list deletion. -/
def uncount (sma : SemArray) (q : SemQueue) : SemArray :=
  if q.nsops > 1 then { sma with complexCount := sma.complexCount - 1 } else sma

def wakeUpSemQueuePrepare (sma : SemArray) (q : SemQueue) (error : SemResult) : SemArray :=
  { sma with tasks := sma.tasks ++ [(q.id, error)] }

def unmergeQueues (sma : SemArray) : SemArray :=
  if sma.complexCount ≠ 0 then sma
  else
    { sma.pendingAlter.foldl
        (fun sma q => sma.setAlter (sma.semAlter q.semNum ++ [q]) (some q.semNum)) sma with
      pendingAlter := [] }

/-- One round of `merge_queues`: `list_splice_init` puts the list at the head. -/
def spliceSem (sma : SemArray) (i : Nat) : SemArray :=
  { sma with
    pendingAlter := sma.semAlter i ++ sma.pendingAlter
    semAlter := fun j => if j = i then [] else sma.semAlter j }

def mergeQueues (sma : SemArray) : SemArray := (List.range sma.nsems).foldl spliceSem sma

def checkRestart (sma : SemArray) (q : SemQueue) : Bool :=
  if sma.pendingAlter ≠ [] then true
  else if q.nsops > 1 then true
  else false

/-- The walk of `wake_const_ops`: the array, and the entries that stay on the list. -/
def wakeConstWalk : SemArray → List SemQueue → SemArray × List SemQueue
  | sma, [] => (sma, [])
  | sma, q :: rest =>
    let p := sma.perform q
    if p.1 = .sleep then
      let r := wakeConstWalk p.2.1 rest
      (r.1, p.2.2 :: r.2)
    else wakeConstWalk ((p.2.1.uncount q).wakeUpSemQueuePrepare q p.1) rest

def wakeConstOps (sma : SemArray) (semnum : Option Nat) : SemArray :=
  let r := wakeConstWalk sma (sma.constList semnum)
  r.1.setConst r.2 semnum

/-- The loops of `do_smart_wakeup_zero` over the per-semaphore lists, with `got_zero`. -/
def wakeZeroLoop : SemArray → Bool → List Nat → SemArray × Bool
  | sma, gotZero, [] => (sma, gotZero)
  | sma, gotZero, num :: rest =>
    if sma.vals.semval num = 0 then wakeZeroLoop (sma.wakeConstOps (some num)) true rest
    else wakeZeroLoop sma gotZero rest

/-- The semaphores that may have changed: those of `sops`, or all without `sops`. -/
def modified (sma : SemArray) : Option (List Sembuf) → List Nat
  | some sops => sops.map Sembuf.semNum
  | none => List.range sma.nsems

def doSmartWakeupZero (sma : SemArray) (sops : Option (List Sembuf)) : SemArray :=
  let r := wakeZeroLoop sma false (sma.modified sops)
  if r.2 then r.1.wakeConstOps none else r.1

/-- The test that stops the walk over the list of one semaphore. -/
def noneLeft (sma : SemArray) : Option Nat → Bool
  | none => false
  | some n => sma.vals.semval n = 0

/-- `unlink_queue` for an entry between the entries `before` and `behind`. -/
def unlinkAlter (sma : SemArray) (before : List SemQueue) (q : SemQueue)
    (behind : List SemQueue) (semnum : Option Nat) : SemArray :=
  (sma.uncount q).setAlter (before ++ behind) semnum

/-- The walk of `update_queue` behind the entries `passed`; `true` asks for `again`. -/
def updateWalk (semnum : Option Nat) :
    SemArray → List SemQueue → List SemQueue → SemArray × Bool
  | sma, _, [] => (sma, false)
  | sma, passed, q :: rest =>
    if sma.noneLeft semnum then (sma, false)
    else
      let p := sma.perform q
      if p.1 = .sleep then
        updateWalk semnum (p.2.1.setAlter (passed ++ p.2.2 :: rest) semnum)
          (passed ++ [p.2.2]) rest
      else
        let sma := p.2.1.unlinkAlter passed q rest semnum
        if p.1 = .done then
          let sma := sma.doSmartWakeupZero (some q.sops)
          let restart := sma.checkRestart q
          let sma := sma.wakeUpSemQueuePrepare q p.1
          if restart then (sma, true) else updateWalk semnum sma passed rest
        else updateWalk semnum (sma.wakeUpSemQueuePrepare q p.1) passed rest

def updateRounds (semnum : Option Nat) : Nat → SemArray → SemArray
  | 0, sma => sma
  | rounds + 1, sma =>
    let r := updateWalk semnum sma [] (sma.alterList semnum)
    if r.2 then updateRounds semnum rounds r.1 else r.1

def updateQueue (sma : SemArray) (semnum : Option Nat) : SemArray :=
  updateRounds semnum ((sma.alterList semnum).length + 1) sma

/-- The semaphores whose lists `do_smart_update` scans in simple mode. -/
def increased (sma : SemArray) : Option (List Sembuf) → List Nat
  | some sops => (sops.filter (0 < ·.semOp)).map Sembuf.semNum
  | none => List.range sma.nsems

def doSmartUpdate (sma : SemArray) (sops : Option (List Sembuf)) : SemArray :=
  let sma := sma.doSmartWakeupZero sops
  if sma.pendingAlter ≠ [] then sma.updateQueue none
  else (sma.increased sops).foldl (fun sma n => sma.updateQueue (some n)) sma

def locksArray (sma : SemArray) (sops : List Sembuf) : Bool :=
  sops.length ≠ 1 ∨ sma.complexCount ≠ 0

def semUnlock (sma : SemArray) (array : Bool) : SemArray :=
  if array then sma.unmergeQueues else sma

/-- The queueing part of `semtimedop`. -/
def enqueue (sma : SemArray) (q : SemQueue) : SemArray :=
  if q.nsops = 1 then
    if q.alter then
      if sma.complexCount ≠ 0 then { sma with pendingAlter := sma.pendingAlter ++ [q] }
      else sma.setAlter (sma.semAlter q.semNum ++ [q]) (some q.semNum)
    else sma.setConst (sma.semConst q.semNum ++ [q]) (some q.semNum)
  else
    let sma := if sma.complexCount = 0 then sma.mergeQueues else sma
    let sma :=
      if q.alter then { sma with pendingAlter := sma.pendingAlter ++ [q] }
      else { sma with pendingConst := sma.pendingConst ++ [q] }
    { sma with complexCount := sma.complexCount + 1 }

def newQueue (id : Nat) (sops : List Sembuf) (undo : Nat) (pid : Int) : SemQueue :=
  { id, sops, alter := sops.any (·.semOp ≠ 0), undo, pid, blocking := 0 }

def semtimedop (sma : SemArray) (id : Nat) (sops : List Sembuf) (undo : Nat) (pid : Int) :
    SemResult × SemArray :=
  if sops = [] then (.einval, sma)
  else if sops.any (sma.nsems ≤ ·.semNum) then (.efbig, sma)
  else
    let array := sma.locksArray sops
    let queue := newQueue id sops undo pid
    let p := sma.perform queue
    let sma :=
      if p.1 = .done ∧ queue.alter then p.2.1.doSmartUpdate (some sops)
      else if p.1 = .sleep then p.2.1.enqueue p.2.2
      else p.2.1
    (p.1, sma.semUnlock array)

/-- The deletion of an entry from the list it is on, `list_del`. -/
def listDel (sma : SemArray) (q : SemQueue) : Option SemArray :=
  if q ∈ sma.pendingAlter then some { sma with pendingAlter := sma.pendingAlter.erase q }
  else if q ∈ sma.pendingConst then some { sma with pendingConst := sma.pendingConst.erase q }
  else if q ∈ sma.semAlter q.semNum then
    some (sma.setAlter ((sma.semAlter q.semNum).erase q) (some q.semNum))
  else if q ∈ sma.semConst q.semNum then
    some (sma.setConst ((sma.semConst q.semNum).erase q) (some q.semNum))
  else none

/-- A sleeper that was not woken by an operation leaves, on a signal or a timeout. -/
def interrupted (sma : SemArray) (q : SemQueue) : SemArray :=
  match sma.listDel q with
  | none => sma
  | some sma' => (sma'.uncount q).semUnlock (sma.locksArray q.sops)

def setvalVals (v : SemVals) (semnum : Nat) (val : Int) : SemVals where
  semval i := if i = semnum then val else v.semval i
  semadj un i := if i = semnum then 0 else v.semadj un i

def semctlSetval (sma : SemArray) (semnum : Nat) (val pid : Int) : SemResult × SemArray :=
  if val > semvmx ∨ val < 0 then (.erange, sma)
  else if sma.nsems ≤ semnum then (.einval, sma)
  else
    let sempid := fun i => if i = semnum then pid else sma.sempid i
    let sma := { sma with vals := setvalVals sma.vals semnum val, sempid }
    (.done, (sma.doSmartUpdate none).semUnlock true)

def setallVals (v : SemVals) (nsems : Nat) (semIo : Nat → Nat) : SemVals where
  semval i := if i < nsems then semIo i else v.semval i
  semadj un i := if i < nsems then 0 else v.semadj un i

/-- `SETALL`; `semIo` has one `ushort` for each semaphore. -/
def semctlSetall (sma : SemArray) (semIo : Nat → Nat) : SemResult × SemArray :=
  if (List.range sma.nsems).any (fun i => (semIo i : Int) > semvmx) then (.erange, sma)
  else
    let sma := { sma with vals := setallVals sma.vals sma.nsems semIo }
    (.done, (sma.doSmartUpdate none).semUnlock true)

/-- One semaphore of `exit_sem`: the adjusted value, capped at both ends. -/
def undoVal (semval semadj : Int) : Int :=
  let semval := semval + semadj
  let semval := if semval < 0 then 0 else semval
  if semval > semvmx then semvmx else semval

def adjusts (v : SemVals) (nsems undo i : Nat) : Bool := i < nsems ∧ v.semadj undo i ≠ 0

def exitVals (v : SemVals) (nsems undo : Nat) : SemVals where
  semval i :=
    if adjusts v nsems undo i then undoVal (v.semval i) (v.semadj undo i) else v.semval i
  semadj un i := if un = undo then 0 else v.semadj un i

/-- `exit_sem` for one undo structure of this array, which it frees. -/
def exitSem (sma : SemArray) (undo : Nat) (pid : Int) : SemArray :=
  let sempid := fun i => if adjusts sma.vals sma.nsems undo i then pid else sma.sempid i
  let sma := { sma with vals := exitVals sma.vals sma.nsems undo, sempid }
  (sma.doSmartUpdate none).semUnlock true

/-- One list of `freeary`: every entry is unlinked and woken with `-EIDRM`. -/
def freeList (sma : SemArray) (l : List SemQueue) : SemArray :=
  l.foldl (fun sma q => (sma.uncount q).wakeUpSemQueuePrepare q .eidrm) sma

def freeSem (sma : SemArray) (i : Nat) : SemArray :=
  let sma := (sma.freeList (sma.semConst i)).setConst [] (some i)
  (sma.freeList (sma.semAlter i)).setAlter [] (some i)

def freeary (sma : SemArray) : SemArray :=
  let sma := { sma.freeList sma.pendingConst with pendingConst := [] }
  let sma := { sma.freeList sma.pendingAlter with pendingAlter := [] }
  let sma := (List.range sma.nsems).foldl freeSem sma
  { sma with removed := true }.semUnlock true

/-- All operations that wait on the lists of the array. -/
def queued (sma : SemArray) : List SemQueue :=
  sma.pendingAlter ++ sma.pendingConst ++
    (List.range sma.nsems).flatMap fun i => sma.semAlter i ++ sma.semConst i

/-- A new array; `ipc_rcu_alloc` memory is cleared. -/
def newary (nsems : Nat) : SemArray :=
  { nsems
    vals := { semval := fun _ => 0, semadj := fun _ _ => 0 }
    sempid := fun _ => 0
    pendingAlter := []
    pendingConst := []
    semAlter := fun _ => []
    semConst := fun _ => []
    complexCount := 0
    tasks := []
    removed := false }

end SemArray

/-- A section under the locks of an array. `glance` is a caller that takes the lock of the
whole array and changes nothing, such as `GETVAL` or a spurious wakeup. -/
inductive SemEvent where
  | semtimedop (id : Nat) (sops : List Sembuf) (undo : Nat) (pid : Int)
  | interrupted (q : SemQueue)
  | setval (semnum : Nat) (val pid : Int)
  | setall (semIo : Nat → Nat)
  | exitSem (undo : Nat) (pid : Int)
  | glance
  | rmid

/-- Every caller leaves an array that has left the IDR as it is. -/
def semStep (sma : SemArray) (e : SemEvent) : SemArray :=
  if sma.removed then sma
  else
    match e with
    | .semtimedop id sops undo pid => (sma.semtimedop id sops undo pid).2
    | .interrupted q => sma.interrupted q
    | .setval semnum val pid => (sma.semctlSetval semnum val pid).2
    | .setall semIo => (sma.semctlSetall semIo).2
    | .exitSem undo pid => sma.exitSem undo pid
    | .glance => sma.semUnlock true
    | .rmid => sma.freeary

end Linux318.Source.Ipc
