import Linux318.Lib.Run
import Mathlib.Data.List.Basic

/-!
lib/percpu_ida.c, 45 to 260: a pool of tags with one freelist for each CPU, as a system of CPUs
that take turns. One step is a section under a lock of a CPU, a section under the lock of the pool
as far as it touches nothing else, or one operation on `cpus_have_tags`. A CPU has interrupts off
from the start of a call up to its end, or to where the caller goes to sleep.
-/
namespace Linux318.Source.PercpuIda
open Function

structure Config where
  nrCpus : Nat
  nrTags : Nat
  maxSize : Nat
  batchSize : Nat
  batch_pos : 1 ≤ batchSize
  batch_le : batchSize ≤ maxSize

/-- A task in `percpu_ida_alloc`. It may sleep unless `state` is TASK_RUNNING. -/
structure Caller where
  task : Nat
  sleeps : Bool
  deriving DecidableEq, Repr

inductive Pc where
  | idle
  /-- `percpu_ida_alloc` before it takes the lock of the pool -/
  | allocLock (caller : Caller)
  /-- `steal_tags` before `cpumask_weight` -/
  | stealWeight (caller : Caller)
  /-- its loop with the rounds that are left, before `cpumask_next` -/
  | stealNext (caller : Caller) (left cpu : Nat)
  /-- before `cpumask_first` -/
  | stealFirst (caller : Caller) (left : Nat)
  /-- before `cpumask_clear_cpu` -/
  | stealClear (caller : Caller) (left cpu : Nat)
  /-- before the lock of the other CPU is taken -/
  | stealRemote (caller : Caller) (left cpu : Nat)
  /-- `percpu_ida_alloc` behind `steal_tags` -/
  | allocTake (caller : Caller)
  /-- before `cpumask_set_cpu` -/
  | allocSet (caller : Caller)
  /-- before the lock of the pool is released, with a tag or without -/
  | allocUnlock (caller : Caller) (found : Bool)
  /-- `percpu_ida_free` with the new `nr_free`, before `cpumask_set_cpu` -/
  | freeSet (nrFree : Nat)
  /-- before `wake_up` -/
  | freeWake (nrFree : Nat)
  /-- before it takes the lock of the pool -/
  | freeLock
  /-- `BUG()` -/
  | bug
  deriving DecidableEq, Repr

/-- Where a task is: on a CPU in `percpu_ida_alloc`, at `schedule()`, or elsewhere. -/
inductive Phase where
  | outside
  | onCpu (cpu : Nat)
  | parked
  deriving DecidableEq, Repr

/-- The pool, the CPUs and the tasks. The first of a list is the top of the stack. -/
structure Pool where
  freelist : List Nat
  lists : Nat → List Nat
  cpusHaveTags : Nat → Bool
  cpuLastStolen : Nat
  lock : Option Nat
  pc : Nat → Pc
  held : List Nat
  phase : Nat → Phase
  /-- the tasks in the wait queue, which have not been woken -/
  waiting : Nat → Bool

def initPool (cfg : Config) : Pool where
  freelist := (List.range cfg.nrTags).reverse
  lists := fun _ => []
  cpusHaveTags := fun _ => false
  cpuLastStolen := 0
  lock := none
  pc := fun _ => .idle
  held := []
  phase := fun _ => .outside
  waiting := fun _ => false

def Pool.goto (s : Pool) (cpu : Nat) (pc : Pc) : Pool := { s with pc := update s.pc cpu pc }

def Pool.setList (s : Pool) (cpu : Nat) (l : List Nat) : Pool :=
  { s with lists := update s.lists cpu l }

def Pool.setBit (s : Pool) (cpu : Nat) (bit : Bool) : Pool :=
  { s with cpusHaveTags := update s.cpusHaveTags cpu bit }

def Pool.setPhase (s : Pool) (task : Nat) (phase : Phase) : Pool :=
  { s with phase := update s.phase task phase }

/-- `wake_up`: no waiter is exclusive, so it wakes all. -/
def Pool.wakeUp (s : Pool) : Pool := { s with waiting := fun _ => false }

def weight (cfg : Config) (mask : Nat → Bool) : Nat := (List.range cfg.nrCpus).countP fun c => mask c

def cpumaskNext (cfg : Config) (mask : Nat → Bool) (cpu : Nat) : Option Nat :=
  (List.range cfg.nrCpus).find? fun c => cpu < c ∧ mask c

def cpumaskFirst (cfg : Config) (mask : Nat → Bool) : Option Nat :=
  (List.range cfg.nrCpus).find? fun c => mask c

/-- The first section of `percpu_ida_alloc`, `alloc_local_tag`. -/
def Pool.allocStart (s : Pool) (cpu : Nat) (caller : Caller) : Pool :=
  match s.lists cpu with
  | tag :: rest => { s.setList cpu rest with held := tag :: s.held }
  | [] => (s.setPhase caller.task (.onCpu cpu)).goto cpu (.allocLock caller)

def Pool.prepareToWait (s : Pool) (caller : Caller) : Pool :=
  { s with
    waiting := if caller.sleeps then update s.waiting caller.task true else s.waiting }

/-- The lock of the pool is taken: `prepare_to_wait`, and `alloc_global_tags` if the CPU has no
tags. -/
def Pool.allocGlobal (cfg : Config) (s : Pool) (cpu : Nat) (caller : Caller) : Pool :=
  let s := ({ s with lock := some cpu }).prepareToWait caller
  if s.lists cpu ≠ [] then s.goto cpu (.allocTake caller)
  else
    ({ s.setList cpu (s.freelist.take cfg.batchSize) with
      freelist := s.freelist.drop cfg.batchSize }).goto cpu
        (if s.freelist.take cfg.batchSize = [] then .stealWeight caller else .allocTake caller)

/-- The section under the lock of the CPU that is stolen from. -/
def Pool.stealFrom (s : Pool) (cpu : Nat) (caller : Caller) (left remote : Nat) : Pool :=
  if s.lists remote = [] then s.goto cpu (.stealNext caller (left - 1) remote)
  else ((s.setList cpu (s.lists remote)).setList remote []).goto cpu (.allocTake caller)

def Pool.freeStart (cfg : Config) (s : Pool) (cpu tag : Nat) : Pool :=
  let nrFree := (s.lists cpu).length + 1
  ({ s.setList cpu (tag :: s.lists cpu) with held := s.held.erase tag }).goto cpu
    (if nrFree = 1 then .freeSet nrFree else if nrFree = cfg.maxSize then .freeLock else .idle)

/-- The section of `percpu_ida_free` under the lock of the pool. -/
def Pool.freeGlobal (cfg : Config) (s : Pool) (cpu : Nat) : Pool :=
  if (s.lists cpu).length = cfg.maxSize then
    ({ s.setList cpu ((s.lists cpu).drop cfg.batchSize) with
      freelist := (s.lists cpu).take cfg.batchSize ++ s.freelist }).wakeUp.goto cpu .idle
  else s.goto cpu .idle

/-- The caller leaves the lock of the pool, and returns or goes to sleep. -/
def Pool.allocEnd (s : Pool) (cpu : Nat) (caller : Caller) (found : Bool) : Pool :=
  let s := { s with lock := none }
  (if !found && caller.sleeps then s.setPhase caller.task .parked
    else { s.setPhase caller.task .outside with
      waiting := update s.waiting caller.task false }).goto cpu .idle

/-- The next step of a CPU. A lock that is taken is waited for. -/
def Pool.advance (cfg : Config) (s : Pool) (cpu : Nat) : Pool :=
  match s.pc cpu with
  | .idle => s
  | .allocLock caller => if s.lock = none then s.allocGlobal cfg cpu caller else s
  | .stealWeight caller =>
    s.goto cpu (.stealNext caller (weight cfg s.cpusHaveTags) s.cpuLastStolen)
  | .stealNext caller left last =>
    if left = 0 then s.goto cpu (.allocTake caller)
    else
      match cpumaskNext cfg s.cpusHaveTags last with
      | some next => s.goto cpu (.stealClear caller left next)
      | none => s.goto cpu (.stealFirst caller left)
  | .stealFirst caller left =>
    match cpumaskFirst cfg s.cpusHaveTags with
    | some next => s.goto cpu (.stealClear caller left next)
    | none => s.goto cpu .bug
  | .stealClear caller left remote =>
    ({ s.setBit remote false with cpuLastStolen := remote }).goto cpu
      (if remote = cpu then .stealNext caller (left - 1) remote else .stealRemote caller left remote)
  | .stealRemote caller left remote => s.stealFrom cpu caller left remote
  | .allocTake caller =>
    match s.lists cpu with
    | [] => s.goto cpu (.allocUnlock caller false)
    | tag :: rest => ({ s.setList cpu rest with held := tag :: s.held }).goto cpu
        (if rest = [] then .allocUnlock caller true else .allocSet caller)
  | .allocSet caller => (s.setBit cpu true).goto cpu (.allocUnlock caller true)
  | .allocUnlock caller found => s.allocEnd cpu caller found
  | .freeSet nrFree => (s.setBit cpu true).goto cpu (.freeWake nrFree)
  | .freeWake nrFree => s.wakeUp.goto cpu (if nrFree = cfg.maxSize then .freeLock else .idle)
  | .freeLock => if s.lock = none then s.freeGlobal cfg cpu else s
  | .bug => s

/-- A call on a CPU with interrupts on, a step of a CPU, or the end of a sleep. -/
inductive PoolEvent where
  | alloc (cpu : Nat) (caller : Caller)
  | free (cpu tag : Nat)
  | advance (cpu : Nat)
  /-- `schedule()` returns, on any CPU -/
  | resume (cpu task : Nat)
  /-- a signal ends the call -/
  | signal (task : Nat)

def Pool.next (cfg : Config) (s : Pool) : PoolEvent → Pool
  | .alloc cpu caller =>
    if cpu < cfg.nrCpus ∧ s.pc cpu = .idle ∧ s.phase caller.task = .outside then
      s.allocStart cpu caller
    else s
  | .free cpu tag =>
    if cpu < cfg.nrCpus ∧ s.pc cpu = .idle ∧ tag ∈ s.held then s.freeStart cfg cpu tag else s
  | .advance cpu => if cpu < cfg.nrCpus then s.advance cfg cpu else s
  | .resume cpu task =>
    if cpu < cfg.nrCpus ∧ s.pc cpu = .idle ∧ s.phase task = .parked then
      (s.setPhase task (.onCpu cpu)).goto cpu (.allocLock ⟨task, true⟩)
    else s
  | .signal task =>
    if s.phase task = .parked then
      { s.setPhase task .outside with waiting := update s.waiting task false }
    else s

end Linux318.Source.PercpuIda
