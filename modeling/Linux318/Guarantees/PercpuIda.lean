import Linux318.Source.PercpuIda.Wakeups

/-!
# Per-CPU tags

Source: lib/percpu_ida.c. For any number of CPUs and any sizes, under any interleaving of calls.
-/
namespace Linux318.Guarantees
open Lib Source.PercpuIda

def poolRun (cfg : Config) (events : List PoolEvent) : Pool :=
  runFrom (Pool.next cfg) (initPool cfg) events

theorem poolRun_ok (cfg : Config) (events : List PoolEvent) :
    (poolRun cfg events).Ok cfg ∧ (poolRun cfg events).Awake cfg :=
  @runFrom_invariant_always _ _ (Pool.next cfg) (fun s => s.Ok cfg ∧ s.Awake cfg)
    (fun _ event both => ⟨next_ok both.1 event, next_awake both.1 both.2 event⟩) events _
    ⟨initPool_ok cfg, initPool_awake cfg⟩

/-- The global freelist, the freelists of the CPUs and the tags that are held are a partition of all
tags, no freelist of a CPU has more than `percpu_max_size` tags, and no CPU is at `BUG()`. -/
theorem poolRun_partition (cfg : Config) (events : List PoolEvent) :
    ((poolRun cfg events).freelist : Multiset Nat) +
        ∑ c ∈ Finset.range cfg.nrCpus, ((poolRun cfg events).lists c : Multiset Nat) +
        (poolRun cfg events).held = Multiset.range cfg.nrTags ∧
      (∀ c, ((poolRun cfg events).lists c).length ≤ cfg.maxSize) ∧
      ∀ c, (poolRun cfg events).pc c ≠ .bug := by
  have ok := (poolRun_ok cfg events).1
  refine ⟨ok.tags, fun c => (ok.room c).le, fun c bug => ?_⟩
  have room := ok.room c
  rw [bug] at room
  exact room

/-- No interleaving is stuck: while a CPU is in a call, some CPU goes on. -/
theorem poolRun_goesOn (cfg : Config) (events : List PoolEvent) :
    (∀ c, (poolRun cfg events).pc c = .idle) ∨
      ∃ c, ((poolRun cfg events).advance cfg c).pc c ≠ (poolRun cfg events).pc c := by
  have ok := (poolRun_ok cfg events).1
  by_contra! ⟨⟨c, busy⟩, stuck⟩
  cases lock : (poolRun cfg events).lock with
  | none => exact advance_pc_ne ok (.inr ⟨lock, busy⟩) (stuck c)
  | some d => exact advance_pc_ne ok (.inl ((ok.lock d).mpr lock)) (stuck d)

/-- No task sleeps without having been woken while nothing runs and a tag is free. -/
theorem poolRun_noLostWakeup (cfg : Config) (events : List PoolEvent) :
    ¬ ∃ task, (poolRun cfg events).phase task = .parked ∧ (poolRun cfg events).waiting task ∧
      (∀ c, (poolRun cfg events).pc c = .idle) ∧
      ((poolRun cfg events).freelist ≠ [] ∨ ∃ c < cfg.nrCpus, (poolRun cfg events).lists c ≠ []) := by
  rintro ⟨task, parked, waits, idle, free⟩
  rcases (poolRun_ok cfg events).2.sleep task parked waits with ⟨c, wakes⟩ | ⟨empty, lists⟩
  · rw [idle c] at wakes
    exact wakes
  rcases free with global | ⟨c, inside, tags⟩
  · exact global empty
  · exact tags (lists c inside)

/-- One tag and two CPUs: a task sleeps while the other has the tag, and is woken when it is
freed. -/
def handOver : List PoolEvent :=
  [.alloc 0 ⟨1, true⟩, .advance 0, .advance 0, .advance 0, .alloc 1 ⟨2, true⟩, .advance 1, .advance 1,
    .advance 1, .advance 1, .advance 1, .free 0 0]

example : (poolRun ⟨2, 1, 1, 1, by decide, by decide⟩ handOver).phase 2 = .parked ∧
    (poolRun ⟨2, 1, 1, 1, by decide, by decide⟩ handOver).waiting 2 = true := by decide

example : (poolRun ⟨2, 1, 1, 1, by decide, by decide⟩
    (handOver ++ [.advance 0, .advance 0])).waiting 2 = false := by decide

end Linux318.Guarantees
