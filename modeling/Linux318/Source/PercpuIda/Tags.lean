import Linux318.Source.PercpuIda.Pool
import Mathlib.Algebra.BigOperators.Group.Finset.Basic
import Mathlib.Tactic.Abel

/-!
Where the tags are. Every tag is in one freelist or held, the freelists of the CPUs have room, and
`steal_tags` always finds the bit that it counted.
-/
namespace Linux318.Source.PercpuIda
open Function List

variable {pc : Pc} {mask mask' : Nat → Bool} {cpu tag remote next left n : Nat} {s : Pool}
  {caller : Caller} {rest : List Nat}

variable {cfg : Config}

def Pc.Locked : Pc → Prop
  | .stealWeight _ | .stealNext .. | .stealFirst .. | .stealClear .. | .stealRemote .. | .allocTake _
  | .allocSet _ | .allocUnlock .. => True
  | _ => False

def Pc.Room (cfg : Config) : Pc → Nat → Prop
  | .idle, n | .allocLock _, n | .allocSet _, n | .allocUnlock .., n => n < cfg.maxSize
  | .stealWeight _, n | .stealNext .., n | .stealFirst .., n | .stealClear .., n | .stealRemote .., n =>
    n = 0
  | .allocTake _, n | .freeLock, n => n ≤ cfg.maxSize
  | .freeSet nrFree, n | .freeWake nrFree, n => n ≤ nrFree ∧ nrFree ≤ cfg.maxSize
  | .bug, _ => False

/-- The rounds of `steal_tags` that are left find a bit each. -/
def Pc.Finds (cfg : Config) (mask : Nat → Bool) (cpu : Nat) : Pc → Prop
  | .stealNext _ left _ => left ≤ weight cfg mask
  | .stealFirst _ left => 0 < left ∧ left ≤ weight cfg mask
  | .stealClear _ left next => 0 < left ∧ left ≤ weight cfg mask ∧ next < cfg.nrCpus ∧ mask next
  | .stealRemote _ left next => 0 < left ∧ left ≤ weight cfg mask + 1 ∧ next < cfg.nrCpus ∧ next ≠ cpu
  | _ => True

def Pool.cpuTags (cfg : Config) (s : Pool) : Multiset Nat :=
  ∑ c ∈ Finset.range cfg.nrCpus, (s.lists c : Multiset Nat)

structure Pool.Ok (cfg : Config) (s : Pool) : Prop where
  tags : (s.freelist : Multiset Nat) + s.cpuTags cfg + s.held = Multiset.range cfg.nrTags
  room : ∀ c, (s.pc c).Room cfg (s.lists c).length
  lock : ∀ c, (s.pc c).Locked ↔ s.lock = some c
  finds : ∀ c, (s.pc c).Finds cfg s.cpusHaveTags c

theorem Config.max_pos (cfg : Config) : 0 < cfg.maxSize :=
  Nat.lt_of_lt_of_le cfg.batch_pos cfg.batch_le

theorem Pc.Room.zero (room : pc.Room cfg n) : pc.Room cfg 0 := by
  have := cfg.max_pos
  cases pc <;> simp_all [Pc.Room]

theorem Pc.Room.le (room : pc.Room cfg n) : n ≤ cfg.maxSize := by
  cases pc <;> simp only [Pc.Room] at room <;> omega

theorem weight_mono (more : ∀ c, mask c → mask' c) : weight cfg mask ≤ weight cfg mask' :=
  countP_mono_left fun c _ => more c

theorem weight_clear (bit : mask cpu) (inside : cpu < cfg.nrCpus) :
    weight cfg mask = weight cfg (update mask cpu false) + 1 := by
  have mem : cpu ∈ List.range cfg.nrCpus := mem_range.mpr inside
  have nodup : (List.range cfg.nrCpus).Nodup := nodup_range
  unfold weight
  generalize List.range cfg.nrCpus = l at mem nodup
  induction l with
  | nil => cases mem
  | cons c l ih =>
    obtain ⟨fresh, nodup⟩ := nodup_cons.mp nodup
    by_cases same : c = cpu
    · subst same
      have rest : l.countP (fun c' => update mask c false c') = l.countP fun c' => mask c' :=
        countP_congr fun c' member' => by
          simp [update_of_ne (ne_of_mem_of_not_mem member' fresh)]
      simp [bit, rest]
    · have inTail := (mem_cons.mp mem).resolve_left (Ne.symm same)
      simp only [countP_cons, ih inTail nodup, update_of_ne same]
      omega

theorem cpumaskNext_some (found : cpumaskNext cfg mask cpu = some next) :
    next < cfg.nrCpus ∧ mask next := by
  have mem := mem_of_find?_eq_some found
  have bit := List.find?_some found
  exact ⟨mem_range.mp mem, by simpa using (decide_eq_true_iff.mp bit).2⟩

theorem cpumaskFirst_some (found : cpumaskFirst cfg mask = some next) :
    next < cfg.nrCpus ∧ mask next :=
  ⟨mem_range.mp (mem_of_find?_eq_some found), List.find?_some found⟩

theorem cpumaskFirst_none (missing : cpumaskFirst cfg mask = none) : weight cfg mask = 0 :=
  countP_eq_zero.mpr (List.find?_eq_none.mp missing)

/-- The lists of the other CPUs stay when the one of a CPU is set. -/
theorem cpuTags_setList (s : Pool) (inside : cpu < cfg.nrCpus) :
    ∃ others : Multiset Nat, s.cpuTags cfg = s.lists cpu + others ∧
      ∀ l : List Nat, (s.setList cpu l).cpuTags cfg = l + others := by
  refine ⟨∑ c ∈ (Finset.range cfg.nrCpus).erase cpu, (s.lists c : Multiset Nat),
    (Finset.add_sum_erase _ _ (Finset.mem_range.mpr inside)).symm, fun l => ?_⟩
  rw [Pool.cpuTags, ← Finset.add_sum_erase _ _ (Finset.mem_range.mpr inside)]
  refine congrArg₂ (· + ·) ?_ (Finset.sum_congr rfl fun c mem => ?_)
  · exact congrArg _ (update_self ..)
  · exact congrArg _ (update_of_ne (Finset.ne_of_mem_erase mem) ..)

theorem tags_pop (inside : cpu < cfg.nrCpus) (top : s.lists cpu = tag :: rest) :
    (s.freelist : Multiset Nat) + (s.setList cpu rest).cpuTags cfg + (tag :: s.held : List Nat) =
      s.freelist + s.cpuTags cfg + s.held := by
  obtain ⟨others, before, after⟩ := cpuTags_setList s inside
  rw [before, after, top, ← Multiset.cons_coe, ← Multiset.cons_coe, ← Multiset.singleton_add,
    ← Multiset.singleton_add]
  abel

theorem tags_push (inside : cpu < cfg.nrCpus) (held : tag ∈ s.held) :
    (s.freelist : Multiset Nat) + (s.setList cpu (tag :: s.lists cpu)).cpuTags cfg +
        (s.held.erase tag : List Nat) = s.freelist + s.cpuTags cfg + s.held := by
  obtain ⟨others, before, after⟩ := cpuTags_setList s inside
  have split : (s.held : Multiset Nat) = {tag} + (s.held.erase tag : List Nat) := by
    rw [← Multiset.coe_erase, Multiset.singleton_add, Multiset.cons_erase (Multiset.mem_coe.mpr held)]
  rw [before, after, split, ← Multiset.cons_coe, ← Multiset.singleton_add]
  abel

theorem coe_take_add_drop (n : Nat) (l : List Nat) :
    (l.take n : Multiset Nat) + (l.drop n : List Nat) = l := by
  rw [Multiset.coe_add, take_append_drop]

theorem tags_fromGlobal (inside : cpu < cfg.nrCpus) (empty : s.lists cpu = [])
    (n : Nat) : (s.freelist.drop n : Multiset Nat) + (s.setList cpu (s.freelist.take n)).cpuTags cfg +
      s.held = s.freelist + s.cpuTags cfg + s.held := by
  obtain ⟨others, before, after⟩ := cpuTags_setList s inside
  rw [before, after, empty, ← coe_take_add_drop n s.freelist]
  abel

theorem tags_toGlobal (inside : cpu < cfg.nrCpus) (n : Nat) :
    (((s.lists cpu).take n ++ s.freelist : List Nat) : Multiset Nat) +
        (s.setList cpu ((s.lists cpu).drop n)).cpuTags cfg + s.held =
      s.freelist + s.cpuTags cfg + s.held := by
  obtain ⟨others, before, after⟩ := cpuTags_setList s inside
  rw [before, after, ← Multiset.coe_add, ← coe_take_add_drop n (s.lists cpu)]
  abel

theorem tags_steal (inside : cpu < cfg.nrCpus)
    (inside' : remote < cfg.nrCpus) (other : remote ≠ cpu) (empty : s.lists cpu = []) :
    ((s.setList cpu (s.lists remote)).setList remote []).cpuTags cfg = s.cpuTags cfg := by
  obtain ⟨others, before, after⟩ := cpuTags_setList s inside
  obtain ⟨others', before', after'⟩ := cpuTags_setList (s.setList cpu (s.lists remote)) inside'
  have same : (s.setList cpu (s.lists remote)).lists remote = s.lists remote :=
    update_of_ne other ..
  rw [after, same] at before'
  rw [after', before, empty, add_left_cancel before']

theorem Pc.Finds.of_not_locked (free : ¬ pc.Locked) : pc.Finds cfg mask cpu := by
  cases pc <;> simp_all [Pc.Finds, Pc.Locked]

theorem Pc.Finds.mono (finds : pc.Finds cfg mask cpu) (more : ∀ c, mask c → mask' c) :
    pc.Finds cfg mask' cpu := by
  have heavier : weight cfg mask ≤ weight cfg mask' := weight_mono more
  cases pc with
  | stealNext caller left last => exact finds.trans heavier
  | stealFirst caller left => exact ⟨finds.1, finds.2.trans heavier⟩
  | stealClear caller left next =>
    exact ⟨finds.1, finds.2.1.trans heavier, finds.2.2.1, more next finds.2.2.2⟩
  | stealRemote caller left next =>
    exact ⟨finds.1, finds.2.1.trans (Nat.succ_le_succ heavier), finds.2.2⟩
  | _ => trivial

structure StepOf (cfg : Config) (s s' : Pool) (cpu : Nat) (pc' : Pc) : Prop where
  pc : s'.pc = update s.pc cpu pc'
  tags : (s'.freelist : Multiset Nat) + s'.cpuTags cfg + s'.held =
    s.freelist + s.cpuTags cfg + s.held
  others : ∀ c, c ≠ cpu → s'.lists c = s.lists c ∨ s'.lists c = []
  lock : ∀ c, c ≠ cpu → (s'.lock = some c ↔ s.lock = some c)
  bits : (s.pc cpu).Locked ∨ ∀ c, s.cpusHaveTags c → s'.cpusHaveTags c

theorem Pool.Ok.step {s' : Pool} (ok : s.Ok cfg) {pc' : Pc} (step : StepOf cfg s s' cpu pc')
    (room : pc'.Room cfg (s'.lists cpu).length) (lock : pc'.Locked ↔ s'.lock = some cpu)
    (finds : pc'.Finds cfg s'.cpusHaveTags cpu) : s'.Ok cfg := by
  refine ⟨step.tags.trans ok.tags, fun c => ?_, fun c => ?_, fun c => ?_⟩
  all_goals
    rw [step.pc]
    by_cases here : c = cpu
  · subst here
    rwa [update_self]
  · rw [update_of_ne here]
    rcases step.others c here with same | empty
    · rw [same]
      exact ok.room c
    · rw [empty]
      exact (ok.room c).zero
  · subst here
    rwa [update_self]
  · rw [update_of_ne here, step.lock c here]
    exact ok.lock c
  · subst here
    rwa [update_self]
  · rw [update_of_ne here]
    rcases step.bits with locked | more
    · refine .of_not_locked fun locked' => here ?_
      have := ((ok.lock c).mp locked').symm.trans ((ok.lock cpu).mp locked)
      exact Option.some.inj this
    · exact (ok.finds c).mono more

theorem stepOf_goto (s : Pool) (cpu : Nat) (pc' : Pc) : StepOf cfg s (s.goto cpu pc') cpu pc' :=
  ⟨rfl, rfl, fun _ _ => .inl rfl, fun _ _ => Iff.rfl, .inr fun _ => id⟩

theorem stepOf_setBit (s : Pool) (cpu : Nat) (pc' : Pc) :
    StepOf cfg s ((s.setBit cpu true).goto cpu pc') cpu pc' := by
  refine ⟨rfl, rfl, fun _ _ => .inl rfl, fun _ _ => Iff.rfl, .inr fun c bit => ?_⟩
  show update s.cpusHaveTags cpu true c = true
  rw [update_apply]
  split_ifs
  · rfl
  · exact bit

theorem stepOf_pop (inside : cpu < cfg.nrCpus) (top : s.lists cpu = tag :: rest) (pc' : Pc) :
    StepOf cfg s (({ s.setList cpu rest with held := tag :: s.held }).goto cpu pc') cpu pc' :=
  ⟨rfl, tags_pop inside top, fun _ other => .inl (update_of_ne other ..), fun _ _ => Iff.rfl,
    .inr fun _ => id⟩

section
variable (ok : s.Ok cfg)
include ok

section
variable (inside : cpu < cfg.nrCpus)
include inside

theorem allocStart_ok (idle : s.pc cpu = .idle) (caller : Caller) :
    (s.allocStart cpu caller).Ok cfg := by
  have room := ok.room cpu
  have unlocked := (ok.lock cpu).not.mp (by simp [idle, Pc.Locked])
  rw [idle] at room
  unfold Pool.allocStart
  split
  · rename_i tag rest top
    have same : s.pc = update s.pc cpu .idle := by rw [← idle, update_eq_self]
    refine ok.step ⟨same, tags_pop inside top, ?_, fun _ _ => Iff.rfl, .inr fun _ => id⟩ ?_ ?_ trivial
    · exact fun _ other => .inl (update_of_ne other ..)
    · rw [top] at room
      simp only [Pool.setList, update_self]
      exact Nat.lt_of_succ_lt room
    · exact iff_of_false id unlocked
  · exact ok.step ⟨rfl, rfl, fun _ _ => .inl rfl, fun _ _ => Iff.rfl, .inr fun _ => id⟩ room
      (iff_of_false id unlocked) trivial

theorem freeStart_ok (idle : s.pc cpu = .idle) (held : tag ∈ s.held) :
    (s.freeStart cfg cpu tag).Ok cfg := by
  have room : (s.lists cpu).length < cfg.maxSize := by
    have := ok.room cpu
    rwa [idle] at this
  have unlocked := (ok.lock cpu).not.mp (by simp [idle, Pc.Locked])
  have length : (update s.lists cpu (tag :: s.lists cpu) cpu).length =
      (s.lists cpu).length + 1 := by
    rw [update_self, length_cons]
  refine ok.step ⟨rfl, tags_push inside held, fun _ other => .inl (update_of_ne other ..),
    fun _ _ => Iff.rfl, .inr fun _ => id⟩ ?_ ?_ ?_
  · show Pc.Room cfg _ (update s.lists cpu (tag :: s.lists cpu) cpu).length
    rw [length]
    split_ifs
    · exact ⟨Nat.le_refl _, room⟩
    · exact room
    · exact Nat.lt_of_le_of_ne room ‹_›
  · split_ifs <;> exact iff_of_false id unlocked
  · split_ifs <;> trivial

theorem freeGlobal_ok (here : s.pc cpu = .freeLock) : (s.freeGlobal cfg cpu).Ok cfg := by
  have room : (s.lists cpu).length ≤ cfg.maxSize := by
    have := ok.room cpu
    rwa [here] at this
  have unlocked := (ok.lock cpu).not.mp (by simp [here, Pc.Locked])
  unfold Pool.freeGlobal
  split
  · refine ok.step ⟨rfl, tags_toGlobal inside _, fun _ other => .inl (update_of_ne other ..),
      fun _ _ => Iff.rfl, .inr fun _ => id⟩ ?_ (iff_of_false id unlocked) trivial
    show (update s.lists cpu ((s.lists cpu).drop cfg.batchSize) cpu).length < cfg.maxSize
    have := cfg.batch_pos
    have := cfg.max_pos
    rw [update_self, length_drop]
    omega
  · exact ok.step (stepOf_goto ..) (Nat.lt_of_le_of_ne room ‹_›) (iff_of_false id unlocked) trivial

theorem allocGlobal_ok (here : s.pc cpu = .allocLock caller) (free : s.lock = none) :
    (s.allocGlobal cfg cpu caller).Ok cfg := by
  have room : (s.lists cpu).length < cfg.maxSize := by
    have := ok.room cpu
    rwa [here] at this
  have lock : ∀ c, c ≠ cpu → (some cpu = some c ↔ s.lock = some c) := fun c other => by
    rw [free]
    exact iff_of_false (fun same => other (Option.some.inj same).symm) (by simp)
  simp only [Pool.allocGlobal]
  split
  · exact ok.step ⟨rfl, rfl, fun _ _ => .inl rfl, lock, .inr fun _ => id⟩ room.le
      (iff_of_true trivial rfl) trivial
  rename_i empty
  have empty : s.lists cpu = [] := not_not.mp empty
  refine ok.step ⟨rfl, tags_fromGlobal inside empty _,
    fun _ other => .inl (update_of_ne other ..), lock, .inr fun _ => id⟩ ?_ ?_ ?_
  · show Pc.Room cfg _ (update s.lists cpu (s.freelist.take cfg.batchSize) cpu).length
    rw [update_self]
    show Pc.Room cfg (if s.freelist.take cfg.batchSize = [] then _ else _) _
    split_ifs with none
    · rw [none]
      rfl
    · exact Nat.le_trans (length_take_le ..) cfg.batch_le
  · split_ifs <;> exact iff_of_true trivial rfl
  · split_ifs <;> trivial

end

theorem stealFrom_ok (inside : cpu < cfg.nrCpus)
    (here : s.pc cpu = .stealRemote caller left remote) :
    (s.stealFrom cpu caller left remote).Ok cfg := by
  have empty : s.lists cpu = [] := by
    have := ok.room cpu
    rw [here] at this
    exact length_eq_zero_iff.mp this
  obtain ⟨some, counted, inside', other⟩ : 0 < left ∧ left ≤ weight cfg s.cpusHaveTags + 1 ∧
      remote < cfg.nrCpus ∧ remote ≠ cpu := by
    have := ok.finds cpu
    rwa [here] at this
  have locked := (ok.lock cpu).mp (by simp [here, Pc.Locked])
  unfold Pool.stealFrom
  split
  · refine ok.step (stepOf_goto ..) ?_ (iff_of_true trivial locked) ?_
    · exact length_eq_zero_iff.mpr empty
    · show left - 1 ≤ weight cfg s.cpusHaveTags
      omega
  refine ok.step ⟨rfl, ?_, ?_, fun _ _ => Iff.rfl, .inr fun _ => id⟩ ?_ (iff_of_true trivial locked)
    trivial
  · exact congrArg (fun m => (s.freelist : Multiset Nat) + m + s.held)
      (tags_steal inside inside' other empty)
  · intro c notHere
    by_cases same : c = remote
    · subst same
      exact .inr (update_self ..)
    · exact .inl ((update_of_ne same ..).trans (update_of_ne notHere ..))
  · show ((update (update s.lists cpu (s.lists remote)) remote []) cpu).length ≤ cfg.maxSize
    rw [update_of_ne other.symm, update_self]
    exact (ok.room remote).le

theorem allocEnd_ok {found : Bool}
    (here : s.pc cpu = .allocUnlock caller found) : (s.allocEnd cpu caller found).Ok cfg := by
  have room := ok.room cpu
  rw [here] at room
  have locked := (ok.lock cpu).mp (by simp [here, Pc.Locked])
  have lock : ∀ c, c ≠ cpu → (none = some c ↔ s.lock = some c) := fun c other => by
    rw [locked]
    exact iff_of_false (by simp) fun same => other (Option.some.inj same).symm
  simp only [Pool.allocEnd]
  split
  · exact ok.step ⟨rfl, rfl, fun _ _ => .inl rfl, lock, .inr fun _ => id⟩ room
      (iff_of_false id (by simp [Pool.goto, Pool.setPhase])) trivial
  · exact ok.step ⟨rfl, rfl, fun _ _ => .inl rfl, lock, .inr fun _ => id⟩ room
      (iff_of_false id (by simp [Pool.goto, Pool.setPhase])) trivial

/-- `steal_tags` takes a bit away. -/
theorem stealClear_ok (here : s.pc cpu = .stealClear caller left remote) :
    (({ s.setBit remote false with cpuLastStolen := remote }).goto cpu
      (if remote = cpu then .stealNext caller (left - 1) remote
        else .stealRemote caller left remote)).Ok cfg := by
  have room := ok.room cpu
  have locked := (ok.lock cpu).mp (by simp [here, Pc.Locked])
  obtain ⟨some, counted, inside, bit⟩ : 0 < left ∧ left ≤ weight cfg s.cpusHaveTags ∧
      remote < cfg.nrCpus ∧ s.cpusHaveTags remote := by
    have := ok.finds cpu
    rwa [here] at this
  rw [here] at room
  have lighter := weight_clear bit inside
  refine ok.step ⟨rfl, rfl, fun _ _ => .inl rfl, fun _ _ => Iff.rfl, .inl (by simp [here, Pc.Locked])⟩
    ?_ ?_ ?_
  · split_ifs <;> exact room
  · split_ifs <;> exact iff_of_true trivial locked
  show Pc.Finds cfg (update s.cpusHaveTags remote false) cpu _
  split_ifs with same
  · show left - 1 ≤ _
    omega
  · exact ⟨some, by omega, inside, same⟩

theorem advance_ok (inside : cpu < cfg.nrCpus) : (s.advance cfg cpu).Ok cfg := by
  have room := ok.room cpu
  have lock := ok.lock cpu
  have finds := ok.finds cpu
  unfold Pool.advance
  split
  all_goals
    rename_i here
    rw [here] at room lock finds
  · exact ok
  · split
    · exact allocGlobal_ok ok inside here ‹_›
    · exact ok
  · exact ok.step (stepOf_goto ..) room (iff_of_true trivial (lock.mp trivial)) (Nat.le_refl _)
  · have locked := iff_of_true trivial (lock.mp trivial)
    split
    · exact ok.step (stepOf_goto ..) room.le locked trivial
    have some := Nat.pos_of_ne_zero ‹_›
    split
    · exact ok.step (stepOf_goto ..) room locked ⟨some, finds, cpumaskNext_some ‹_›⟩
    · exact ok.step (stepOf_goto ..) room locked ⟨some, finds⟩
  · have locked := iff_of_true trivial (lock.mp trivial)
    split
    · exact ok.step (stepOf_goto ..) room locked ⟨finds.1, finds.2, cpumaskFirst_some ‹_›⟩
    -- a bit was counted and none has been taken away
    have none := cpumaskFirst_none ‹_›
    have := finds.1
    have := finds.2
    omega
  · exact stealClear_ok ok here
  · exact stealFrom_ok ok inside here
  · have locked := lock.mp trivial
    split
    · rename_i empty
      refine ok.step (stepOf_goto ..) ?_ (iff_of_true trivial locked) trivial
      show (s.lists cpu).length < cfg.maxSize
      rw [empty]
      exact cfg.max_pos
    rename_i tag rest top
    refine ok.step (stepOf_pop inside top _) ?_ ?_ ?_
    · show Pc.Room cfg _ (update s.lists cpu rest cpu).length
      rw [top] at room
      rw [update_self]
      split_ifs <;> exact room
    · split_ifs <;> exact iff_of_true trivial locked
    · split_ifs <;> trivial
  · exact ok.step (stepOf_setBit ..) room (iff_of_true trivial (lock.mp trivial)) trivial
  · exact allocEnd_ok ok here
  · exact ok.step (stepOf_setBit ..) room (iff_of_false id (lock.not.mp id)) trivial
  · refine ok.step ⟨rfl, rfl, fun _ _ => .inl rfl, fun _ _ => Iff.rfl, .inr fun _ => id⟩ ?_ ?_ ?_
    · split_ifs with full
      · exact Nat.le_trans room.1 room.2
      · exact Nat.lt_of_le_of_lt room.1 (Nat.lt_of_le_of_ne room.2 full)
    · split_ifs <;> exact iff_of_false id (lock.not.mp id)
    · split_ifs <;> trivial
  · split
    · exact freeGlobal_ok ok inside here
    · exact ok
  · exact ok

theorem next_ok (event : PoolEvent) : (s.next cfg event).Ok cfg := by
  cases event with
  | alloc cpu caller =>
    rw [Pool.next]
    split_ifs with can
    · exact allocStart_ok ok can.1 can.2.1 caller
    · exact ok
  | free cpu tag =>
    rw [Pool.next]
    split_ifs with can
    · exact freeStart_ok ok can.1 can.2.1 can.2.2
    · exact ok
  | advance cpu =>
    rw [Pool.next]
    split_ifs with inside
    · exact advance_ok ok inside
    · exact ok
  | resume cpu task =>
    rw [Pool.next]
    split_ifs with can
    · have room := ok.room cpu
      have unlocked := (ok.lock cpu).not.mp (by simp [can.2.1, Pc.Locked])
      rw [can.2.1] at room
      exact ok.step ⟨rfl, rfl, fun _ _ => .inl rfl, fun _ _ => Iff.rfl, .inr fun _ => id⟩ room
        (iff_of_false id unlocked) trivial
    · exact ok
  | signal task =>
    rw [Pool.next]
    split_ifs
    · exact ⟨ok.tags, ok.room, ok.lock, ok.finds⟩
    · exact ok

/-- Only a taken lock holds a CPU up. -/
theorem advance_pc_ne (free : (s.pc cpu).Locked ∨ s.lock = none ∧ s.pc cpu ≠ .idle) :
    (s.advance cfg cpu).pc cpu ≠ s.pc cpu := by
  have room := ok.room cpu
  unfold Pool.advance Pool.allocGlobal Pool.stealFrom Pool.freeGlobal
  cases here : s.pc cpu <;> dsimp only <;> repeat' split
  all_goals simp_all [Pc.Locked, Pc.Room, Pool.goto, Pool.allocEnd]

end

theorem initPool_ok (cfg : Config) : (initPool cfg).Ok cfg := by
  refine ⟨?_, fun c => cfg.max_pos, fun c => iff_of_false id (by simp [initPool]), fun c => trivial⟩
  simp [initPool, Pool.cpuTags, Multiset.range]

end Linux318.Source.PercpuIda
