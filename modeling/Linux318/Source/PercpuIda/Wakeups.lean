import Linux318.Source.PercpuIda.Tags

/-!
Who is awake. A task that has looked for tags without being woken has found none, unless a call of
`percpu_ida_free` is still to wake it.
-/
namespace Linux318.Source.PercpuIda
open Function List

variable {s s' : Pool} {cpu nrFree task tag c : Nat} {pc pc' : Pc} {caller : Caller}

variable {cfg : Config}

def Pc.caller? : Pc → Option Caller
  | .allocLock caller | .stealWeight caller | .stealNext caller _ _ | .stealFirst caller _
  | .stealClear caller _ _ | .stealRemote caller _ _ | .allocTake caller | .allocSet caller
  | .allocUnlock caller _ => some caller
  | _ => none

def Pc.Wakes : Pc → Prop
  | .freeSet _ | .freeWake _ => True
  | _ => False

def Pc.Marks : Pc → Prop
  | .freeSet _ | .allocTake _ | .allocSet _ => True
  | _ => False

def Pc.StealsFrom : Pc → Nat → Prop
  | .stealRemote _ _ remote, c => remote = c
  | _, _ => False

def Pool.Pending (s : Pool) : Prop := ∃ c, (s.pc c).Wakes

def Pool.Empty (cfg : Config) (s : Pool) : Prop :=
  s.freelist = [] ∧ ∀ c < cfg.nrCpus, s.lists c = []

/-- The bits of all CPUs with tags are set, apart from one of them. -/
def Pool.MarkedBut (cfg : Config) (s : Pool) (but : Option Nat) : Prop :=
  ∀ c < cfg.nrCpus, some c ≠ but → s.lists c ≠ [] → s.cpusHaveTags c

/-- What is known when nobody is woken during the search for tags. -/
def Pool.Searched (cfg : Config) (s : Pool) (cpu : Nat) : Pc → Prop
  | .stealWeight _ => s.freelist = [] ∧ s.MarkedBut cfg none
  | .stealNext _ left _ | .stealFirst _ left | .stealClear _ left _ =>
    s.freelist = [] ∧ left = weight cfg s.cpusHaveTags ∧ s.MarkedBut cfg none
  | .stealRemote _ left remote =>
    s.freelist = [] ∧ left = weight cfg s.cpusHaveTags + 1 ∧ s.MarkedBut cfg (some remote)
  | .allocTake _ => s.lists cpu ≠ [] ∨ s.Empty cfg
  | .allocUnlock _ false => s.Empty cfg
  | _ => True

/-- Every CPU with tags is marked, or it will be, or its tags are being stolen. -/
def Pool.Marked (cfg : Config) (s : Pool) : Prop :=
  ∀ c < cfg.nrCpus, s.lists c ≠ [] →
    s.cpusHaveTags c ∨ (s.pc c).Marks ∨ ∃ h, (s.pc h).StealsFrom c

structure Pool.Awake (cfg : Config) (s : Pool) : Prop where
  onCpu : ∀ c caller, (s.pc c).caller? = some caller → s.phase caller.task = .onCpu c
  bits : s.Marked cfg
  search : ∀ c caller, (s.pc c).caller? = some caller → caller.sleeps → s.waiting caller.task →
    s.Pending ∨ s.Searched cfg c (s.pc c)
  sleep : ∀ task, s.phase task = .parked → s.waiting task → s.Pending ∨ s.Empty cfg

theorem Pool.Searched.of_not_locked (free : ¬ pc.Locked) : s.Searched cfg cpu pc := by
  cases pc <;> simp_all [Pool.Searched, Pc.Locked]

structure Leaves (cfg : Config) (s s' : Pool) (cpu : Nat) (pc' : Pc) : Prop where
  pc : s'.pc = update s.pc cpu pc'
  onCpu : ∀ c task, c ≠ cpu → s.phase task = .onCpu c → s'.phase task = .onCpu c
  waiting : ∀ task, s'.waiting task → s.waiting task ∨ s'.phase task = .onCpu cpu
  pending : ∀ task, s'.waiting task → s.Pending → s'.Pending
  empty : s.Empty cfg → s'.Pending ∨ s'.Empty cfg
  search : ∀ c, c ≠ cpu → s.Searched cfg c (s.pc c) → s'.Pending ∨ s'.Searched cfg c (s.pc c)

theorem Pool.Awake.step (awake : s.Awake cfg) (leaves : Leaves cfg s s' cpu pc')
    (onCpu : ∀ caller, pc'.caller? = some caller → s'.phase caller.task = .onCpu cpu)
    (bits : s'.Marked cfg)
    (search : ∀ caller, pc'.caller? = some caller → caller.sleeps → s'.waiting caller.task →
      s'.Pending ∨ s'.Searched cfg cpu pc')
    (sleep : ∀ task, s'.phase task = .parked → s'.waiting task →
      s.phase task = .parked ∨ s'.Pending ∨ s'.Empty cfg) : s'.Awake cfg := by
  refine ⟨fun c caller at_ => ?_, bits, fun c caller at_ sleeps waits =>
    ?_, fun task parked waits => ?_⟩
  · rw [leaves.pc] at at_
    by_cases here : c = cpu
    · subst here
      rw [update_self] at at_
      exact onCpu caller at_
    · rw [update_of_ne here] at at_
      exact leaves.onCpu c _ here (awake.onCpu c caller at_)
  · rw [leaves.pc] at at_ ⊢
    by_cases here : c = cpu
    · subst here
      rw [update_self] at at_ ⊢
      exact search caller at_ sleeps waits
    rw [update_of_ne here] at at_ ⊢
    have there := leaves.onCpu c _ here (awake.onCpu c caller at_)
    rcases leaves.waiting _ waits with waits' | here'
    · rcases awake.search c caller at_ sleeps waits' with pending | searched
      · exact .inl (leaves.pending _ waits pending)
      · exact leaves.search c here searched
    · rw [there] at here'
      cases here'
      exact absurd rfl here
  · rcases sleep task parked waits with parked' | done
    · rcases leaves.waiting _ waits with waits' | here'
      · rcases awake.sleep task parked' waits' with pending | empty
        · exact .inl (leaves.pending _ waits pending)
        · exact leaves.empty empty
      · rw [parked] at here'
        cases here'
    · exact done

theorem Pool.Pending.update (pending : s.Pending)
    (next : s'.pc = update s.pc cpu pc') (goes : (s.pc cpu).Wakes → pc'.Wakes) : s'.Pending := by
  obtain ⟨c, wakes⟩ := pending
  refine ⟨c, ?_⟩
  rw [next]
  by_cases here : c = cpu
  · subst here
    rw [update_self]
    exact goes wakes
  · rwa [update_of_ne here]

theorem others_unlocked (ok : s.Ok cfg) (lock : s.lock = none ∨ s.lock = some cpu)
    (other : c ≠ cpu) : ¬ (s.pc c).Locked := by
  intro locked
  have held := (ok.lock c).mp locked
  rcases lock with free | here
  · rw [free] at held
    cases held
  · rw [here] at held
    exact other (Option.some.inj held).symm

/-- Nobody else looks for tags in the meantime. -/
theorem leaves_of_lock (ok : s.Ok cfg) (lock : s.lock = none ∨ s.lock = some cpu)
    (next : s'.pc = update s.pc cpu pc') (quiet : (s.pc cpu).Wakes → pc'.Wakes)
    (onCpu : ∀ c task, c ≠ cpu → s.phase task = .onCpu c → s'.phase task = .onCpu c)
    (waiting : ∀ task, s'.waiting task → s.waiting task ∨ s'.phase task = .onCpu cpu)
    (empty : s.Empty cfg → s'.Pending ∨ s'.Empty cfg) : Leaves cfg s s' cpu pc' where
  pc := next
  onCpu := onCpu
  waiting := waiting
  pending _ _ pending := pending.update next quiet
  empty := empty
  search _ other _ := .inr (.of_not_locked (others_unlocked ok lock other))

/-- After a step, a CPU with tags is marked, or it will be, or it had tags before. -/
def Accounted (cfg : Config) (s s' : Pool) (cpu : Nat) (pc pc' : Pc) : Prop :=
  ∀ c < cfg.nrCpus, s'.lists c ≠ [] →
    s'.cpusHaveTags c ∨ (c = cpu ∧ pc'.Marks) ∨ pc'.StealsFrom c ∨
      s.lists c ≠ [] ∧ (s.cpusHaveTags c → s'.cpusHaveTags c) ∧ (c = cpu → ¬ pc.Marks) ∧
        ¬ pc.StealsFrom c

theorem bits_step (awake : s.Awake cfg) (here : s.pc cpu = pc) (next : s'.pc = update s.pc cpu pc')
    (each : Accounted cfg s s' cpu pc pc') : s'.Marked cfg := by
  subst here
  intro c inside tags
  rw [next]
  rcases each c inside tags with bit | ⟨rfl, marks⟩ | steals | ⟨tags', keeps, unmarked, kept⟩
  · exact .inl bit
  · exact .inr (.inl (by rwa [update_self]))
  · exact .inr (.inr ⟨cpu, by rwa [update_self]⟩)
  rcases awake.bits c inside tags' with bit | marked | ⟨h, stolen⟩
  · exact .inl (keeps bit)
  · have other : c ≠ cpu := fun here => unmarked here (here ▸ marked)
    exact .inr (.inl (by rwa [update_of_ne other]))
  · have other : h ≠ cpu := fun here => kept (here ▸ stolen)
    exact .inr (.inr ⟨h, by rwa [update_of_ne other]⟩)

/-- A step of the CPU that holds the lock; the task it runs stays. -/
theorem Pool.Awake.locked (ok : s.Ok cfg) (awake : s.Awake cfg) (here : s.pc cpu = pc)
    (locked : pc.Locked) (next : s'.pc = update s.pc cpu pc') (phase : s'.phase = s.phase)
    (waiting : s'.waiting = s.waiting) (caller : pc'.caller? = pc.caller?)
    (empty : s.Empty cfg → s'.Pending ∨ s'.Empty cfg) (each : Accounted cfg s s' cpu pc pc')
    (search : s.Searched cfg cpu pc → s'.Searched cfg cpu pc') : s'.Awake cfg := by
  have lock := (ok.lock cpu).mp (here ▸ locked)
  have quiet : (s.pc cpu).Wakes → pc'.Wakes := by
    cases pc <;> simp_all [Pc.Locked, Pc.Wakes]
  have running {c : Caller} (at_ : pc'.caller? = some c) : (s.pc cpu).caller? = some c := by
    rw [here, ← caller, at_]
  refine awake.step (leaves_of_lock ok (.inr lock) next quiet (fun _ _ _ => phase ▸ id)
    (fun _ waits => .inl (waiting ▸ waits)) empty)
      (fun c at_ => phase ▸ awake.onCpu cpu c (running at_))
    (bits_step awake here next each) (fun c at_ sleeps waits => ?_)
    fun task parked _ => .inl (phase ▸ parked)
  rcases awake.search cpu c (running at_) sleeps (waiting ▸ waits) with pending | searched
  · exact .inl (pending.update next quiet)
  · exact .inr (search (here ▸ searched))

theorem Pool.Awake.goto (ok : s.Ok cfg) (awake : s.Awake cfg) (here : s.pc cpu = pc)
    (locked : pc.Locked) (caller : pc'.caller? = pc.caller?) (marks : pc.Marks → s.lists cpu = [])
    (steals : ∀ c, pc.StealsFrom c → s.lists c = [])
    (search : s.Searched cfg cpu pc → s.Searched cfg cpu pc') : (s.goto cpu pc').Awake cfg := by
  refine awake.locked ok here locked rfl rfl rfl caller .inr (fun c _ tags => ?_) search
  refine .inr (.inr (.inr ⟨tags, id, ?_, fun stolen => tags (steals c stolen)⟩))
  rintro rfl marked
  exact tags (marks marked)

theorem empty_of_marked (marked : s.MarkedBut cfg none) (free : s.freelist = [])
    (none : weight cfg s.cpusHaveTags = 0) : s.Empty cfg := by
  refine ⟨free, fun c inside => ?_⟩
  by_contra tags
  have bit := marked c inside (by simp) tags
  exact countP_eq_zero.mp none c (mem_range.mpr inside) bit

section
variable (ok : s.Ok cfg) (awake : s.Awake cfg)
include ok awake

theorem stealClear_awake {left remote : Nat} (here : s.pc cpu = .stealClear caller left remote) :
    (({ s.setBit remote false with cpuLastStolen := remote }).goto cpu
      (if remote = cpu then .stealNext caller (left - 1) remote
        else .stealRemote caller left remote)).Awake cfg := by
  have empty : s.lists cpu = [] := by
    have := ok.room cpu
    rw [here] at this
    exact length_eq_zero_iff.mp this
  obtain ⟨_, _, inside, bit⟩ : 0 < left ∧ left ≤ weight cfg s.cpusHaveTags ∧
      remote < cfg.nrCpus ∧ s.cpusHaveTags remote := by
    have := ok.finds cpu
    rwa [here] at this
  have lighter := weight_clear bit inside
  refine awake.locked ok here trivial rfl rfl rfl (by split_ifs <;> rfl) .inr
    (fun c inside' tags => ?_) ?_
  · by_cases same : c = remote
    · subst same
      have other : c ≠ cpu := fun here' => tags (here' ▸ empty)
      rw [if_neg other]
      exact .inr (.inr (.inl rfl))
    · exact .inr (.inr (.inr ⟨tags, (update_of_ne same ..).trans, fun _ => id, id⟩))
  rintro ⟨free, counted, marked⟩
  have marked' : ∀ c < cfg.nrCpus, c ≠ remote → s.lists c ≠ [] →
      update s.cpusHaveTags remote false c = true := fun c inside' other tags =>
    (update_of_ne other ..).trans (marked c inside' (by simp) tags)
  split_ifs with own
  · refine ⟨free, ?_, fun c inside' _ tags => marked' c inside' ?_ tags⟩
    · show left - 1 = weight cfg (update s.cpusHaveTags remote false)
      omega
    · rintro rfl
      exact tags (own ▸ empty)
  · exact ⟨free, counted.trans lighter, fun c inside' other tags =>
      marked' c inside' (fun same => other (congrArg some same)) tags⟩

theorem stealFrom_awake {left remote : Nat} (here : s.pc cpu = .stealRemote caller left remote) :
    (s.stealFrom cpu caller left remote).Awake cfg := by
  obtain ⟨_, _, inside, other⟩ : 0 < left ∧ left ≤ weight cfg s.cpusHaveTags + 1 ∧
      remote < cfg.nrCpus ∧ remote ≠ cpu := by
    have := ok.finds cpu
    rwa [here] at this
  unfold Pool.stealFrom
  split
  · rename_i none
    refine awake.goto ok here trivial rfl False.elim ?_ ?_
    · rintro c rfl
      exact none
    rintro ⟨free, counted, marked⟩
    refine ⟨free, by omega, fun c inside' _ tags => marked c inside' ?_ tags⟩
    intro same
    exact tags (Option.some.inj same ▸ none)
  rename_i some
  have own : (update (update s.lists cpu (s.lists remote)) remote []) cpu = s.lists remote := by
    rw [update_of_ne other.symm, update_self]
  refine awake.locked ok here trivial rfl rfl rfl rfl (fun empty => absurd (empty.2 remote inside) some)
    (fun c inside' tags => ?_) fun _ => .inl fun none => some (own.symm.trans none)
  by_cases same : c = cpu
  · exact .inr (.inl ⟨same, trivial⟩)
  by_cases gone : c = remote
  · subst gone
    exact absurd (update_self ..) tags
  have kept : (update (update s.lists cpu (s.lists remote)) remote []) c = s.lists c := by
    rw [update_of_ne gone, update_of_ne same]
  exact .inr (.inr (.inr ⟨kept ▸ tags, id, fun here' => absurd here' same,
    fun stolen => gone (Eq.symm stolen)⟩))

theorem allocTake_awake (inside : cpu < cfg.nrCpus) {rest : List Nat}
    (here : s.pc cpu = .allocTake caller) (top : s.lists cpu = tag :: rest) :
    (({ s.setList cpu rest with held := tag :: s.held }).goto cpu
      (if rest = [] then .allocUnlock caller true else .allocSet caller)).Awake cfg := by
  refine awake.locked ok here trivial rfl rfl rfl (by split_ifs <;> rfl) (fun empty => ?_)
    (fun c inside' tags => ?_) fun _ => by split_ifs <;> trivial
  · have := empty.2 cpu inside
    rw [top] at this
    cases this
  by_cases same : c = cpu
  · subst same
    have more : rest ≠ [] := fun none => tags (by simp [Pool.goto, Pool.setList, none])
    rw [if_neg more]
    exact .inr (.inl ⟨rfl, trivial⟩)
  · have kept : update s.lists cpu rest c = s.lists c := update_of_ne same ..
    exact .inr (.inr (.inr ⟨kept ▸ tags, id, fun here' => absurd here' same, id⟩))

theorem allocSet_awake (here : s.pc cpu = .allocSet caller) :
    ((s.setBit cpu true).goto cpu (.allocUnlock caller true)).Awake cfg := by
  refine awake.locked ok here trivial rfl rfl rfl rfl .inr (fun c inside tags => ?_) fun _ => trivial
  by_cases same : c = cpu
  · subst same
    exact .inl (update_self ..)
  · exact .inr (.inr (.inr ⟨tags, (update_of_ne same ..).trans, fun here' => absurd here' same, id⟩))

theorem allocEnd_awake {found : Bool}
    (here : s.pc cpu = .allocUnlock caller found) : (s.allocEnd cpu caller found).Awake cfg := by
  have lock := (ok.lock cpu).mp (by rw [here]; trivial)
  have own : s.phase caller.task = .onCpu cpu := awake.onCpu cpu caller (by rw [here]; rfl)
  have keeps : ∀ phase c task, c ≠ cpu → s.phase task = .onCpu c →
      update s.phase caller.task phase task = .onCpu c := by
    intro phase c task other there
    refine (update_of_ne ?_ ..).trans there
    rintro rfl
    rw [own] at there
    cases there
    exact other rfl
  have bits : ∀ s' : Pool, s'.pc = update s.pc cpu .idle → s'.lists = s.lists →
      s'.cpusHaveTags = s.cpusHaveTags → s'.Marked cfg := by
    intro s' next lists mask
    exact bits_step awake here next fun c inside tags =>
      .inr (.inr (.inr ⟨lists ▸ tags, mask ▸ id, fun _ => id, id⟩))
  simp only [Pool.allocEnd]
  split
  · rename_i sleeps
    obtain ⟨missed, sleeps⟩ : found = false ∧ caller.sleeps := by simpa using sleeps
    subst missed
    refine awake.step (leaves_of_lock ok (.inr lock) rfl (by simp [here, Pc.Wakes]) (keeps _)
      (fun _ => .inl) .inr) (fun _ at_ => by cases at_) (bits _ rfl rfl rfl)
        (fun _ at_ => by cases at_) ?_
    intro task parked waits
    by_cases same : task = caller.task
    · subst same
      rcases awake.search cpu caller (by rw [here]; rfl) sleeps waits with pending | empty
      · exact .inr (.inl (pending.update rfl (by simp [here, Pc.Wakes])))
      · rw [here] at empty
        exact .inr (.inr empty)
    · exact .inl ((update_of_ne same ..).symm.trans parked)
  · refine awake.step (leaves_of_lock ok (.inr lock) rfl (by simp [here, Pc.Wakes]) (keeps _) ?_ .inr)
      (fun _ at_ => by cases at_) (bits _ rfl rfl rfl) (fun _ at_ => by cases at_) ?_
    · intro task waits
      left
      by_contra calm
      simp only [Pool.goto, update_apply] at waits
      split_ifs at waits
      exact calm waits
    · intro task parked waits
      left
      simp only [Pool.goto, Pool.setPhase, update_apply] at parked
      split_ifs at parked
      exact parked

/-- When nobody has the lock, all CPUs with tags are marked, or one of them will wake all. -/
theorem pending_or_marked (free : s.lock = none) : s.Pending ∨ s.MarkedBut cfg none := by
  by_cases pending : s.Pending
  · exact .inl pending
  refine .inr fun c inside _ tags => ?_
  have unlocked : ∀ h, ¬ (s.pc h).Locked := fun h locked => by
    have := (ok.lock h).mp locked
    rw [free] at this
    cases this
  rcases awake.bits c inside tags with bit | marked | ⟨h, stolen⟩
  · exact bit
  · have unlocked := unlocked c
    refine absurd ⟨c, ?_⟩ pending
    cases here : s.pc c <;> simp_all [Pc.Marks, Pc.Locked, Pc.Wakes]
  · have unlocked := unlocked h
    cases here : s.pc h <;> simp_all [Pc.StealsFrom, Pc.Locked]

theorem allocGlobal_awake (here : s.pc cpu = .allocLock caller) (free : s.lock = none) :
    (s.allocGlobal cfg cpu caller).Awake cfg := by
  have own : s.phase caller.task = .onCpu cpu := awake.onCpu cpu caller (by rw [here]; rfl)
  have waiting : ∀ task, (if caller.sleeps then update s.waiting caller.task true
      else s.waiting) task → s.waiting task ∨ s.phase task = .onCpu cpu := by
    intro task waits
    by_cases same : task = caller.task
    · subst same
      exact .inr own
    left
    split_ifs at waits
    · rwa [update_of_ne same] at waits
    · exact waits
  simp only [Pool.allocGlobal]
  split
  · rename_i tags
    refine awake.step (leaves_of_lock ok (.inl free) rfl (by simp [here, Pc.Wakes]) (fun _ _ _ => id)
      waiting .inr) ?_ ?_ (fun _ _ _ _ => .inr (.inl tags)) fun task parked _ => .inl parked
    · intro c at_
      refine awake.onCpu cpu c ?_
      rw [here]
      exact at_
    · exact bits_step awake here rfl fun c inside tags =>
        .inr (.inr (.inr ⟨tags, id, fun _ => id, id⟩))
  rename_i none
  have quiet : ∀ pc' : Pc, (s.pc cpu).Wakes → pc'.Wakes := by simp [here, Pc.Wakes]
  have kept : ∀ c, c ≠ cpu →
      update s.lists cpu (s.freelist.take cfg.batchSize) c = s.lists c := fun c other =>
    update_of_ne other ..
  refine awake.step (leaves_of_lock ok (.inl free) rfl (quiet _) (fun _ _ _ => id) waiting ?_) ?_ ?_ ?_
    fun task parked _ => .inl parked
  · intro empty
    refine .inr ⟨?_, fun c inside => ?_⟩
    · show s.freelist.drop cfg.batchSize = []
      rw [empty.1, drop_nil]
    show update s.lists cpu (s.freelist.take cfg.batchSize) c = []
    rw [empty.1, take_nil, update_apply]
    split_ifs
    · rfl
    · exact empty.2 c inside
  · intro c at_
    refine awake.onCpu cpu c ?_
    rw [here]
    split_ifs at at_ <;> exact at_
  · refine bits_step awake here rfl fun c inside tags => ?_
    have tags : update s.lists cpu (s.freelist.take cfg.batchSize) c ≠ [] := tags
    by_cases same : c = cpu
    · have more : ¬ s.freelist.take cfg.batchSize = [] := fun nothing =>
        tags (by rw [same, update_self, nothing])
      refine .inr (.inl ⟨same, ?_⟩)
      show Pc.Marks (if s.freelist.take cfg.batchSize = [] then _ else _)
      rw [if_neg more]
      trivial
    · exact .inr (.inr (.inr ⟨kept c same ▸ tags, id, fun here' => absurd here' same, id⟩))
  · intro c at_ sleeps waits
    show _ ∨ Pool.Searched cfg _ cpu (if s.freelist.take cfg.batchSize = [] then _ else _)
    by_cases nothing : s.freelist.take cfg.batchSize = []
    · -- nothing is left in the global list either
      rw [if_pos nothing]
      have global : s.freelist = [] := by
        have := cfg.batch_pos
        rcases take_eq_nil_iff.mp nothing with zero | empty
        · omega
        · exact empty
      rcases pending_or_marked ok awake free with pending | marked
      · exact .inl (pending.update rfl (quiet _))
      refine .inr ⟨?_, fun c inside _ tags => ?_⟩
      · show s.freelist.drop cfg.batchSize = []
        rw [global, drop_nil]
      have tags : update s.lists cpu (s.freelist.take cfg.batchSize) c ≠ [] := tags
      have other : c ≠ cpu := fun same => tags (by rw [same, update_self, nothing])
      exact marked c inside (by simp) (kept c other ▸ tags)
    · rw [if_neg nothing]
      have own : update s.lists cpu (s.freelist.take cfg.batchSize) cpu ≠ [] := by
        rwa [update_self]
      exact .inr (.inl own)

end

/-- What is known of the search of another CPU stays when lists of CPUs with tags change. -/
theorem Pool.Searched.congr {pc : Pc} (searched : s.Searched cfg c pc)
    (free : s'.freelist = s.freelist) (mask : s'.cpusHaveTags = s.cpusHaveTags)
    (own : s'.lists c = s.lists c) (lists : ∀ k, s'.lists k ≠ [] → s.lists k ≠ []) :
    s'.Searched cfg c pc := by
  have marked : ∀ but, s.MarkedBut cfg but → s'.MarkedBut cfg but :=
    fun but marked k inside other tags =>
    mask ▸ marked k inside other (lists k tags)
  have empty : s.Empty cfg → s'.Empty cfg := fun empty =>
    ⟨free.trans empty.1, fun k inside => by_contra fun tags => lists k tags (empty.2 k inside)⟩
  cases pc with
  | stealWeight caller => exact ⟨free.trans searched.1, marked _ searched.2⟩
  | stealNext | stealFirst | stealClear | stealRemote =>
    exact ⟨free.trans searched.1, mask ▸ searched.2.1, marked _ searched.2.2⟩
  | allocTake caller => exact searched.imp (own ▸ ·) empty
  | allocUnlock caller found =>
    cases found with
    | false => exact empty searched
    | true => trivial
  | _ => trivial

/-- A step of a CPU with interrupts off that adds no tags to an empty list and wakes nobody. -/
theorem leaves_of_lists (next : s'.pc = update s.pc cpu pc') (quiet : (s.pc cpu).Wakes → pc'.Wakes)
    (onCpu : ∀ c task, c ≠ cpu → s.phase task = .onCpu c → s'.phase task = .onCpu c)
    (waiting : s'.waiting = s.waiting) (free : s'.freelist = s.freelist)
    (mask : s'.cpusHaveTags = s.cpusHaveTags) (others : ∀ c, c ≠ cpu → s'.lists c = s.lists c)
    (lists : ∀ c, s'.lists c ≠ [] → s.lists c ≠ []) : Leaves cfg s s' cpu pc' := by
  refine ⟨next, onCpu, fun _ waits => .inl (waiting ▸ waits),
    fun _ _ pending => pending.update next quiet, ?_, ?_⟩
  · exact fun empty => .inr ⟨free.trans empty.1, fun k inside =>
      by_contra fun tags => lists k tags (empty.2 k inside)⟩
  · exact fun c other searched => .inr (searched.congr free mask (others c other) lists)

section
variable (awake : s.Awake cfg)
include awake

/-- Such a step, when the CPU runs no task in `percpu_ida_alloc` afterwards. -/
theorem Pool.Awake.unlocked (here : s.pc cpu = pc) (quiet : ¬ pc.Wakes)
    (unmarked : ¬ pc.Marks) (kept : ∀ c, ¬ pc.StealsFrom c) (next : s'.pc = update s.pc cpu pc')
    (phase : s'.phase = s.phase) (waiting : s'.waiting = s.waiting) (free : s'.freelist = s.freelist)
    (mask : s'.cpusHaveTags = s.cpusHaveTags) (others : ∀ c, c ≠ cpu → s'.lists c = s.lists c)
    (lists : s'.lists cpu ≠ [] → s.lists cpu ≠ []) (nobody : pc'.caller? = none) : s'.Awake cfg := by
  have lists : ∀ k, s'.lists k ≠ [] → s.lists k ≠ [] := by
    intro k tags
    by_cases here : k = cpu
    · subst here
      exact lists tags
    · rwa [← others k here]
  refine awake.step (leaves_of_lists next (here ▸ fun wakes => absurd wakes quiet)
    (fun _ _ _ => phase ▸ id) waiting free mask others lists) ?_ ?_ ?_
    fun task parked _ => .inl (phase ▸ parked)
  · simp [nobody]
  · exact bits_step awake here next fun c inside tags =>
      .inr (.inr (.inr ⟨lists c tags, mask ▸ id, fun _ => unmarked, kept c⟩))
  · simp [nobody]

/-- A task that runs nowhere comes to an idle CPU. -/
theorem Pool.Awake.enter (idle : s.pc cpu = .idle) (off : ∀ c, s.phase caller.task ≠ .onCpu c) :
    ((s.setPhase caller.task (.onCpu cpu)).goto cpu (.allocLock caller)).Awake cfg := by
  have onCpu : ∀ c task, c ≠ cpu → s.phase task = .onCpu c →
      update s.phase caller.task (.onCpu cpu) task = .onCpu c := by
    intro c task _ there
    refine (update_of_ne ?_ ..).trans there
    rintro rfl
    exact off c there
  refine awake.step (leaves_of_lists rfl (idle ▸ False.elim) onCpu rfl rfl rfl (fun _ _ => rfl)
    fun _ => id) ?_ ?_ (fun _ _ _ _ => .inr trivial) ?_
  · intro c at_
    cases at_
    exact update_self ..
  · exact bits_step awake idle rfl fun c inside tags =>
      .inr (.inr (.inr ⟨tags, id, fun _ => id, id⟩))
  · intro task parked _
    left
    simp only [Pool.goto, Pool.setPhase, update_apply] at parked
    split_ifs at parked
    exact parked

theorem allocStart_awake (idle : s.pc cpu = .idle)
    (out : s.phase caller.task = .outside) : (s.allocStart cpu caller).Awake cfg := by
  unfold Pool.allocStart
  split
  · rename_i tag rest top
    have same : s.pc = update s.pc cpu .idle := by rw [← idle, update_eq_self]
    exact awake.unlocked idle id id (fun _ => id) same rfl rfl rfl rfl
      (fun _ other => update_of_ne other ..) (fun _ => by simp [top]) rfl
  · exact awake.enter idle (by simp [out])

theorem resume_awake (idle : s.pc cpu = .idle) (parked : s.phase task = .parked) :
    ((s.setPhase task (.onCpu cpu)).goto cpu (.allocLock ⟨task, true⟩)).Awake cfg :=
  @Pool.Awake.enter _ _ ⟨task, true⟩ _ awake idle (by simp [parked])

theorem Pool.Awake.pends (here : s.pc cpu = pc) (next : s'.pc = update s.pc cpu pc')
    (phase : s'.phase = s.phase) (waiting : s'.waiting = s.waiting) (wakes : pc'.Wakes)
    (nobody : pc'.caller? = none) (each : Accounted cfg s s' cpu pc pc') : s'.Awake cfg := by
  have pending : s'.Pending := ⟨cpu, by rwa [next, update_self]⟩
  refine awake.step ⟨next, fun _ _ _ => phase ▸ id, fun _ waits => .inl (waiting ▸ waits),
    fun _ _ _ => pending, fun _ => .inl pending, fun _ _ _ => .inl pending⟩ ?_
    (bits_step awake here next each) ?_ fun task parked _ => .inl (phase ▸ parked)
  · simp [nobody]
  · simp [nobody]

theorem freeStart_awake (idle : s.pc cpu = .idle) : (s.freeStart cfg cpu tag).Awake cfg := by
  by_cases none : s.lists cpu = []
  · -- the waiters will be woken
    have start : s.freeStart cfg cpu tag =
        ({ s.setList cpu [tag] with held := s.held.erase tag }).goto cpu (.freeSet 1) := by
      simp [Pool.freeStart, none]
    rw [start]
    refine awake.pends idle rfl rfl rfl trivial rfl fun c inside tags => ?_
    by_cases here : c = cpu
    · exact .inr (.inl ⟨here, trivial⟩)
    · have kept : update s.lists cpu [tag] c = s.lists c := update_of_ne here ..
      exact .inr (.inr (.inr ⟨kept ▸ tags, id, fun here' => absurd here' here, id⟩))
  · exact awake.unlocked idle id id (fun _ => id) rfl rfl rfl rfl rfl
      (fun _ other => update_of_ne other ..) (fun _ => none) (by split_ifs <;> rfl)

theorem freeSet_awake (here : s.pc cpu = .freeSet nrFree) :
    ((s.setBit cpu true).goto cpu (.freeWake nrFree)).Awake cfg := by
  refine awake.pends here rfl rfl rfl trivial rfl fun c inside tags => ?_
  by_cases same : c = cpu
  · subst same
    exact .inl (update_self ..)
  · exact .inr (.inr (.inr ⟨tags, (update_of_ne same ..).trans, fun here' => absurd here' same, id⟩))

/-- When all are woken, nobody is known to have found nothing. -/
theorem Pool.Awake.wake (next : s'.pc = update s.pc cpu pc') (phase : s'.phase = s.phase)
    (woken : ∀ task, s'.waiting task = false) (caller : pc'.caller? = none)
    (bits : s'.Marked cfg) : s'.Awake cfg := by
  have nobody : ∀ {task}, ¬ s'.waiting task := fun {task} waits => by simp [woken task] at waits
  refine ⟨fun c caller' at_ => ?_, bits, fun _ _ _ _ waits => absurd waits nobody,
    fun _ _ waits => absurd waits nobody⟩
  rw [next] at at_
  by_cases here : c = cpu
  · subst here
    rw [update_self, caller] at at_
    cases at_
  · rw [update_of_ne here] at at_
    rw [phase]
    exact awake.onCpu c caller' at_

theorem freeWake_awake (here : s.pc cpu = .freeWake nrFree) :
    (s.wakeUp.goto cpu (if nrFree = cfg.maxSize then .freeLock else .idle)).Awake cfg := by
  refine awake.wake rfl rfl (fun _ => rfl) (by split_ifs <;> rfl) ?_
  exact bits_step awake here rfl fun c inside tags => .inr (.inr (.inr ⟨tags, id, fun _ => id, id⟩))

theorem freeGlobal_awake (here : s.pc cpu = .freeLock) : (s.freeGlobal cfg cpu).Awake cfg := by
  unfold Pool.freeGlobal
  split
  · refine awake.wake rfl rfl (fun _ => rfl) rfl ?_
    refine bits_step awake here rfl fun c inside tags =>
      .inr (.inr (.inr ⟨fun none => tags ?_, id, fun _ => id, id⟩))
    show update s.lists cpu ((s.lists cpu).drop cfg.batchSize) c = []
    by_cases same : c = cpu
    · rw [same] at none ⊢
      rw [update_self, none, drop_nil]
    · rw [update_of_ne same, none]
  · exact awake.unlocked here id id (fun _ => id) rfl rfl rfl rfl rfl (fun _ _ => rfl) id rfl

end

theorem advance_awake (ok : s.Ok cfg) (awake : s.Awake cfg)
    (inside : cpu < cfg.nrCpus) : (s.advance cfg cpu).Awake cfg := by
  have finds := ok.finds cpu
  unfold Pool.advance
  split
  all_goals
    rename_i here
    rw [here] at finds
  · exact awake
  · split
    · exact allocGlobal_awake ok awake here ‹_›
    · exact awake
  · exact awake.goto ok here trivial rfl False.elim (fun _ => False.elim) fun searched =>
      ⟨searched.1, rfl, searched.2⟩
  · split
    · rename_i done
      refine awake.goto ok here trivial rfl False.elim (fun _ => False.elim) ?_
      rintro ⟨free, counted, marked⟩
      exact .inr (empty_of_marked marked free (counted.symm.trans done))
    · split
      all_goals exact awake.goto ok here trivial rfl False.elim (fun _ => False.elim) id
  · split
    · exact awake.goto ok here trivial rfl False.elim (fun _ => False.elim) id
    have none := cpumaskFirst_none ‹_›
    have := finds.1
    have := finds.2
    omega
  · exact stealClear_awake ok awake here
  · exact stealFrom_awake ok awake here
  · split
    · rename_i none
      exact awake.goto ok here trivial rfl (fun _ => none) (fun _ => False.elim)
        fun searched => searched.resolve_left (not_not.mpr none)
    · exact allocTake_awake ok awake inside here ‹_›
  · exact allocSet_awake ok awake here
  · exact allocEnd_awake ok awake here
  · exact freeSet_awake awake here
  · exact freeWake_awake awake here
  · split
    · exact freeGlobal_awake awake here
    · exact awake
  · exact awake

theorem signal_awake (awake : s.Awake cfg) (parked : s.phase task = .parked) :
    ({ s.setPhase task .outside with
      waiting := update s.waiting task false }).Awake cfg := by
  have waits : ∀ task', update s.waiting task false task' → s.waiting task' := by
    intro task' waits
    rw [update_apply] at waits
    split_ifs at waits
    exact waits
  refine ⟨fun c caller at_ => ?_, awake.bits, fun c caller at_ sleeps waits' => ?_,
    fun task' parked' waits' => ?_⟩
  · have there := awake.onCpu c caller at_
    refine (update_of_ne ?_ ..).trans there
    rintro same
    rw [same, parked] at there
    cases there
  · exact awake.search c caller at_ sleeps (waits _ waits')
  · simp only [Pool.setPhase, update_apply] at parked'
    split_ifs at parked'
    exact awake.sleep task' parked' (waits _ waits')

theorem next_awake (ok : s.Ok cfg) (awake : s.Awake cfg) (event : PoolEvent) :
    (s.next cfg event).Awake cfg := by
  cases event with
  | alloc cpu caller =>
    rw [Pool.next]
    split_ifs with can
    · exact allocStart_awake awake can.2.1 can.2.2
    · exact awake
  | free cpu tag =>
    rw [Pool.next]
    split_ifs with can
    · exact freeStart_awake awake can.2.1
    · exact awake
  | advance cpu =>
    rw [Pool.next]
    split_ifs with inside
    · exact advance_awake ok awake inside
    · exact awake
  | resume cpu task =>
    rw [Pool.next]
    split_ifs with can
    · exact resume_awake awake can.2.1 can.2.2
    · exact awake
  | signal task =>
    rw [Pool.next]
    split_ifs with parked
    · exact signal_awake awake parked
    · exact awake

theorem initPool_awake (cfg : Config) : (initPool cfg).Awake cfg where
  onCpu _ _ at_ := by cases at_
  bits _ _ tags := absurd rfl tags
  search _ _ at_ := by cases at_
  sleep _ parked := by cases parked

end Linux318.Source.PercpuIda
