import Linux318.Source.Ipc.SemQueues

/-!
# Where the entries of the semaphore queues are

Source: ipc/sem.c:199-244,363-372,730-735,1087-1130,1921-1962. Between the locks an array
is in one of two modes: each decrement waits on the list of its semaphore, or all
altering operations wait on the global list. The second mode lasts while complex
operations wait.
-/
namespace Linux318.Source.Ipc.SemArray
open List

variable {sma sma' : SemArray} {n undo id : Nat} {q q' : SemQueue} {m k : Option Nat}
  {v vals : SemVals} {sops : List Sembuf} {pid : Int}

structure Queued (sma : SemArray) : Prop extends Entries sma where
  counted : sma.uncounted = 0
  mode : sma.complexCount = 0 ∧ sma.pendingAlter = [] ∨ ∀ n, sma.semAlter n = []

structure Placed (sma : SemArray) : Prop extends Entries sma where
  counted : sma.uncounted = 0
  simple : sma.complexCount = 0 → sma.pendingAlter = []
  complex : sma.complexCount ≠ 0 → ∀ n, sma.semAlter n = []

theorem Placed.queued (placed : sma.Placed) : sma.Queued where
  toEntries := placed.toEntries
  counted := placed.counted
  mode := by
    by_cases h : sma.complexCount = 0
    · exact .inl ⟨h, placed.simple h⟩
    · exact .inr (placed.complex h)

theorem Queued.complexCount_eq (ok : sma.Queued) :
    sma.complexCount = complexIn sma.pendingAlter + complexIn sma.pendingConst := by
  have := ok.counted
  unfold uncounted at this
  omega

theorem Queued.scanned_simple (ok : sma.Queued)
    (scan : Scanned sma sma') (simple : sma.complexCount = 0 ∧ sma.pendingAlter = []) :
    sma'.complexCount = 0 ∧ sma'.pendingAlter = [] := by
  have empty : sma'.pendingAlter = [] := (scan.alter none).eq_nil simple.2
  have const : complexIn sma.pendingConst = 0 := by
    have := ok.complexCount_eq
    rw [simple.2, complexIn_nil] at this
    omega
  have const' : complexIn sma'.pendingConst = 0 := complexIn_of_shrinks (scan.const none) const
  have count := scan.count.trans ok.counted
  rw [uncounted, empty, complexIn_nil] at count
  exact ⟨by omega, empty⟩

theorem Queued.scanned (ok : sma.Queued) (scan : Scanned sma sma')
    (entries : sma'.Entries) : sma'.Queued where
  toEntries := entries
  counted := scan.count.trans ok.counted
  mode := by
    rcases ok.mode with simple | empty
    · exact .inl (ok.scanned_simple scan simple)
    · exact .inr fun n => (scan.alter (some n)).eq_nil (empty n)

def isSimpleOn (n : Nat) (q : SemQueue) : Bool := q.nsops = 1 && q.semNum = n

/-- The waiting simple altering operations on one semaphore, the oldest first. -/
def alterOrder (sma : SemArray) (n : Nat) : List SemQueue :=
  sma.pendingAlter.filter (isSimpleOn n) ++ sma.semAlter n

theorem Shrinks.filter {l l' : List SemQueue} (h : Shrinks l l') (n : Nat) :
    Shrinks (l.filter (isSimpleOn n)) (l'.filter (isSimpleOn n)) := by
  have bare (l : List SemQueue) : (l.filter (isSimpleOn n)).map SemQueue.bare =
      (l.map SemQueue.bare).filter (isSimpleOn n) := by
    rw [filter_map]
    rfl
  unfold Shrinks
  rw [bare, bare]
  exact List.Sublist.filter _ h

theorem Shrinks.append {a a' b b' : List SemQueue} (ha : Shrinks a a') (hb : Shrinks b b') :
    Shrinks (a ++ b) (a' ++ b') := by
  unfold Shrinks
  rw [map_append, map_append]
  exact List.Sublist.append ha hb

theorem Scanned.order (scan : Scanned sma sma') (n : Nat) :
    Shrinks (sma.alterOrder n) (sma'.alterOrder n) :=
  Shrinks.append (Shrinks.filter (scan.alter none) n) (scan.alter (some n))

theorem IsDecrement.semNum_eq (dec : IsDecrement n q) : q.nsops = 1 ∧ q.semNum = n := by
  obtain ⟨sop, one, num, _⟩ := dec
  exact ⟨nsops_of_single one, by simp [SemQueue.semNum, one, num]⟩

theorem IsDecrement.isSimpleOn_iff {k : Nat} (dec : IsDecrement n q) :
    isSimpleOn k q = true ↔ n = k := by
  obtain ⟨one, num⟩ := semNum_eq dec
  simp [isSimpleOn, one, num]

def Unmixed (sma : SemArray) : Prop :=
  ∀ n, sma.pendingAlter.filter (isSimpleOn n) = [] ∨ sma.semAlter n = []

theorem Entries.filter_semAlter (ok : sma.Entries) (i n : Nat) :
    (sma.semAlter i).filter (isSimpleOn n) = if i = n then sma.semAlter i else [] := by
  split
  next same =>
    exact filter_eq_self.mpr fun q mem =>
      (IsDecrement.isSimpleOn_iff (ok.semAlter i q mem)).mpr same
  next ne =>
    exact filter_eq_nil_iff.mpr fun q mem =>
      mt (IsDecrement.isSimpleOn_iff (ok.semAlter i q mem)).mp ne

/-- Every altering operation of the second array waits somewhere in the first. -/
def MovedFrom (sma sma' : SemArray) : Prop :=
  ∀ m, ∀ q ∈ sma'.alterList m, ∃ k, q ∈ sma.alterList k

theorem Entries.moved (ok : sma.Entries) (moved : MovedFrom sma sma')
    (nsems : sma'.nsems = sma.nsems) (vals : sma'.vals = sma.vals)
    (const : ∀ m, sma'.constList m = sma.constList m)
    (alter : ∀ m, ∀ q ∈ sma'.alterList m, FitsAlter m q) : sma'.Entries where
  range := vals ▸ ok.range
  alter := alter
  const m := const m ▸ ok.const m
  alterNamed := by
    intro m q mem
    obtain ⟨k, mem⟩ := moved m q mem
    rw [nsems]
    exact ok.alterNamed k q mem
  constNamed m := by
    rw [const m, nsems]
    exact ok.constNamed m

theorem spliceSem_moved (sma : SemArray) (i : Nat) : MovedFrom sma (sma.spliceSem i) := by
  intro m q mem
  cases m with
  | none =>
    rcases mem_append.mp mem with mem | mem
    · exact ⟨some i, mem⟩
    · exact ⟨none, mem⟩
  | some n =>
    by_cases same : n = i
    · simp [spliceSem, alterList, same] at mem
    · exact ⟨some n, by simpa [spliceSem, alterList, same] using mem⟩

theorem spliceSem_entries (ok : sma.Entries) (i : Nat) : (sma.spliceSem i).Entries := by
  refine ok.moved (spliceSem_moved sma i) rfl rfl (fun m => by cases m <;> rfl) fun m q mem => ?_
  cases m with
  | none =>
    rcases mem_append.mp mem with mem | mem
    · exact .inr ⟨i, ok.semAlter i q mem⟩
    · exact ok.pendingAlter q mem
  | some n =>
    by_cases same : n = i
    · simp [spliceSem, alterList, same] at mem
    · exact ok.semAlter n q (by simpa [spliceSem, alterList, same] using mem)

theorem spliceSem_uncounted (ok : sma.Entries) (i : Nat) :
    (sma.spliceSem i).uncounted = sma.uncounted := by
  have simple : complexIn (sma.semAlter i) = 0 := by
    rw [complexIn_eq_zero]
    intro q mem
    rw [ok.nsops_alter mem]
    omega
  simp [uncounted, spliceSem, complexIn_append, simple]

theorem spliceSem_order (ok : sma.Entries) (unmixed : sma.Unmixed) (i : Nat) :
    (sma.spliceSem i).Unmixed ∧ ∀ n, (sma.spliceSem i).alterOrder n = sma.alterOrder n := by
  refine ⟨fun n => ?_, fun n => ?_⟩
  · by_cases same : n = i
    · exact .inr (by simp [spliceSem, same])
    · simpa [spliceSem, same, ok.filter_semAlter, Ne.symm same] using unmixed n
  by_cases same : n = i
  · subst same
    rcases unmixed n with empty | empty <;> simp [alterOrder, spliceSem, ok.filter_semAlter, empty]
  · simp [alterOrder, spliceSem, ok.filter_semAlter, same, Ne.symm same]

structure Merged (nums : List Nat) (sma sma' : SemArray) : Prop where
  entries : sma'.Entries
  uncounted : sma'.uncounted = sma.uncounted
  order : ∀ n, sma'.alterOrder n = sma.alterOrder n
  nsems : sma'.nsems = sma.nsems
  vals : sma'.vals = sma.vals
  complexCount : sma'.complexCount = sma.complexCount
  const : ∀ m, sma'.constList m = sma.constList m
  semAlter : ∀ n, sma'.semAlter n = if n ∈ nums then [] else sma.semAlter n
  moved : MovedFrom sma sma'

theorem foldl_spliceSem (ok : sma.Entries) (unmixed : sma.Unmixed)
    (nums : List Nat) : Merged nums sma (nums.foldl spliceSem sma) := by
  induction nums generalizing sma with
  | nil =>
    exact ⟨ok, rfl, fun _ => rfl, rfl, rfl, rfl, fun _ => rfl, by simp, fun m q h => ⟨m, h⟩⟩
  | cons i rest ih =>
    obtain ⟨unmixed', order⟩ := spliceSem_order ok unmixed i
    have later := ih (spliceSem_entries ok i) unmixed'
    refine ⟨later.entries, later.uncounted.trans (spliceSem_uncounted ok i),
      fun n => (later.order n).trans (order n), later.nsems, later.vals, later.complexCount,
      fun m => (later.const m).trans (by cases m <;> rfl), fun n => ?_, fun m q mem => ?_⟩
    · refine (later.semAlter n).trans ?_
      by_cases same : n = i <;> simp [spliceSem, same]
    · obtain ⟨k, mem⟩ := later.moved m q mem
      exact spliceSem_moved sma i k q mem

theorem Queued.unmixed (ok : sma.Queued) : sma.Unmixed := by
  intro n
  rcases ok.mode with ⟨_, empty⟩ | empty
  · exact .inl (by rw [empty]; rfl)
  · exact .inr (empty n)

/-- Only semaphores of the array have entries. -/
theorem Entries.semAlter_eq_nil (ok : sma.Entries) (out : sma.nsems ≤ n) : sma.semAlter n = [] := by
  refine eq_nil_iff_forall_not_mem.mpr fun q mem => ?_
  obtain ⟨sop, one, num, _⟩ := ok.semAlter n q mem
  have := ok.alterNamed (some n) q mem sop (by simp [one])
  omega

theorem Queued.merged (ok : sma.Queued) : Merged (List.range sma.nsems) sma sma.mergeQueues :=
  foldl_spliceSem ok.toEntries ok.unmixed _

theorem Queued.mergeQueues_empty (ok : sma.Queued) (n : Nat) : sma.mergeQueues.semAlter n = [] := by
  rw [ok.merged.semAlter]
  split
  · rfl
  next out => exact ok.semAlter_eq_nil (by simpa using out)

theorem foldl_appendSem (l : List SemQueue) (sma : SemArray) :
    l.foldl (fun sma q => sma.setAlter (sma.semAlter q.semNum ++ [q]) (some q.semNum)) sma =
      { sma with semAlter := fun n => sma.semAlter n ++ l.filter (·.semNum = n) } := by
  induction l generalizing sma with
  | nil => simp
  | cons q rest ih =>
    rw [foldl_cons, ih]
    simp only [setAlter]
    congr 1
    funext n
    by_cases same : n = q.semNum
    · simp [same]
    · simp [same, Ne.symm same]

theorem unmergeQueues_eq (zero : sma.complexCount = 0) : sma.unmergeQueues = { sma with
      pendingAlter := []
      semAlter := fun n => sma.semAlter n ++ sma.pendingAlter.filter (·.semNum = n) } := by
  rw [unmergeQueues, if_neg (by simp [zero]), foldl_appendSem]

theorem Queued.isDecrement (ok : sma.Queued) (zero : sma.complexCount = 0)
    (mem : q ∈ sma.pendingAlter) : ∃ n, IsDecrement n q := by
  have none : complexIn sma.pendingAlter = 0 := by
    have := ok.complexCount_eq
    have := complexIn_nonneg sma.pendingAlter
    have := complexIn_nonneg sma.pendingConst
    omega
  exact (ok.pendingAlter q mem).resolve_left (complexIn_eq_zero.mp none q mem)

theorem unmergeQueues_moved (sma : SemArray) : MovedFrom sma sma.unmergeQueues := by
  intro m q mem
  by_cases zero : sma.complexCount = 0
  · rw [unmergeQueues_eq zero] at mem
    cases m with
    | none => simp [alterList] at mem
    | some n =>
      rcases mem_append.mp mem with mem | mem
      · exact ⟨some n, mem⟩
      · exact ⟨none, (mem_filter.mp mem).1⟩
  · rw [unmergeQueues, if_pos zero] at mem
    exact ⟨m, mem⟩

theorem Queued.unmergeQueues_entries (ok : sma.Queued)
    (zero : sma.complexCount = 0) : sma.unmergeQueues.Entries := by
  refine ok.toEntries.moved (unmergeQueues_moved sma) ?_ ?_ (fun m => ?_) fun m q mem => ?_
  · rw [unmergeQueues_eq zero]
  · rw [unmergeQueues_eq zero]
  · rw [unmergeQueues_eq zero]
    cases m <;> rfl
  rw [unmergeQueues_eq zero] at mem
  cases m with
  | none => simp [alterList] at mem
  | some n =>
    rcases mem_append.mp mem with mem | mem
    · exact ok.semAlter n q mem
    obtain ⟨mem, num⟩ := mem_filter.mp mem
    obtain ⟨k, dec⟩ := ok.isDecrement zero mem
    have : k = n := by
      rw [← (IsDecrement.semNum_eq dec).2]
      simpa using num
    exact this ▸ dec

theorem Queued.unmergeQueues_order (ok : sma.Queued) (n : Nat) :
    sma.unmergeQueues.alterOrder n = sma.alterOrder n := by
  by_cases zero : sma.complexCount = 0
  · have same : sma.pendingAlter.filter (fun q => decide (q.semNum = n)) =
        sma.pendingAlter.filter (isSimpleOn n) := by
      refine filter_congr fun q mem => ?_
      obtain ⟨k, dec⟩ := ok.isDecrement zero mem
      simp [isSimpleOn, (IsDecrement.semNum_eq dec).1]
    rw [unmergeQueues_eq zero]
    simp only [alterOrder, same]
    rcases ok.unmixed n with empty | empty <;> rw [empty] <;> simp
  · rw [unmergeQueues, if_pos zero]

theorem Queued.unmergeQueues_placed (ok : sma.Queued) : sma.unmergeQueues.Placed := by
  by_cases zero : sma.complexCount = 0
  · have counted := ok.complexCount_eq
    have alterNonneg := complexIn_nonneg sma.pendingAlter
    have constNonneg := complexIn_nonneg sma.pendingConst
    refine ⟨ok.unmergeQueues_entries zero, ?_, fun _ => ?_, fun h => ?_⟩
    · rw [unmergeQueues_eq zero]
      simp only [uncounted, complexIn_nil]
      omega
    · rw [unmergeQueues_eq zero]
    · rw [unmergeQueues_eq zero] at h
      exact absurd zero h
  · rw [unmergeQueues, if_pos zero]
    exact ⟨ok.toEntries, ok.counted, fun h => absurd h zero,
      fun _ => ok.mode.resolve_left fun h => zero h.1⟩

/-- Every unlock leaves the entries where they belong. -/
theorem Queued.semUnlock_placed (ok : sma.Queued) {array : Bool}
    (single : array = false → sma.complexCount = 0 ∧ sma.pendingAlter = []) :
    (sma.semUnlock array).Placed ∧
      ∀ n, (sma.semUnlock array).alterOrder n = sma.alterOrder n := by
  cases array with
  | true => exact ⟨ok.unmergeQueues_placed, ok.unmergeQueues_order⟩
  | false =>
    obtain ⟨zero, empty⟩ := single rfl
    exact ⟨⟨ok.toEntries, ok.counted, fun _ => empty, fun h => absurd zero h⟩, fun _ => rfl⟩

structure Arrives (sma : SemArray) (q : SemQueue) : Prop where
  sleeps : Sleeps sma.vals q
  nonempty : q.sops ≠ []
  named : ∀ sop ∈ q.sops, sop.semNum < sma.nsems
  alter : q.alter = q.sops.any (·.semOp ≠ 0)

theorem Arrives.zero (arrives : sma.Arrives q)
    (const : q.alter = false) : ∀ sop ∈ q.sops, sop.semOp = 0 := by
  have := arrives.alter
  rw [const, eq_comm] at this
  simpa using this

/-- A simple entry that changes values is a decrement of its semaphore. -/
theorem Arrives.simple (arrives : sma.Arrives q) (range : sma.vals.InRange) (one : q.nsops = 1) :
    (q.alter = true → IsDecrement q.semNum q) ∧ (q.alter = false → IsZeroWait q.semNum q) := by
  obtain ⟨sop, single⟩ := length_eq_one_iff.mp one
  rw [show q.semNum = sop.semNum by simp [SemQueue.semNum, single]]
  have simple := sleeps_simple range single arrives.sleeps
  refine ⟨fun alter => (simple.resolve_left fun ⟨_, zero⟩ => ?_).1, fun const =>
    (simple.resolve_right fun ⟨_, alter⟩ => alter (arrives.zero const sop (by simp [single]))).1⟩
  have := arrives.alter
  rw [alter, single] at this
  simp [zero] at this

theorem mem_of_append {f g : Option Nat → List SemQueue} (others : k ≠ m → g k = f k)
    (here : g m = f m ++ [q]) (mem : q' ∈ g k) : q' ∈ f k ∨ k = m ∧ q' = q := by
  by_cases same : k = m
  · subst same
    simpa [here] using mem
  · exact .inl (others same ▸ mem)

theorem mem_append_alter (mem : q' ∈ (sma.setAlter (sma.alterList m ++ [q]) m).alterList k) :
    q' ∈ sma.alterList k ∨ k = m ∧ q' = q :=
  mem_of_append (alterList_setAlter_of_ne _ _) (alterList_setAlter_self ..) mem

theorem mem_append_const (mem : q' ∈ (sma.setConst (sma.constList m ++ [q]) m).constList k) :
    q' ∈ sma.constList k ∨ k = m ∧ q' = q :=
  mem_of_append (constList_setConst_of_ne _ _) (constList_setConst_self ..) mem

theorem Entries.appendAlter (ok : sma.Entries) (named : ∀ sop ∈ q.sops, sop.semNum < sma.nsems)
    (fits : FitsAlter m q) : (sma.setAlter (sma.alterList m ++ [q]) m).Entries := by
  refine ⟨by simpa using ok.range, fun k q' mem => ?_, fun k => ?_, fun k q' mem => ?_, fun k => ?_⟩
  · rcases mem_append_alter mem with mem | ⟨rfl, rfl⟩
    · exact ok.alter k q' mem
    · exact fits
  · rw [constList_setAlter]
    exact ok.const k
  · rw [nsems_setAlter]
    rcases mem_append_alter mem with mem | ⟨_, rfl⟩
    · exact ok.alterNamed k q' mem
    · exact named
  · rw [constList_setAlter, nsems_setAlter]
    exact ok.constNamed k

theorem Entries.appendConst (ok : sma.Entries) (named : ∀ sop ∈ q.sops, sop.semNum < sma.nsems)
    (fits : FitsConst m q) : (sma.setConst (sma.constList m ++ [q]) m).Entries := by
  refine ⟨by simpa using ok.range, fun k => ?_, fun k q' mem => ?_, fun k => ?_, fun k q' mem => ?_⟩
  · rw [alterList_setConst]
    exact ok.alter k
  · rcases mem_append_const mem with mem | ⟨rfl, rfl⟩
    · exact ok.const k q' mem
    · exact fits
  · rw [alterList_setConst, nsems_setConst]
    exact ok.alterNamed k
  · rw [nsems_setConst]
    rcases mem_append_const mem with mem | ⟨_, rfl⟩
    · exact ok.constNamed k q' mem
    · exact named

theorem locksArray_eq_false :
    sma.locksArray sops = false ↔ sops.length = 1 ∧ sma.complexCount = 0 := by
  simp [locksArray]

structure Enqueued (q : SemQueue) (sma sma' : SemArray) : Prop where
  queued : sma'.Queued
  order : ∀ n, Shrinks (sma.alterOrder n ++ [q]) (sma'.alterOrder n)
  vals : sma'.vals = sma.vals
  alter : ∀ m, ∀ q' ∈ sma'.alterList m, q' = q ∨ ∃ k, q' ∈ sma.alterList k
  const : ∀ m, ∀ q' ∈ sma'.constList m, q' = q ∧ q.alter = false ∨ q' ∈ sma.constList m
  single : sma.locksArray q.sops = false → sma'.complexCount = 0 ∧ sma'.pendingAlter = []

theorem Shrinks.append_right (l l' : List SemQueue) : Shrinks (l ++ l') l := by
  unfold Shrinks
  rw [map_append]
  exact sublist_append_left _ _

/-- Appending to the global list, or to the list of one semaphore when the global list has
none of its operations, appends to the order. -/
theorem order_appendAlter (q : SemQueue) (m : Option Nat)
    (empty : m = none → ∀ n, sma.semAlter n = []) (n : Nat) : Shrinks (sma.alterOrder n ++ [q])
      ((sma.setAlter (sma.alterList m ++ [q]) m).alterOrder n) := by
  cases m with
  | none =>
    have none := empty rfl n
    simp only [alterOrder, setAlter, none, append_nil, filter_append]
    refine Shrinks.append (.refl _) ?_
    cases h : isSimpleOn n q
    · simpa [h] using Shrinks.append_right [] [q]
    · simpa [h] using Shrinks.refl _
  | some k =>
    simp only [alterOrder, setAlter, alterList]
    by_cases same : n = k
    · simpa [same] using Shrinks.refl _
    · rw [if_neg same]
      exact Shrinks.append_right _ _

theorem Placed.enqueue_alter (placed : sma.Placed) (arrives : sma.Arrives q) (one : q.nsops = 1)
    (alter : q.alter = true) (mode : if sma.complexCount = 0 then m = some q.semNum else m = none) :
    Enqueued q sma (sma.setAlter (sma.alterList m ++ [q]) m) := by
  have dec := (arrives.simple placed.range one).1 alter
  have fits : FitsAlter m q := by
    cases m with
    | none => exact .inr ⟨_, dec⟩
    | some n =>
      split at mode
      · cases mode
        exact dec
      · cases mode
  have simple : complexIn [q] = 0 := by simp [complexIn_cons, one]
  refine ⟨⟨placed.appendAlter arrives.named fits, ?_, ?_⟩, fun n => ?_, by simp,
    fun k q' mem => ?_, fun k q' mem => ?_, fun single => ?_⟩
  · rw [uncounted_eq, ← placed.counted, uncounted_eq]
    cases m with
    | none => simp [complexIn_append, simple]
    | some n => simp [alterList_setAlter_of_ne]
  · split at mode
    next zero =>
      refine .inl ⟨by simpa using zero, ?_⟩
      subst mode
      exact placed.simple zero
    next some =>
      refine .inr fun n => ?_
      subst mode
      exact placed.complex some n
  · refine order_appendAlter q m (fun none => ?_) n
    split at mode
    · cases mode.symm.trans none
    next some => exact placed.complex some
  · rcases mem_append_alter mem with mem | ⟨_, rfl⟩
    · exact .inr ⟨k, mem⟩
    · exact .inl rfl
  · exact .inr (by simpa using mem)
  · have zero := (locksArray_eq_false.mp single).2
    rw [if_pos zero] at mode
    subst mode
    exact ⟨by simpa using zero, placed.simple zero⟩

theorem Placed.enqueue_const (placed : sma.Placed)
    (arrives : sma.Arrives q) (one : q.nsops = 1) (const : q.alter = false) :
    Enqueued q sma (sma.setConst (sma.semConst q.semNum ++ [q]) (some q.semNum)) := by
  have wait := (arrives.simple placed.range one).2 const
  refine ⟨⟨placed.appendConst arrives.named (m := some q.semNum) wait, ?_, ?_⟩, fun n => ?_,
    by simp, fun k q' mem => ?_, fun k q' mem => ?_, fun single => ?_⟩
  · exact placed.counted
  · exact placed.queued.mode
  · exact Shrinks.append_right _ _
  · exact .inr ⟨k, by simpa using mem⟩
  · rcases mem_append_const (m := some q.semNum) mem with mem | ⟨_, rfl⟩
    · exact .inr mem
    · exact .inl ⟨rfl, const⟩
  · have zero := (locksArray_eq_false.mp single).2
    exact ⟨zero, placed.simple zero⟩

/-- The array in complex mode, as a complex entry finds it when it is appended. -/
def complexMode (sma : SemArray) : SemArray :=
  if sma.complexCount = 0 then sma.mergeQueues else sma

theorem Placed.complexMode_spec (placed : sma.Placed) :
    sma.complexMode.Queued ∧ (∀ n, sma.complexMode.semAlter n = []) ∧
    (∀ n, sma.complexMode.alterOrder n = sma.alterOrder n) ∧
    sma.complexMode.nsems = sma.nsems ∧ sma.complexMode.vals = sma.vals ∧
    (∀ m, sma.complexMode.constList m = sma.constList m) ∧ MovedFrom sma sma.complexMode := by
  unfold complexMode
  split
  next zero =>
    have merged := placed.queued.merged
    have empty := placed.queued.mergeQueues_empty
    exact ⟨⟨merged.entries, merged.uncounted.trans placed.counted, .inr empty⟩, empty,
      merged.order, merged.nsems, merged.vals, merged.const, merged.moved⟩
  next some =>
    exact ⟨placed.queued, placed.complex some, fun _ => rfl, rfl, rfl, fun _ => rfl,
      fun m q mem => ⟨m, mem⟩⟩

theorem Placed.enqueue_complex (placed : sma.Placed)
    (arrives : sma.Arrives q) (many : q.nsops ≠ 1) : Enqueued q sma (sma.enqueue q) := by
  have many' : q.nsops > 1 := by
    have := length_pos_iff.mpr arrives.nonempty
    unfold SemQueue.nsops at many ⊢
    omega
  have counts : complexIn [q] = 1 := by simp [complexIn_cons, many']
  have array : sma.locksArray q.sops ≠ false := fun single =>
    many (locksArray_eq_false.mp single).1
  obtain ⟨queued, empty, order, nsems, vals, const, moved⟩ := placed.complexMode_spec
  have counted := queued.counted
  rw [uncounted] at counted
  have named : ∀ sop ∈ q.sops, sop.semNum < sma.complexMode.nsems := nsems ▸ arrives.named
  have target : sma.enqueue q =
      { (if q.alter then sma.complexMode.setAlter (sma.complexMode.alterList none ++ [q]) none
        else sma.complexMode.setConst (sma.complexMode.constList none ++ [q]) none) with
        complexCount := sma.complexMode.complexCount + 1 } := by
    rw [enqueue, if_neg many]
    cases q.alter <;> rfl
  rw [target]
  cases alter : q.alter
  · have entries := queued.appendConst named (m := none) ⟨many', arrives.zero alter⟩
    refine ⟨⟨⟨entries.range, entries.alter, entries.const, entries.alterNamed,
      entries.constNamed⟩, ?_, .inr empty⟩, fun n => ?_, vals, fun k q' mem => ?_,
      fun k q' mem => ?_, fun single => absurd single array⟩
    · have last := complexIn_append sma.complexMode.pendingConst [q]
      show complexIn sma.complexMode.pendingAlter +
        complexIn (sma.complexMode.pendingConst ++ [q]) - (sma.complexMode.complexCount + 1) = 0
      omega
    · exact (order n).symm ▸ Shrinks.append_right _ _
    · exact .inr (moved k q' (by cases k <;> exact mem))
    · rcases mem_append_const (m := none) (k := k) (by cases k <;> exact mem) with
        mem | ⟨_, rfl⟩
      · exact .inr (const k ▸ mem)
      · exact .inl ⟨rfl, alter⟩
  have entries := queued.appendAlter named (m := none) (.inl many')
  refine ⟨⟨⟨entries.range, entries.alter, entries.const, entries.alterNamed,
    entries.constNamed⟩, ?_, .inr empty⟩, fun n => ?_, vals, fun k q' mem => ?_,
    fun k q' mem => ?_, fun single => absurd single array⟩
  · have last := complexIn_append sma.complexMode.pendingAlter [q]
    show complexIn (sma.complexMode.pendingAlter ++ [q]) +
      complexIn sma.complexMode.pendingConst - (sma.complexMode.complexCount + 1) = 0
    omega
  · rw [← order n]
    exact order_appendAlter q none (fun _ => empty) n
  · rcases mem_append_alter (m := none) (k := k) (by cases k <;> exact mem) with
      mem | ⟨_, rfl⟩
    · exact .inr (moved k q' mem)
    · exact .inl rfl
  · exact .inr (const k ▸ (by cases k <;> exact mem))

theorem Placed.enqueue_spec (placed : sma.Placed)
    (arrives : sma.Arrives q) : Enqueued q sma (sma.enqueue q) := by
  by_cases one : q.nsops = 1
  · rw [enqueue, if_pos one]
    cases alter : q.alter
    · exact placed.enqueue_const arrives one alter
    rw [if_pos rfl]
    split
    next some => exact placed.enqueue_alter arrives one alter (by rw [if_neg some])
    next zero =>
      refine placed.enqueue_alter arrives one alter (m := some q.semNum) ?_
      rw [if_pos (by simpa using zero)]
  · exact placed.enqueue_complex arrives one

theorem uncount_set (sma : SemArray) (q : SemQueue) (l : List SemQueue) (m : Option Nat) :
    (sma.setAlter l m).uncount q = (sma.uncount q).setAlter l m ∧
      (sma.setConst l m).uncount q = (sma.uncount q).setConst l m := by
  unfold uncount
  split <;> cases m <;> exact ⟨rfl, rfl⟩

def Unlinks (sma sma' : SemArray) : Prop :=
  Scanned sma sma' ∧ sma'.vals = sma.vals ∧ ∀ r ∈ sma'.pendingAlter, r ∈ sma.pendingAlter

/-- `unlink_queue` takes the entry off its list. -/
theorem listDel_scanned (ok : sma.Entries) (del : sma.listDel q = some sma') :
    Unlinks sma (sma'.uncount q) := by
  have alterCase {m : Option Nat} (mem : q ∈ sma.alterList m) :
      Unlinks sma ((sma.setAlter ((sma.alterList m).erase q) m).uncount q) := by
    obtain ⟨before, behind, _, list, erased⟩ := exists_erase_eq mem
    rw [erased, (uncount_set ..).1]
    refine ⟨unlinkAlter_scanned ok sma.vals sma.sempid list, by rw [vals_setAlter, uncount_eq]; rfl,
      fun r hr => ?_⟩
    rw [uncount_eq] at hr
    cases m with
    | none =>
      rw [show sma.pendingAlter = before ++ q :: behind from list]
      rcases mem_append.mp hr with hr | hr <;> simp [hr]
    | some n => exact hr
  have constCase {m : Option Nat} (mem : q ∈ sma.constList m) :
      Unlinks sma ((sma.setConst ((sma.constList m).erase q) m).uncount q) := by
    obtain ⟨before, behind, _, list, erased⟩ := exists_erase_eq mem
    rw [erased, (uncount_set ..).2]
    refine ⟨unlinkConst_scanned ok list, by rw [vals_setConst, uncount_eq]; rfl, fun r hr => ?_⟩
    rw [uncount_eq] at hr
    cases m <;> exact hr
  unfold listDel at del
  split at del
  next mem =>
    cases del
    exact alterCase (m := none) mem
  split at del
  next mem =>
    cases del
    exact constCase (m := none) mem
  split at del
  next mem =>
    cases del
    exact alterCase (m := some q.semNum) mem
  split at del
  next mem =>
    cases del
    exact constCase (m := some q.semNum) mem
  · cases del

theorem freeList_eq (l : List SemQueue) (sma : SemArray) : ∃ tasks, sma.freeList l =
    sma.withRest sma.vals sma.sempid (sma.complexCount - complexIn l) tasks := by
  induction l generalizing sma with
  | nil => exact ⟨sma.tasks, by simp [freeList, withRest]⟩
  | cons q rest ih =>
    obtain ⟨tasks, eq⟩ := ih ((sma.uncount q).wakeUpSemQueuePrepare q .eidrm)
    refine ⟨tasks, eq.trans ?_⟩
    rw [uncount_eq, complexIn_cons]
    simp only [wakeUpSemQueuePrepare, withRest]
    congr 1
    omega

theorem freeAlter_scanned (ok : sma.Entries) (m : Option Nat) :
    Scanned sma ((sma.freeList (sma.alterList m)).setAlter [] m) ∧
      ((sma.freeList (sma.alterList m)).setAlter [] m).vals = sma.vals := by
  obtain ⟨tasks, eq⟩ := freeList_eq (sma.alterList m) sma
  rw [eq]
  refine ⟨setAlter_scanned ok _ _ _ (Shrinks.append_right [] _) ?_, by simp⟩
  rw [complexIn_nil]
  omega

theorem freeConst_scanned (ok : sma.Entries) (m : Option Nat) :
    Scanned sma ((sma.freeList (sma.constList m)).setConst [] m) ∧
      ((sma.freeList (sma.constList m)).setConst [] m).vals = sma.vals := by
  obtain ⟨tasks, eq⟩ := freeList_eq (sma.constList m) sma
  rw [eq]
  refine ⟨setConst_scanned ok _ _ _ (Shrinks.append_right [] _) ?_, by simp⟩
  rw [complexIn_nil]
  omega

theorem freeSem_scanned (ok : sma.Entries) (i : Nat) :
    Scanned sma (sma.freeSem i) ∧ (sma.freeSem i).vals = sma.vals := by
  obtain ⟨const, constVals⟩ := freeConst_scanned ok (some i)
  obtain ⟨alter, alterVals⟩ :=
    freeAlter_scanned (const.entries ok (constVals ▸ ok.range)) (some i)
  exact ⟨const.trans alter, alterVals.trans constVals⟩

theorem foldl_freeSem_scanned (ok : sma.Entries) (nums : List Nat) :
    Scanned sma (nums.foldl freeSem sma) ∧ (nums.foldl freeSem sma).vals = sma.vals := by
  induction nums generalizing sma with
  | nil => exact ⟨.refl sma, rfl⟩
  | cons i rest ih =>
    obtain ⟨scan, vals⟩ := freeSem_scanned ok i
    obtain ⟨later, laterVals⟩ := ih (scan.entries ok (vals ▸ ok.range))
    exact ⟨scan.trans later, laterVals.trans vals⟩

theorem scanned_withRest (sma : SemArray) (vals : SemVals) (sempid : Nat → Int)
    (tasks : List (Nat × SemResult)) :
    Scanned sma (sma.withRest vals sempid sma.complexCount tasks) :=
  ⟨rfl, rfl, fun m => by cases m <;> exact .refl _, fun m => by cases m <;> exact .refl _, rfl⟩

/-- The update that follows a change of the values. -/
theorem doSmartUpdate_withRest_scanned (ok : sma.Entries) (range : vals.InRange)
    (sempid : Nat → Int) (sops : Option (List Sembuf)) :
    Scanned sma ((sma.withRest vals sempid sma.complexCount sma.tasks).doSmartUpdate sops) ∧
      ((sma.withRest vals sempid sma.complexCount sma.tasks).doSmartUpdate sops).Entries := by
  have scan := scanned_withRest sma vals sempid sma.tasks
  obtain ⟨update, entries⟩ := doSmartUpdate_scanned (scan.entries ok range) sops
  exact ⟨scan.trans update, entries⟩

def arrived : SemEvent → List SemQueue
  | .semtimedop id sops undo pid => [newQueue id sops undo pid]
  | _ => []

/-- The entries are where they belong, and the waiting decrements of a semaphore are those
of before in the same order, perhaps fewer, with `new` behind them. -/
def KeepsPlace (sma : SemArray) (new : List SemQueue) (sma' : SemArray) : Prop :=
  sma'.Placed ∧ ∀ n, Shrinks (sma.alterOrder n ++ new) (sma'.alterOrder n)

theorem Placed.keepsPlace_self (placed : sma.Placed) (new : List SemQueue) :
    sma.KeepsPlace new sma :=
  ⟨placed, fun _ => Shrinks.append_right _ _⟩

theorem Placed.keepsPlace_scanned (placed : sma.Placed) (scan : Scanned sma sma')
    (entries : sma'.Entries) {array : Bool} (single : array = false → sma.complexCount = 0)
    (new : List SemQueue) : sma.KeepsPlace new (sma'.semUnlock array) := by
  obtain ⟨after, order⟩ := (placed.queued.scanned scan entries).semUnlock_placed
    fun h => placed.queued.scanned_simple scan ⟨single h, placed.simple (single h)⟩
  refine ⟨after, fun n => ?_⟩
  rw [order n]
  exact (Shrinks.append_right _ new).trans (scan.order n)

theorem keepsPlace_enqueued (same : q'.bare = q.bare) (enqueued : Enqueued q' sma sma') :
    sma.KeepsPlace [q] (sma'.semUnlock (sma.locksArray q'.sops)) := by
  obtain ⟨after, order⟩ := enqueued.queued.semUnlock_placed enqueued.single
  refine ⟨after, fun n => ?_⟩
  rw [order n]
  exact (shrinks_replace same _ []).trans (enqueued.order n)

theorem arrives_newQueue (same : q.bare = (newQueue id sops undo pid).bare) (nonempty : sops ≠ [])
    (named : sops.any (sma.nsems ≤ ·.semNum) = false)
    (sleeps : Sleeps sma.vals (newQueue id sops undo pid)) : sma.Arrives q where
  sleeps := sleeps.of_bare same
  nonempty := by rwa [SemQueue.sops_of_bare same]
  named := by
    rw [SemQueue.sops_of_bare same]
    simpa [newQueue] using named
  alter := by
    have alter : q.bare.alter = (newQueue id sops undo pid).bare.alter := by rw [same]
    rw [SemQueue.sops_of_bare same]
    exact alter

theorem setvalVals_inRange (range : v.InRange) (semnum : Nat) {val : Int}
    (low : 0 ≤ val) (high : val ≤ semvmx) : (setvalVals v semnum val).InRange where
  semval n := by
    unfold setvalVals
    dsimp only
    split
    · exact ⟨low, high⟩
    · exact range.semval n
  semadj un n := by
    unfold setvalVals
    dsimp only
    split
    · decide
    · exact range.semadj un n

theorem setallVals_inRange (range : v.InRange) {nsems : Nat} {semIo : Nat → Nat}
    (high : ∀ i < nsems, (semIo i : Int) ≤ semvmx) : (setallVals v nsems semIo).InRange where
  semval n := by
    unfold setallVals
    dsimp only
    split
    next inside => exact ⟨Int.natCast_nonneg _, high n inside⟩
    · exact range.semval n
  semadj un n := by
    unfold setallVals
    dsimp only
    split
    · decide
    · exact range.semadj un n

theorem undoVal_range (semval semadj : Int) :
    0 ≤ undoVal semval semadj ∧ undoVal semval semadj ≤ semvmx := by
  unfold undoVal semvmx
  dsimp only
  split <;> split <;> omega

theorem exitVals_inRange (range : v.InRange) (nsems undo : Nat) :
    (exitVals v nsems undo).InRange where
  semval n := by
    unfold exitVals
    dsimp only
    split
    · exact undoVal_range _ _
    · exact range.semval n
  semadj un n := by
    unfold exitVals
    dsimp only
    split
    · decide
    · exact range.semadj un n

/-- `sem_rmid` does not touch the queues. -/
theorem Queued.rmid (ok : sma.Queued) : ({ sma with removed := true } : SemArray).Queued where
  toEntries := ok.toEntries.moved (fun m q mem => ⟨m, by cases m <;> exact mem⟩) rfl rfl
    (fun m => by cases m <;> rfl) (fun
      | none => ok.alter none
      | some n => ok.alter (some n))
  counted := ok.counted
  mode := ok.mode

/-- `freeary` empties lists, removes the array and unlocks. -/
theorem freeary_eq (ok : sma.Entries) :
    ∃ sma', Scanned sma sma' ∧ sma'.vals = sma.vals ∧ sma'.pendingAlter = [] ∧
      sma.freeary = ({ sma' with removed := true } : SemArray).semUnlock true := by
  obtain ⟨const, constVals⟩ := freeConst_scanned ok none
  have constOk := const.entries ok (constVals ▸ ok.range)
  obtain ⟨alter, alterVals⟩ := freeAlter_scanned constOk none
  have alterOk := alter.entries constOk (alterVals ▸ constOk.range)
  obtain ⟨sems, semsVals⟩ := foldl_freeSem_scanned alterOk (List.range
    (((sma.freeList sma.pendingConst).setConst [] none).freeList
      (((sma.freeList sma.pendingConst).setConst [] none).alterList none)).nsems)
  exact ⟨_, (const.trans alter).trans sems, semsVals.trans (alterVals.trans constVals),
    (sems.alter none).eq_nil (alterList_setAlter_self _ _ _), rfl⟩

/-- What a section under the locks does to the array: nothing, a change of the values and
the update that follows, the loss of entries, a new entry, or the removal. -/
inductive Effect (sma : SemArray) (e : SemEvent) : SemArray → Prop where
  | same : Effect sma e sma
  | update {vals : SemVals} {sempid : Nat → Int} {sops : Option (List Sembuf)} {array : Bool}
      (range : vals.InRange)
      (same : ∀ n, n ∉ sma.modified sops → vals.semval n = sma.vals.semval n)
      (le : ∀ n, n ∉ sma.increased sops → vals.semval n ≤ sma.vals.semval n)
      (single : array = false → sma.complexCount = 0) :
      Effect sma e
        (((sma.withRest vals sempid sma.complexCount sma.tasks).doSmartUpdate sops).semUnlock array)
  | scan {sma' : SemArray} {array : Bool} (scan : Scanned sma sma') (vals : sma'.vals = sma.vals)
      (pending : ∀ r ∈ sma'.pendingAlter, r ∈ sma.pendingAlter)
      (single : array = false → sma.complexCount = 0) : Effect sma e (sma'.semUnlock array)
  | queue {id undo : Nat} {sops : List Sembuf} {pid : Int}
      (call : e = .semtimedop id sops undo pid)
      (sleeps : Sleeps sma.vals (newQueue id sops undo pid))
      (arrives : sma.Arrives (sma.perform (newQueue id sops undo pid)).2.2) :
      Effect sma e ((sma.enqueue (sma.perform (newQueue id sops undo pid)).2.2).semUnlock
        (sma.locksArray sops))
  | remove {sma' : SemArray} (scan : Scanned sma sma') (vals : sma'.vals = sma.vals)
      (pending : sma'.pendingAlter = []) :
      Effect sma e (({ sma' with removed := true } : SemArray).semUnlock true)

theorem newQueue_zero (const : (newQueue id sops undo pid).alter = false) :
    ∀ sop ∈ sops, sop.semOp = 0 := by
  simpa [newQueue] using const

/-- The values of a request that is not queued and not followed by an update. -/
theorem perform_vals_of_const (range : v.InRange)
    (h : ¬ ((performAtomicSemop v (newQueue id sops undo pid)).1 = .done ∧
      (newQueue id sops undo pid).alter = true)) :
    (performAtomicSemop v (newQueue id sops undo pid)).2.1 = v := by
  by_cases done : (performAtomicSemop v (newQueue id sops undo pid)).1 = .done
  · have const : (newQueue id sops undo pid).alter = false := by simpa [done] using h
    exact (perform_zero range (newQueue_zero const)).1
  · exact perform_vals_of_ne_done done

theorem Placed.semtimedop_effect (placed : sma.Placed) (id : Nat) (sops : List Sembuf) (undo : Nat)
    (pid : Int) :
    Effect sma (.semtimedop id sops undo pid) (sma.semtimedop id sops undo pid).2 := by
  unfold semtimedop
  split
  · exact .same
  next nonempty =>
    split
    · exact .same
    next named =>
      have single : sma.locksArray sops = false → sma.complexCount = 0 :=
        fun h => (locksArray_eq_false.mp h).2
      obtain ⟨sempid, eq⟩ := perform_eq sma (newQueue id sops undo pid)
      dsimp only
      split
      next done =>
        refine .update (perform_inRange placed.range) (fun n out => perform_semval_of_notMem out)
          (fun n out => perform_semval_le ?_) single
        intro sop mem num
        by_contra positive
        refine out (mem_map.mpr ⟨sop, mem_filter.mpr ⟨mem, ?_⟩, num⟩)
        simpa using positive
      next quiet =>
        split
        next sleeps =>
          rw [perform_of_ne_done (by rw [sleeps]; decide)]
          exact .queue rfl sleeps
            (arrives_newQueue (perform_bare sma _) nonempty (by simpa using named) sleeps)
        next =>
          rw [eq]
          exact .scan (scanned_withRest sma _ sempid sma.tasks)
            (perform_vals_of_const placed.range quiet) (fun _ mem => mem) single

/-- A section that sets values and updates all queues. -/
theorem effect_setVals {e : SemEvent} (range : vals.InRange) (sempid : Nat → Int)
    (same : ∀ n, sma.nsems ≤ n → vals.semval n = sma.vals.semval n) : Effect sma e
      (((sma.withRest vals sempid sma.complexCount sma.tasks).doSmartUpdate none).semUnlock
        true) := by
  have outside {n : Nat} (out : n ∉ List.range sma.nsems) :
      vals.semval n = sma.vals.semval n := same n (by simpa using out)
  exact .update range (fun _ => outside) (fun _ out => Int.le_of_eq (outside out)) (by simp)

theorem Placed.effect (placed : sma.Placed) (e : SemEvent) : Effect sma e (semStep sma e) := by
  unfold semStep
  split
  · exact .same
  cases e with
  | semtimedop id sops undo pid => exact placed.semtimedop_effect id sops undo pid
  | interrupted q =>
    show Effect sma _ (sma.interrupted q)
    unfold interrupted
    split
    · exact .same
    next del =>
      obtain ⟨scan, vals, pending⟩ := listDel_scanned placed.toEntries del
      exact .scan scan vals pending fun h => (locksArray_eq_false.mp h).2
  | setval semnum val pid =>
    show Effect sma _ (sma.semctlSetval semnum val pid).2
    unfold semctlSetval
    split
    · exact .same
    next inRange =>
      split
      · exact .same
      next inside =>
        refine effect_setVals (setvalVals_inRange placed.range semnum (by omega) (by omega)) _
          fun n out => ?_
        exact if_neg (by omega)
  | setall semIo =>
    show Effect sma _ (sma.semctlSetall semIo).2
    unfold semctlSetall
    split
    · exact .same
    next inRange =>
      refine effect_setVals (setallVals_inRange placed.range ?_) _ fun n out => ?_
      · simpa using inRange
      · exact if_neg (by omega)
  | exitSem undo pid =>
    refine effect_setVals (exitVals_inRange placed.range sma.nsems undo) _ fun n out => ?_
    exact if_neg (by simp only [adjusts, decide_eq_true_eq]; omega)
  | glance => exact .scan (.refl sma) rfl (fun _ mem => mem) (by simp)
  | rmid =>
    obtain ⟨sma', scan, vals, pending, eq⟩ := freeary_eq placed.toEntries
    rw [eq]
    exact .remove scan vals pending

theorem Placed.newary (nsems : Nat) : (newary nsems).Placed where
  range := ⟨fun _ => by simp [SemArray.newary, semvmx],
    fun _ _ => by simp [SemArray.newary, semaem, semvmx]⟩
  alter m := by cases m <;> simp [SemArray.newary, alterList]
  const m := by cases m <;> simp [SemArray.newary, constList]
  alterNamed m := by cases m <;> simp [SemArray.newary, alterList]
  constNamed m := by cases m <;> simp [SemArray.newary, constList]
  counted := rfl
  simple _ := rfl
  complex h := absurd rfl h

theorem Placed.step (placed : sma.Placed) (e : SemEvent) :
    sma.KeepsPlace (arrived e) (semStep sma e) := by
  have effect := placed.effect e
  generalize semStep sma e = after at effect ⊢
  cases effect with
  | same => exact placed.keepsPlace_self _
  | update range _ _ single =>
    obtain ⟨scan, entries⟩ := doSmartUpdate_withRest_scanned placed.toEntries range _ _
    exact placed.keepsPlace_scanned scan entries single _
  | scan scan vals _ single =>
    exact placed.keepsPlace_scanned scan (scan.entries placed.toEntries (vals ▸ placed.range))
      single _
  | @queue id undo sops pid call _ arrives =>
    have same := perform_bare sma (newQueue id sops undo pid)
    have place := keepsPlace_enqueued same (placed.enqueue_spec arrives)
    rw [call]
    rwa [SemQueue.sops_of_bare same] at place
  | remove scan vals _ =>
    have queued := placed.queued.scanned scan (scan.entries placed.toEntries (vals ▸ placed.range))
    obtain ⟨after, order⟩ := @Queued.semUnlock_placed _ queued.rmid true (by simp)
    refine ⟨after, fun n => ?_⟩
    rw [order n]
    exact (Shrinks.append_right _ _).trans (scan.order n)

end Linux318.Source.Ipc.SemArray
