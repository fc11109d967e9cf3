import Linux318.Lib.Run
import Linux318.Source.Percpu.AreaFree

/-!
# The area map of a per-cpu chunk

Source: mm/percpu.c. The area map of a per-cpu chunk over whole runs of allocations, frees,
population changes and extensions of the map. A request that only accepts populated pages may be
placed past the start of the first area; the area before it is then read at index -1.
-/
namespace Linux318.Guarantees
open List Lib Source.Percpu

/-- The entry of every area, with the entry behind it. -/
def areasOf : List Int → List (Int × Int)
  | a :: b :: rest => (a, b) :: areasOf (b :: rest)
  | _ => []

def areaSize (a : Int × Int) : Int := offsetOf a.2 - offsetOf a.1

structure LiveArea where
  off : Int
  size : Int
  align : Int

structure AreaMapOk (unitSize : Int) (chunk : PcpuChunk) (live : List LiveArea) : Prop where
  start : ∀ e ∈ chunk.map.head?, offsetOf e = 0
  increasing : (chunk.map.map offsetOf).Pairwise (· < ·)
  marker : chunk.map.getLast? = some (unitSize + 1)
  disjoint : live.Pairwise fun x y => x.off + x.size ≤ y.off ∨ y.off + y.size ≤ x.off
  aligned {x : LiveArea} : x ∈ live → x.align ∣ x.off
  present {x : LiveArea} : x ∈ live → ∃ next, (x.off + 1, next) ∈ areasOf chunk.map ∧
    x.size ≤ areaSize (x.off + 1, next)
  apart : (areasOf chunk.map).IsChain fun a b => inUse a.1 = true ∨ inUse b.1 = true
  free : chunk.freeSize =
    ((areasOf chunk.map).map fun a => if inUse a.1 then 0 else areaSize a).sum
  hint {a : Int × Int} : a ∈ areasOf chunk.map → inUse a.1 = false → areaSize a ≤ chunk.contigHint
  first {a : Int × Int} : a ∈ (areasOf chunk.map).take chunk.firstFree → inUse a.1 = true

inductive MapEvent where
  | alloc (size align : Int) (popOnly : Bool)
  | free (off : Int)
  | populate (pageStart pageEnd : Nat) (b : Bool)
  | extend (newAlloc : Nat)

/-- The chunk, or none once an entry outside of the map was accessed, and the areas that
were allocated and not yet freed. -/
structure MapState where
  chunk : Option PcpuChunk
  live : List LiveArea

def startMap (unitPages : Nat) : MapState := ⟨some (pcpuAllocChunk unitPages), []⟩

def mapStep (t : MapState) (e : MapEvent) : MapState :=
  match t.chunk with
  | none => t
  | some chunk =>
    match e with
    | .alloc size align popOnly =>
      match pcpuAllocArea chunk size align popOnly with
      | none => { t with chunk := none }
      | some (off, _, chunk') =>
        ⟨some chunk', if off < 0 then t.live else ⟨off, size, align⟩ :: t.live⟩
    | .free off =>
      match pcpuFreeArea chunk off with
      | none => { t with chunk := none }
      | some (_, chunk') => ⟨some chunk', t.live.filter fun x => x.off ≠ off⟩
    | .populate pageStart pageEnd b => ⟨some (setPopulated chunk pageStart pageEnd b), t.live⟩
    | .extend newAlloc => ⟨some (pcpuExtendAreaMap chunk newAlloc), t.live⟩

/-- A request is not placed past the start of a free first area. -/
def FromStart (chunk : PcpuChunk) (size align : Int) (popOnly : Bool) : Prop :=
  ∀ a ∈ (areasOf chunk.map).head?, inUse a.1 = false →
    ∀ head ∈ pcpuFitInArea chunk 0 (areaSize a) size align popOnly, head ≤ 0

/-- The event is one of the allocator's callers, and a request is small and meets
`FromStart`. -/
def MapMeets (unitSize : Int) (t : MapState) (e : MapEvent) : Prop :=
  ∀ chunk ∈ t.chunk,
    match e with
    | .alloc size align popOnly =>
      (2 ≤ size ∧ 2 ∣ size ∧ 2 ≤ align ∧ align = 2 ^ Nat.log2 align.toNat ∧
        mapUsed chunk + 3 ≤ chunk.mapAlloc) ∧
      unitSize + align + size ≤ 2 ^ 31 ∧ FromStart chunk size align popOnly
    | .free off => ∃ x ∈ t.live, x.off = off
    | .populate .. => True
    | .extend _ => True

instance (chunk : PcpuChunk) (size align : Int) (popOnly : Bool) :
    Decidable (FromStart chunk size align popOnly) :=
  inferInstanceAs (Decidable (∀ a ∈ (areasOf chunk.map).head?, inUse a.1 = false →
    ∀ head ∈ pcpuFitInArea chunk 0 (areaSize a) size align popOnly, head ≤ 0))

instance (unitSize : Int) (t : MapState) (e : MapEvent) : Decidable (MapMeets unitSize t e) := by
  unfold MapMeets
  cases e <;> infer_instance

/-- The entries of areas that start at an offset. -/
def places (off : Nat) : List Area → List (Int × Int)
  | [] => []
  | a :: rest => ((off : Int) + flag a.used, ((off + a.size : Nat) : Int) + flag (nextUsed rest)) ::
      places (off + a.size) rest

variable {l areas' : List Area} {chunk' : PcpuChunk}

theorem areasOf_starts (off : Nat) (l : List Area) :
    areasOf (starts off l ++ [((off + total l : Nat) : Int) + 1]) = places off l := by
  induction l generalizing off with
  | nil => rfl
  | cons a l ih =>
    rw [total, ← Nat.add_assoc]
    have behind := ih (off + a.size)
    cases l with
    | nil => rfl
    | cons b l =>
      rw [starts, places, ← behind]
      rfl

def toArea (p : Int × Int) : Area := ⟨(areaSize p).toNat, inUse p.1⟩

theorem places_toArea (off : Nat) (even : 2 ∣ off) (sizes : ∀ a ∈ l, 0 < a.size ∧ 2 ∣ a.size) :
    (places off l).map toArea = l ∧ ∀ p ∈ places off l, 0 ≤ areaSize p := by
  induction l generalizing off with
  | nil => exact ⟨rfl, fun p mem => by cases mem⟩
  | cons a l ih =>
    have here := sizes a mem_cons_self
    have even' : 2 ∣ off + a.size := by omega
    obtain ⟨rest, nonneg⟩ := ih (off + a.size) even' fun b mem =>
      sizes b (mem_cons_of_mem a mem)
    have size : areaSize ((off : Int) + flag a.used,
        ((off + a.size : Nat) : Int) + flag (nextUsed l)) = a.size := by
      rw [areaSize, offsetOf_eq even, offsetOf_eq even']
      omega
    refine ⟨?_, fun p mem => ?_⟩
    · rw [places, map_cons, rest, toArea, size, inUse_eq even, Int.toNat_natCast]
    rcases mem_cons.mp mem with rfl | later
    · omega
    · exact nonneg p later

theorem usedAt_place {off base m : Nat} (even : 2 ∣ base) (sizes : ∀ a ∈ l, 0 < a.size ∧ 2 ∣ a.size)
    (used : UsedAt l off m) : ∃ next, (((base + off : Nat) : Int) + 1, next) ∈ places base l ∧
      areaSize (((base + off : Nat) : Int) + 1, next) = m := by
  induction l generalizing base off with
  | nil => exact used.elim
  | cons a l ih =>
    have here := sizes a mem_cons_self
    have even' : 2 ∣ base + a.size := by omega
    rcases used with ⟨rfl, flagged, rfl⟩ | ⟨off', rfl, later⟩
    · refine ⟨((base + a.size : Nat) : Int) + flag (nextUsed l), ?_, ?_⟩
      · rw [places, flagged]
        exact mem_cons_self
      rw [areaSize, offsetOf_eq even']
      have start := offsetOf_eq even true
      simp only [flag, if_pos] at start
      rw [Nat.add_zero, start]
      omega
    · obtain ⟨next, mem, size⟩ := ih even' (fun b mem => sizes b (mem_cons_of_mem a mem)) later
      rw [Nat.add_assoc] at mem size
      exact ⟨next, mem_cons_of_mem _ mem, size⟩

theorem freeTotal_toArea (l : List (Int × Int)) (nonneg : ∀ p ∈ l, 0 ≤ areaSize p) :
    (freeTotal (l.map toArea) : Int) = (l.map fun a => if inUse a.1 then 0 else areaSize a).sum := by
  induction l with
  | nil => rfl
  | cons p l ih =>
    have here := nonneg p mem_cons_self
    have rest := ih fun q mem => nonneg q (mem_cons_of_mem p mem)
    rw [map_cons, freeTotal, Nat.cast_add, rest, map_cons, sum_cons, toArea]
    cases inUse p.1
    · simp [Int.toNat_of_nonneg here]
    · rfl

/-- Used areas at different offsets do not overlap. -/
theorem usedAt_disjoint {off off' m m' : Nat} (used : UsedAt l off m) (used' : UsedAt l off' m')
    (ne : off ≠ off') : off + m ≤ off' ∨ off' + m' ≤ off := by
  induction l generalizing off off' with
  | nil => exact used.elim
  | cons a l ih =>
    rcases used with ⟨rfl, _, rfl⟩ | ⟨o, rfl, later⟩
    · rcases used' with ⟨rfl, _, _⟩ | ⟨o', rfl, _⟩
      · exact absurd rfl ne
      · omega
    rcases used' with ⟨rfl, _, rfl⟩ | ⟨o', rfl, later'⟩
    · omega
    · have := ih later later' (by omega)
      omega

/-- The live areas are used areas of the chunk. -/
structure LiveOk (areas : List Area) (live : List LiveArea) : Prop where
  distinct : live.Pairwise fun x y => x.off ≠ y.off
  nonneg {x : LiveArea} : x ∈ live → 0 ≤ x.off
  aligned {x : LiveArea} : x ∈ live → x.align ∣ x.off
  used {x : LiveArea} : x ∈ live → ∃ m : Nat, x.size ≤ m ∧ UsedAt areas x.off.toNat m

def MapInv (unitSize : Nat) (t : MapState) : Prop :=
  ∃ chunk areas, t.chunk = some chunk ∧ ChunkOk unitSize chunk areas ∧ LiveOk areas t.live

theorem MapInv.ok {unitSize : Nat} {t : MapState} (inv : MapInv unitSize t) :
    ∃ chunk, t.chunk = some chunk ∧ AreaMapOk unitSize chunk t.live := by
  obtain ⟨chunk, areas, here, ok, liveOk⟩ := inv
  have sizes : ∀ a ∈ areas, 0 < a.size ∧ 2 ∣ a.size := fun a mem => ok.cut.sizes mem
  obtain ⟨toAreas, nonneg⟩ := places_toArea 0 ⟨0, rfl⟩ sizes
  have pairs : areasOf chunk.map = places 0 areas := by
    rw [ok.map, ← ok.cut.sum, ← areasOf_starts, Nat.zero_add]
  refine ⟨chunk, here, ?_, ?_, ?_, ?_, liveOk.aligned, fun {x} mem => ?_, ?_, ?_,
    fun {p} mem unused => ?_, fun {p} mem => ?_⟩
  · intro e mem
    rw [ok.map] at mem
    have whole := ok.cut.sum
    cases areas with
    | nil =>
      have zero : unitSize = 0 := whole.symm
      simp only [starts, zero, nil_append, List.head?_cons, Option.mem_some_iff] at mem
      rw [← mem]
      rfl
    | cons a areas =>
      simp only [starts, cons_append, List.head?_cons, Option.mem_some_iff] at mem
      rw [← mem]
      exact offsetOf_eq ⟨0, rfl⟩ a.used
  · have offsets := (starts_offsets 0 ⟨0, rfl⟩ sizes).2
    rw [Nat.zero_add, ok.cut.sum, ← ok.map] at offsets
    exact offsets
  · rw [ok.map, List.getLast?_concat]
  · refine liveOk.distinct.imp_of_mem fun {x y} left right ne => ?_
    obtain ⟨m, large, used⟩ := liveOk.used left
    obtain ⟨m', large', used'⟩ := liveOk.used right
    have nonneg := liveOk.nonneg left
    have nonneg' := liveOk.nonneg right
    have := usedAt_disjoint used used' (by omega)
    omega
  · obtain ⟨m, large, used⟩ := liveOk.used mem
    obtain ⟨next, place, size⟩ := usedAt_place ⟨0, rfl⟩ sizes used
    rw [Nat.zero_add, Int.toNat_of_nonneg (liveOk.nonneg mem)] at place size
    rw [pairs]
    exact ⟨next, place, by omega⟩
  · have apart := ok.cut.apart
    rw [← toAreas, isChain_map] at apart
    rw [pairs]
    exact apart
  · rw [ok.free, pairs, ← freeTotal_toArea _ nonneg, toAreas]
  · rw [pairs] at mem
    have area : toArea p ∈ areas := by
      rw [← toAreas]
      exact mem_map_of_mem mem
    have hint := ok.hint area unused
    rw [toArea, Int.toNat_of_nonneg (nonneg p mem)] at hint
    exact hint
  · rw [pairs] at mem
    refine ok.first (a := toArea p) ?_
    rw [← toAreas, ← map_take]
    exact mem_map_of_mem mem

theorem startMap_inv {unitPages : Nat} (pos : 0 < unitPages) :
    MapInv (unitPages * 4096) (startMap unitPages) := by
  refine ⟨_, [⟨unitPages * 4096, false⟩], rfl, ⟨?_, ⟨Nat.add_zero _, fun mem => ?_, .singleton _⟩, ?_,
    fun mem _ => ?_, fun mem => by cases mem⟩, ⟨.nil, ?_, ?_, ?_⟩⟩
  · simp [pcpuAllocChunk, starts, flag, pageSize]
  · rw [mem_singleton.mp mem]
    simp only
    omega
  · simp [pcpuAllocChunk, freeTotal, pageSize]
  · rw [mem_singleton.mp mem]
    simp [pcpuAllocChunk, pageSize]
  all_goals
    intro x mem
    cases mem

section Step
variable {unitSize : Nat} {chunk : PcpuChunk} {areas : List Area} {live : List LiveArea}

/-- The new area joins those in use. -/
theorem LiveOk.alloc {size align off : Int} (liveOk : LiveOk areas live)
    (made : Allocated unitSize areas size align off chunk' areas') :
    LiveOk areas' (⟨off, size, align⟩ :: live) := by
  refine ⟨pairwise_cons.mpr ⟨fun y mem same => ?_, liveOk.distinct⟩, fun {x} mem => ?_,
    fun {x} mem => ?_, fun {x} mem => ?_⟩
  · obtain ⟨m, _, used⟩ := liveOk.used mem
    rw [← same] at used
    exact made.fresh m used
  · rcases mem_cons.mp mem with rfl | old
    · exact made.nonneg
    · exact liveOk.nonneg old
  · rcases mem_cons.mp mem with rfl | old
    · exact made.aligned
    · exact liveOk.aligned old
  · rcases mem_cons.mp mem with rfl | old
    · exact made.here
    obtain ⟨m, large, used⟩ := liveOk.used old
    obtain ⟨m', larger, used'⟩ := made.kept _ _ used
    exact ⟨m', by omega, used'⟩

/-- A free takes one area away. -/
theorem LiveOk.free {off : Int} (nonneg : 0 ≤ off) (liveOk : LiveOk areas live)
    (freed : Freed unitSize areas off.toNat chunk' areas') :
    LiveOk areas' (live.filter fun x => x.off ≠ off) := by
  refine ⟨liveOk.distinct.filter _, fun {x} mem => ?_, fun {x} mem => ?_, fun {x} mem => ?_⟩
  all_goals obtain ⟨old, ne⟩ := mem_filter.mp mem
  · exact liveOk.nonneg old
  · exact liveOk.aligned old
  obtain ⟨m, large, used⟩ := liveOk.used old
  have := liveOk.nonneg old
  rw [decide_eq_true_eq] at ne
  exact ⟨m, large, freed.kept _ _ (by omega) used⟩

/-- The condition on a request, for the areas of the chunk. -/
theorem FromStart.head_le {size align : Int} {popOnly : Bool} (ok : ChunkOk unitSize chunk areas)
    (fromStart : FromStart chunk size align popOnly) (n : Nat) (rest : List Area) (head : Int)
    (first : areas = ⟨n, false⟩ :: rest)
    (fitted : pcpuFitInArea chunk 0 n size align popOnly = some head) : head ≤ 0 := by
  have pairs : areasOf chunk.map = places 0 areas := by
    rw [ok.map, ← ok.cut.sum, ← areasOf_starts, Nat.zero_add]
  have even := (ok.cut.sizes (by rw [first]; exact mem_cons_self)).2
  have size : areaSize (((0 : Nat) : Int) + flag false, ((0 + n : Nat) : Int) + flag (nextUsed rest)) =
      n := by
    rw [areaSize, offsetOf_eq ⟨0, rfl⟩, offsetOf_eq (by simpa using even)]
    omega
  refine fromStart _ (by rw [pairs, first]; rfl) (inUse_eq ⟨0, rfl⟩ false) head ?_
  rw [size]
  exact fitted

/-- Every operation keeps the invariant. -/
theorem mapStep_inv (pages : 4096 ∣ unitSize) (t : MapState) (e : MapEvent) (inv : MapInv unitSize t)
    (meets : MapMeets unitSize t e) : MapInv unitSize (mapStep t e) := by
  obtain ⟨chunk, areas, here, ok, liveOk⟩ := inv
  have meets := meets chunk here
  cases e with
  | alloc size align popOnly =>
    obtain ⟨⟨two, evenSize, twoAlign, power, spare⟩, small, fromStart⟩ := meets
    have evenAlign : 2 ∣ align := by
      generalize Nat.log2 align.toNat = order at power
      cases order with
      | zero => omega
      | succ order => exact ⟨2 ^ order, by rw [power, pow_succ, Int.mul_comm]⟩
    obtain ⟨off, occ, chunk', res, _, outcome⟩ := pcpuAllocArea_spec (by omega) evenSize
      (by omega) evenAlign pages small popOnly ok spare (fromStart.head_le ok)
    simp only [mapStep, here, res]
    rcases outcome with ⟨rfl, ok'⟩ | ⟨areas', made⟩
    · exact ⟨chunk', areas, rfl, ok', liveOk⟩
    · rw [if_neg (Int.not_lt.mpr made.nonneg)]
      exact ⟨chunk', areas', rfl, made.ok, liveOk.alloc made⟩
  | free off =>
    obtain ⟨x, mem, rfl⟩ := meets
    obtain ⟨m, _, used⟩ := liveOk.used mem
    have nonneg := liveOk.nonneg mem
    obtain ⟨occ, chunk', areas', res, freed⟩ := pcpuFreeArea_spec ok used
    rw [Int.toNat_of_nonneg nonneg] at res
    simp only [mapStep, here, res]
    exact ⟨chunk', areas', rfl, freed.ok, liveOk.free nonneg freed⟩
  | populate pageStart pageEnd b =>
    simp only [mapStep, here]
    exact ⟨_, areas, rfl, ⟨ok.map, ok.cut, ok.free, ok.hint, ok.first⟩, liveOk⟩
  | extend newAlloc =>
    simp only [mapStep, here]
    refine ⟨_, areas, rfl, ?_, liveOk⟩
    rw [pcpuExtendAreaMap]
    split
    · exact ok
    · exact ⟨ok.map, ok.cut, ok.free, ok.hint, ok.first⟩

end Step

/-- In every run whose requests stay at the start of a free first area, no entry outside
of the map is accessed and the map is well formed. -/
theorem mapRun_ok (unitPages : Nat) (pos : 0 < unitPages) (events : List MapEvent)
    (meets : StepsMeet mapStep (MapMeets (unitPages * 4096 : Nat)) (startMap unitPages) events) :
    ∃ chunk, (runFrom mapStep (startMap unitPages) events).chunk = some chunk ∧
      AreaMapOk (unitPages * 4096 : Nat) chunk (runFrom mapStep (startMap unitPages) events).live :=
  (runFrom_invariant mapStep (mapStep_inv ⟨_, Nat.mul_comm ..⟩) events _ (startMap_inv pos) meets).ok

/-- Areas are allocated, split, freed and merged. -/
theorem mapRun_ok_merged :
    ∃ chunk, (runFrom mapStep (startMap 2) [.alloc 8 4 false, .alloc 64 32 false, .free 0,
        .populate 0 2 true, .alloc 16 16 true, .free 32]).chunk = some chunk ∧
      AreaMapOk (2 * 4096 : Nat) chunk (runFrom mapStep (startMap 2) [.alloc 8 4 false,
        .alloc 64 32 false, .free 0, .populate 0 2 true, .alloc 16 16 true, .free 32]).live :=
  mapRun_ok 2 (by decide) _ (by decide +kernel)

/-- Only the second page is populated: the request is placed there, and the area before
the first one is read. -/
theorem pcpuAllocArea_before_first :
    pcpuFitInArea (setPopulated (pcpuAllocChunk 2) 1 2 true) 0 8192 4 4 true = some 4096 ∧
      entry (setPopulated (pcpuAllocChunk 2) 1 2 true) (0 - 1) = none ∧
      pcpuAllocArea (setPopulated (pcpuAllocChunk 2) 1 2 true) 4 4 true = none ∧
      (runFrom mapStep (startMap 2) [.populate 1 2 true, .alloc 4 4 true]).chunk = none := by
  decide +kernel

end Linux318.Guarantees
