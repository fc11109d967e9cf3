import Linux318.Source.Vmalloc.VmapAttempt

/-!
# Kernel virtual ranges

Source: mm/vmalloc.c. The allocator of kernel virtual ranges over whole runs. An area that is
handed out is as requested and overlaps no other one. A request is refused only if there is no
room for it, unless its size is exactly that of the cached hole: such a request is searched for
behind the cached node, and the hole before it is missed.
-/
namespace Linux318.Guarantees
open Lib Source.Vmalloc

variable {res : Outcome × VmapState} {areas : List VmapArea}

/-- What the caller of `alloc_vmap_area` relies on; the state is that after the call. -/
structure AllocCorrect (r : VmapRequest) (result : Outcome × VmapState) : Prop where
  noBug : result.1 ≠ .bug
  aligned {va : VmapArea} : result.1 = .found va → r.align ∣ va.vaStart
  inside {va : VmapArea} : result.1 = .found va →
    r.vstart ≤ va.vaStart ∧ va.vaEnd = va.vaStart + r.size ∧ va.vaEnd ≤ r.vend
  present {va : VmapArea} : result.1 = .found va → va ∈ result.2.areas
  disjoint {va v : VmapArea} : result.1 = .found va → v ∈ result.2.areas → v ≠ va →
    v.vaEnd ≤ va.vaStart ∨ va.vaEnd ≤ v.vaStart
  refused : result.1 = .overflow → ∀ a, r.align ∣ a → r.vstart ≤ a → a + r.size ≤ r.vend →
    ∃ v ∈ result.2.areas, v.vaStart < a + r.size ∧ a < v.vaEnd

/-- The checks of `alloc_vmap_area`, and the range of its arguments. -/
def Requested (r : VmapRequest) : Prop :=
  (0 < r.size ∧ r.size % 4096 = 0 ∧ r.align = 2 ^ Nat.log2 r.align) ∧
    r.size < 2 ^ 64 ∧ r.vstart < 2 ^ 64 ∧ r.vend < 2 ^ 64

/-- No address wraps around when it is aligned, and a request that uses the cached node is not
of the size of the cached hole. -/
def AttemptMeets (s : VmapState) (r : VmapRequest) : Prop :=
  Requested r ∧ (r.vstart + r.align ≤ 2 ^ 64 ∧ ∀ v ∈ s.areas, v.vaEnd + r.align ≤ 2 ^ 64) ∧
    (¬ SkipsCache s r → r.size ≠ s.cachedHoleSize)

def VmapMeets (s : VmapState) : VmapEvent → Prop
  | .attempt _ r => AttemptMeets s r
  | .free va => va ∈ s.areas

instance (r : VmapRequest) : Decidable (Requested r) := inferInstanceAs (Decidable (_ ∧ _))

instance (s : VmapState) (r : VmapRequest) : Decidable (AttemptMeets s r) :=
  inferInstanceAs (Decidable (_ ∧ _))

instance (s : VmapState) (e : VmapEvent) : Decidable (VmapMeets s e) := by
  cases e <;> unfold VmapMeets <;> infer_instance

section
variable {s : VmapState} {r : VmapRequest}

theorem AttemptMeets.attempted (meets : AttemptMeets s r) (ok : VmapOk s) (shape : Shape VmapArea) :
    Attempted s.areas r (attempt shape s r) := by
  obtain ⟨⟨⟨pos, _, power⟩, size, vstart, vend⟩, ⟨start, ends⟩, differs⟩ := meets
  exact attempt_spec shape ⟨pos, size, ⟨_, power⟩, vstart, vend⟩ ⟨start, fun mem => ends _ mem⟩ ok
    differs

theorem attempted_ok (attempted : Attempted areas r res) : VmapOk res.2 := by
  cases attempted with
  | found split linked placed free ok => exact ok
  | overflow same noRoom ok => exact ok

/-- Every operation keeps the invariant. -/
theorem vmapStep_ok (s : VmapState) (e : VmapEvent) (ok : VmapOk s) (meets : VmapMeets s e) :
    VmapOk (vmapStep s e) := by
  cases e with
  | attempt shape r => exact attempted_ok (AttemptMeets.attempted meets ok shape)
  | free va => exact freeVmapArea_ok ok meets

/-- An attempt ends as the request asks. -/
theorem attempted_correct (attempted : Attempted areas r res) : AllocCorrect r res := by
  cases attempted with
  | overflow same noRoom ok =>
    refine ⟨by simp, by simp, by simp, by simp, by simp, fun _ a aligned start inside => ?_⟩
    by_contra none
    refine noRoom a aligned start inside fun v mem => ?_
    by_contra overlaps
    exact none ⟨v, same ▸ mem, by omega, by omega⟩
  | found split linked placed free ok =>
    refine ⟨by simp, fun h => ?_, fun h => ?_, fun h => ?_, fun {_ v} h mem ne => ?_, by simp⟩
    all_goals cases h
    · exact placed.aligned
    · exact ⟨placed.start, placed.size, placed.fin⟩
    · simp [linked]
    rw [placed.size]
    refine free v ?_
    rw [linked, List.mem_append, List.mem_cons] at mem
    rw [split, List.mem_append]
    rcases mem with front | same | back
    · exact .inl front
    · exact absurd same ne
    · exact .inr back

theorem emptyVmap_ok : VmapOk emptyVmap :=
  ⟨⟨.nil, by simp [emptyVmap], by simp [emptyVmap]⟩, by simp [emptyVmap]⟩

end

/-- In every run whose attempts meet the condition, `alloc_vmap_area` is sound and complete. -/
theorem allocVmapArea_correct (events : List VmapEvent)
    (meets : StepsMeet vmapStep VmapMeets emptyVmap events) (shape shape' : Shape VmapArea)
    (r : VmapRequest) (between : List VmapEvent)
    (first : AttemptMeets (runFrom vmapStep emptyVmap events) r)
    (again : (attempt shape (runFrom vmapStep emptyVmap events) r).1 = .overflow →
      StepsMeet vmapStep VmapMeets (attempt shape (runFrom vmapStep emptyVmap events) r).2 between ∧
      AttemptMeets (runFrom vmapStep (attempt shape (runFrom vmapStep emptyVmap events) r).2 between)
        r) :
    AllocCorrect r (allocVmapArea shape shape' (runFrom vmapStep emptyVmap events) r between) := by
  have ok := runFrom_invariant vmapStep vmapStep_ok events emptyVmap emptyVmap_ok meets
  generalize runFrom vmapStep emptyVmap events = s at ok first again ⊢
  have attempted := first.attempted ok shape
  rw [allocVmapArea]
  generalize attempt shape s r = result at attempted again ⊢
  cases attempted with
  | found split linked placed free ok' =>
    exact attempted_correct (.found split linked placed free ok')
  | overflow same noRoom ok' =>
    obtain ⟨steps, second⟩ := again rfl
    exact attempted_correct
      (second.attempted (runFrom_invariant vmapStep vmapStep_ok between _ ok' steps) shape')

def pages (n : Nat) : VmapRequest := ⟨n * 4096, 4096, 0, 5 * 4096⟩

def line : Shape VmapArea := Shape.line VmapArea

def holeRun : List VmapEvent :=
  [.attempt line (pages 1), .attempt line (pages 1), .attempt line (pages 1), .free ⟨4096, 8192⟩]

theorem allocVmapArea_correct_twoPages :
    AllocCorrect (pages 2) (allocVmapArea line line (runFrom vmapStep emptyVmap holeRun) (pages 2)
      []) :=
  allocVmapArea_correct holeRun (by decide +kernel) line line (pages 2) [] (by decide +kernel)
    (by decide +kernel)

/-- In every such run the areas stay apart, and no hole below the cached node is larger than the
cached size. -/
theorem vmapRun_ok (events : List VmapEvent)
    (meets : StepsMeet vmapStep VmapMeets emptyVmap events) :
    VmapOk (runFrom vmapStep emptyVmap events) :=
  runFrom_invariant vmapStep vmapStep_ok events emptyVmap emptyVmap_ok meets

theorem vmapRun_ok_hole : VmapOk (runFrom vmapStep emptyVmap holeRun) :=
  vmapRun_ok holeRun (by decide +kernel)

/-- A request for two pages records a hole of one page. A request for one page is then
refused, and the hole is free. -/
theorem allocVmapArea_misses_hole : Requested (pages 1) ∧
      (allocVmapArea line line (runFrom vmapStep emptyVmap (holeRun ++ [.attempt line (pages 2)]))
        (pages 1) []).1 = .overflow ∧
      ∀ v ∈ (allocVmapArea line line
          (runFrom vmapStep emptyVmap (holeRun ++ [.attempt line (pages 2)])) (pages 1) []).2.areas,
        v.vaEnd ≤ 4096 ∨ 4096 + (pages 1).size ≤ v.vaStart := by
  decide +kernel

end Linux318.Guarantees
