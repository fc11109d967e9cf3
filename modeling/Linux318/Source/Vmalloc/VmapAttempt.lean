import Linux318.Source.Vmalloc.VmapAreaOk

/-!
What one attempt of `alloc_vmap_area` and one `__free_vmap_area` do: the invariant is kept,
an area that is found is as requested, and `overflow` means that there is no room.
-/
namespace Linux318.Source.Vmalloc
open List Lib

variable {pre post : List VmapArea} {va first : VmapArea} {addr : Nat}

structure Placed (r : VmapRequest) (va : VmapArea) : Prop where
  aligned : r.align ∣ va.vaStart
  start : r.vstart ≤ va.vaStart
  size : va.vaEnd = va.vaStart + r.size
  fin : va.vaEnd ≤ r.vend

inductive Attempted (areas : List VmapArea) (r : VmapRequest) : Outcome × VmapState → Prop
  | found {pre post : List VmapArea} {va : VmapArea} {s' : VmapState} (split : areas = pre ++ post)
      (linked : s'.areas = pre ++ va :: post) (placed : Placed r va)
      (free : FreeRange areas va.vaStart r.size) (ok : VmapOk s') : Attempted areas r (.found va, s')
  | overflow {s' : VmapState} (same : s'.areas = areas) (noRoom : NoRoom areas r) (ok : VmapOk s') :
      Attempted areas r (.overflow, s')

section
variable {r : VmapRequest} {s : VmapState}

theorem FreeRange.of_insert {a n : Nat}
    (free : FreeRange (pre ++ va :: post) a n) : FreeRange (pre ++ post) a n := by
  intro v mem
  refine free v ?_
  rw [mem_append, mem_cons]
  exact (mem_append.mp mem).imp_right .inr

theorem VmapOk.hole {hole : Nat} (ok : VmapOk s) (le : s.cachedHoleSize ≤ hole) :
    VmapOk { s with cachedHoleSize := hole } := by
  refine ⟨ok.ordered, fun {c} cached => ?_⟩
  have cache := ok.cache cached
  exact ⟨cache.mem, cache.power, fun {a n} aligned start some below free =>
    Nat.le_trans (cache.holes aligned start some below free) le⟩

theorem noCache_ok (ok : VmapOk s) : VmapOk (noCache s) :=
  ⟨ok.ordered, fun none => by cases none⟩

/-- A greater start and alignment leave fewer ranges. -/
theorem VmapOk.narrow {vstart align : Nat} (ok : VmapOk s) (start : s.cachedVstart ≤ vstart)
    (power : ∃ k, align = 2 ^ k) (le : s.cachedAlign ≤ align) :
    VmapOk { s with cachedVstart := vstart, cachedAlign := align } := by
  refine ⟨ok.ordered, fun {c} cached => ?_⟩
  have cache := ok.cache cached
  refine ⟨cache.mem, power, fun {a n} aligned from' some below free => ?_⟩
  refine cache.holes (Nat.dvd_trans ?_ aligned) (Nat.le_trans start from') some below free
  obtain ⟨k, eq⟩ := power
  obtain ⟨k', eq'⟩ := cache.power
  rw [eq, eq'] at le
  rw [eq']
  simp only [eq]
  exact Nat.pow_dvd_pow 2 ((Nat.pow_le_pow_iff_right (by decide)).mp le)

section
variable (shape : Shape VmapArea) (request : RequestOk r)
include shape request

theorem placeArea_spec (ok : VmapOk s) (vstart : s.cachedVstart = r.vstart)
    (align : s.cachedAlign = r.align)
    (passed : Passed s.areas r pre post addr s.cachedHoleSize) (sum : addr + r.size < 2 ^ 64)
    (room : addr + r.size ≤ r.vend → ∀ v ∈ post, addr + r.size ≤ v.vaStart) :
    Attempted s.areas r (placeArea shape s r addr) := by
  rw [placeArea, add64_eq sum]
  split_ifs with high
  · exact .overflow rfl (passed.noRoom request.pos high) ok
  obtain ⟨b, aligns, _⟩ := passed.base
  have pos := request.pos
  have free : FreeRange s.areas addr r.size := by
    intro v mem
    rw [passed.split] at mem
    rcases mem_append.mp mem with before | behind
    · exact .inl (passed.ends before)
    · exact .inr (room (Nat.le_of_not_lt high) v behind)
  have small : addr < addr + r.size := by omega
  obtain ⟨pre', post', split, inserted, ordered⟩ :=
    insertVmapArea_spec shape ok.ordered ⟨addr, addr + r.size⟩ small sum free
  simp only [inserted]
  rw [if_neg]
  · refine .found split rfl ⟨aligns.aligned, passed.start, rfl, Nat.le_of_not_lt high⟩ free
      ⟨ordered, fun {c} cached => ?_⟩
    cases cached
    refine ⟨by simp, align ▸ request.power, fun {a n} aligned start some below free' => ?_⟩
    simp only [vstart, align] at aligned start below
    refine passed.holes aligned start some ?_ (by omega)
    rw [split]
    exact free'.of_insert
  · rintro (unaligned | low | past)
    · exact unaligned (Nat.mod_eq_zero_of_dvd aligns.aligned)
    · exact absurd passed.start (Nat.not_le_of_lt low)
    · exact high past

variable (fits : AlignFits s.areas r) (ok : VmapOk s)
include fits ok

section
variable (vstart : s.cachedVstart = r.vstart) (align : s.cachedAlign = r.align)
include vstart align

theorem scanFrom_spec (passed : Passed s.areas r pre (first :: post) addr s.cachedHoleSize)
    (sum : addr + r.size < 2 ^ 64) : Attempted s.areas r (scanFrom shape s r first addr) := by
  have ordered := ok.ordered
  have here : areasFrom s.areas first = first :: post := by
    rw [passed.split] at ordered ⊢
    exact areasFrom_eq ordered
  rw [scanFrom, here]
  rcases scanLoop_spec request fits ordered (first :: post) passed sum with
    ⟨hole, res, le, none⟩ | ⟨addr', hole, pre', post', res, le, passed', sum', room⟩
  · rw [res]
    exact .overflow rfl none (ok.hole le)
  · rw [res]
    exact placeArea_spec shape request (ok.hole le) vstart align passed' sum' room

theorem scanRoot_spec (hole : s.cachedHoleSize = 0) :
    Attempted s.areas r (scanRoot shape s r) := by
  obtain ⟨aligns, bound⟩ := align64_spec request.alignPos fits.start
  have pos := request.pos
  have reach (pre post : List VmapArea) (split : s.areas = pre ++ post)
      (before : ∀ v ∈ pre, v.vaEnd ≤ align64 r.vstart r.align)
      (behind : ∀ v ∈ post, align64 r.vstart r.align ≤ v.vaEnd) :
      Passed s.areas r pre post (align64 r.vstart r.align) s.cachedHoleSize := by
    refine ⟨split, fun {a n} aligned start _ _ lt => ?_, by omega, aligns.le,
      fun {v} mem => before v mem, bound, r.vstart, aligns, fun v mem => ?_⟩
    · have := aligns.least aligned start
      omega
    · exact Nat.le_trans aligns.le (behind v mem)
  rw [scanRoot]
  simp only [add64_lt_iff bound request.size]
  have inorder := shape.inorder s.areas
  have found := searchFirst_spec (align64 r.vstart r.align) (shape.tree s.areas) none
    (by rw [inorder]; exact ok.ordered.sorted) fun v mem => ok.ordered.nonempty (inorder ▸ mem)
  rw [inorder] at found
  split_ifs with wraps
  · refine .overflow rfl (fun a aligned start inside _ => ?_) ok
    have := aligns.least aligned start
    have := request.vend
    omega
  rcases found with ⟨all, res⟩ | ⟨pre, first, post, split, res, at', before⟩
  · rw [res]
    exact placeArea_spec shape request ok vstart align
      (reach s.areas [] (by simp) (fun v mem => Nat.le_of_lt (all v mem)) (by simp)) (by omega)
      (by simp)
  rw [res]
  refine scanFrom_spec shape request fits ok vstart align
    (reach pre (first :: post) split before fun v mem => ?_) (by omega)
  have sorted := ok.ordered.sorted
  rw [split] at sorted
  obtain ⟨_, right, _⟩ := pairwise_append.mp sorted
  obtain ⟨behind, _⟩ := pairwise_cons.mp right
  rcases mem_cons.mp mem with rfl | later
  · exact at'
  have := behind v later
  have := ok.ordered.nonempty (v := v) (by simp [split, later])
  omega

theorem scanCached_spec (small : s.cachedHoleSize < r.size) (cached : s.freeVmapCache = some first) :
    Attempted s.areas r (
      if align64 first.vaEnd r.align < r.vstart then scanRoot shape (noCache s) r
      else if add64 (align64 first.vaEnd r.align) r.size < align64 first.vaEnd r.align then
        (.overflow, s)
      else scanFrom shape s r first (align64 first.vaEnd r.align)) := by
  have cache := ok.cache cached
  have ordered := ok.ordered
  obtain ⟨pre, post, split⟩ := append_of_mem cache.mem
  obtain ⟨aligns, bound⟩ := align64_spec request.alignPos (fits.ends cache.mem)
  by_cases low : align64 first.vaEnd r.align < r.vstart
  · rw [if_pos low]
    exact scanRoot_spec (s := noCache s) shape request fits (noCache_ok ok) vstart align rfl
  have sorted := ordered.sorted
  rw [split] at sorted
  obtain ⟨_, right, across⟩ := pairwise_append.mp sorted
  obtain ⟨behind, _⟩ := pairwise_cons.mp right
  have here := ordered.nonempty cache.mem
  have passed : Passed s.areas r pre (first :: post) (align64 first.vaEnd r.align)
      s.cachedHoleSize := by
    refine ⟨split, fun {a n} aligned from' pos free lt => ?_, small, Nat.le_of_not_lt low,
      fun {v} mem => ?_, bound, first.vaEnd, aligns, fun v mem => ?_⟩
    · -- The range is below the cached node.
      have below : a < first.vaEnd := by
        by_contra not
        have := aligns.least aligned (Nat.le_of_not_lt not)
        omega
      have := free first cache.mem
      exact cache.holes (align ▸ aligned) (vstart ▸ from') pos (by omega) free
    · have := across v mem first mem_cons_self
      have := aligns.le
      omega
    · rcases mem_cons.mp mem with rfl | later
      · exact Nat.le_refl _
      have := behind v later
      have := ordered.nonempty (v := v) (by simp [split, later])
      omega
  rw [if_congr (add64_lt_iff bound request.size) rfl rfl]
  split_ifs
  · have := request.vend
    exact .overflow rfl (passed.noRoom request.pos (by omega)) ok
  · exact scanFrom_spec shape request fits ok vstart align passed (by omega)

end

theorem attempt_spec (differs : ¬ SkipsCache s r → r.size ≠ s.cachedHoleSize) :
    Attempted s.areas r (attempt shape s r) := by
  by_cases skips : SkipsCache s r
  · have root : attempt shape s r = scanRoot shape
        { noCache s with cachedVstart := r.vstart, cachedAlign := r.align } r := by
      rw [attempt, if_pos skips]
      rfl
    rw [root]
    exact scanRoot_spec
      (s := { noCache s with cachedVstart := r.vstart, cachedAlign := r.align }) shape request fits
      ⟨ok.ordered, fun none => by cases none⟩ rfl rfl rfl
  have other := differs skips
  have used := skips
  simp only [SkipsCache, not_or, Nat.not_lt] at used
  obtain ⟨some, size, start, align⟩ := used
  obtain ⟨first, cached⟩ := Option.ne_none_iff_exists'.mp some
  have next := scanCached_spec (s := { s with cachedVstart := r.vstart, cachedAlign := r.align })
    shape request fits (ok.narrow start request.power align) rfl rfl (by simp only; omega) cached
  rw [attempt, if_neg skips]
  simp only [cached] at next ⊢
  exact next

end

theorem Ordered.remove (ordered : Ordered (pre ++ va :: post)) : Ordered (pre ++ post) := by
  obtain ⟨front, right, across⟩ := pairwise_append.mp ordered.sorted
  obtain ⟨_, back⟩ := pairwise_cons.mp right
  have sub {v : VmapArea} (mem : v ∈ pre ++ post) : v ∈ pre ++ va :: post := by
    rw [mem_append, mem_cons]
    exact (mem_append.mp mem).imp_right .inr
  exact ⟨pairwise_append.mpr ⟨front, back, fun u left v right =>
    across u left v (mem_cons_of_mem _ right)⟩, fun mem => ordered.nonempty (sub mem),
    fun mem => ordered.bound (sub mem)⟩

/-- A node stays good for the cache when an area is freed that does not begin before it, and so
does the node before the freed one. -/
theorem freeVmapArea_ok (ok : VmapOk s) (mem : va ∈ s.areas) : VmapOk (freeVmapArea s va) := by
  obtain ⟨pre, post, split⟩ := append_of_mem mem
  have ordered := ok.ordered
  rw [split] at ordered
  have left : (freeVmapArea s va).areas = pre ++ post := by
    rw [freeVmapArea, split]
    exact filter_ne_eq ordered
  refine ⟨by rw [left]; exact ordered.remove, fun {c} cached => ?_⟩
  obtain ⟨old, was, inside, before⟩ : ∃ old, s.freeVmapCache = some old ∧ c ∈ pre ++ post ∧
      c.vaStart ≤ old.vaStart ∧ c.vaStart ≤ va.vaStart := by
    rw [freeVmapArea] at cached
    cases was : s.freeVmapCache with
    | none => simp [was] at cached
    | some old =>
      simp only [was] at cached
      refine ⟨old, rfl, ?_⟩
      by_cases low : va.vaEnd < s.cachedVstart
      · simp [if_pos low] at cached
      split_ifs at cached with le
      · rw [split, rbPrev_eq ordered] at cached
        have front := mem_of_getLast? cached
        have := (pairwise_append.mp ordered.sorted).2.2 c front va mem_cons_self
        have := ordered.nonempty (v := c) (by simp [front])
        exact ⟨mem_append_left _ front, by omega, by omega⟩
      rw [Option.some.injEq] at cached
      subst cached
      have there := (ok.cache was).mem
      rw [split, mem_append, mem_cons] at there
      refine ⟨?_, Nat.le_refl _, by omega⟩
      rcases there with front | rfl | back
      · exact mem_append_left _ front
      · exact absurd (Nat.le_refl _) le
      · exact mem_append_right _ back
  have cache := ok.cache was
  refine ⟨left ▸ inside, cache.power, fun {a n} aligned start some below free => ?_⟩
  refine cache.holes aligned start some (by omega) ?_
  rw [left] at free
  rw [split]
  intro v there
  rcases mem_append.mp there with front | there
  · exact free v (mem_append_left _ front)
  rcases mem_cons.mp there with rfl | back
  · omega
  · exact free v (mem_append_right _ back)

end

end Linux318.Source.Vmalloc
