import Linux318.Source.Vmalloc.VmapArea

/-!
The invariant of the allocator: the areas are in order, and every free range below the
cached node that is aligned and starts where the cache may be used is at most as large as
the cached hole.
-/
namespace Linux318.Source.Vmalloc
open List Lib

variable {addr hole : Nat} {pre post : List VmapArea} {v : VmapArea}

structure AlignsTo (x align addr : Nat) : Prop where
  le : x ≤ addr
  aligned : align ∣ addr
  least {a : Nat} : align ∣ a → x ≤ a → addr ≤ a

theorem align64_spec {x align : Nat} (pos : 0 < align) (fits : x + align ≤ 2 ^ 64) :
    AlignsTo x align (align64 x align) ∧ align64 x align < 2 ^ 64 := by
  have sum : add64 x (align - 1) = x + (align - 1) := add64_eq (by omega)
  rw [align64, sum]
  have rest := Nat.mod_lt (x + (align - 1)) pos
  refine ⟨⟨by omega, Nat.dvd_sub_mod _, fun {a} aligned le => ?_⟩, by omega⟩
  obtain ⟨q, rfl⟩ := aligned
  obtain ⟨p, multiple⟩ := Nat.dvd_sub_mod (x + (align - 1))
  rw [multiple]
  refine Nat.mul_le_mul_left align ?_
  by_contra more
  have := Nat.mul_le_mul_left align (Nat.succ_le_of_lt (Nat.lt_of_not_le more))
  rw [Nat.mul_succ] at this
  omega

theorem AlignsTo.mono {x x' align addr' : Nat} (left : AlignsTo x align addr)
    (right : AlignsTo x' align addr') (le : x ≤ x') : addr ≤ addr' :=
  left.least right.aligned (Nat.le_trans le right.le)

def FreeRange (areas : List VmapArea) (a n : Nat) : Prop :=
  ∀ v ∈ areas, v.vaEnd ≤ a ∨ a + n ≤ v.vaStart

structure Ordered (areas : List VmapArea) : Prop where
  sorted : areas.Pairwise fun u v => u.vaEnd ≤ v.vaStart
  nonempty {v : VmapArea} : v ∈ areas → v.vaStart < v.vaEnd
  bound {v : VmapArea} : v ∈ areas → v.vaEnd < 2 ^ 64

section Tree
variable {areas : List VmapArea}

section
variable (ordered : Ordered (pre ++ v :: post))
include ordered

theorem Ordered.notMem : v ∉ pre ∧ v ∉ post := by
  have small := ordered.nonempty (v := v) (by simp)
  obtain ⟨_, right, across⟩ := pairwise_append.mp ordered.sorted
  obtain ⟨behind, _⟩ := pairwise_cons.mp right
  refine ⟨fun mem => ?_, fun mem => ?_⟩
  · have := across v mem v mem_cons_self
    omega
  · have := behind v mem
    omega

theorem areasFrom_eq : areasFrom (pre ++ v :: post) v = v :: post := by
  rw [areasFrom, dropWhile_append_of_pos, dropWhile_cons_of_neg (by simp)]
  intro u mem
  rw [decide_eq_true_eq]
  exact fun same => ordered.notMem.1 (same ▸ mem)

theorem rbPrev_eq : rbPrev (pre ++ v :: post) v = pre.getLast? := by
  rw [rbPrev, takeWhile_append_of_pos, takeWhile_cons_of_neg (by simp), append_nil]
  intro u mem
  rw [decide_eq_true_eq]
  exact fun same => ordered.notMem.1 (same ▸ mem)

theorem filter_ne_eq : ((pre ++ v :: post).filter fun u => u ≠ v) = pre ++ post := by
  obtain ⟨front, back⟩ := ordered.notMem
  rw [filter_append, filter_cons_of_neg (by simp), filter_eq_self.mpr, filter_eq_self.mpr]
  · intro u mem
    rw [decide_eq_true_eq]
    exact fun same => back (same ▸ mem)
  · intro u mem
    rw [decide_eq_true_eq]
    exact fun same => front (same ▸ mem)

end

/-- The search gives an area that ends at or behind the address, and all areas before it
end at or before the address. -/
theorem searchFirst_spec (addr : Nat) (t : SearchTree VmapArea) (best : Option VmapArea)
    (sorted : t.toList.Pairwise fun u v => u.vaEnd ≤ v.vaStart)
    (nonempty : ∀ v ∈ t.toList, v.vaStart < v.vaEnd) :
    ((∀ v ∈ t.toList, v.vaEnd < addr) ∧ searchFirst addr t best = best) ∨
      ∃ pre first post, t.toList = pre ++ first :: post ∧ searchFirst addr t best = some first ∧
        addr ≤ first.vaEnd ∧ ∀ v ∈ pre, v.vaEnd ≤ addr := by
  induction t generalizing best with
  | nil => exact .inl ⟨by simp [SearchTree.toList], rfl⟩
  | node left tmp right ihl ihr =>
    rw [SearchTree.toList] at sorted nonempty ⊢
    obtain ⟨sl, sr, across⟩ := pairwise_append.mp sorted
    obtain ⟨behind, sr⟩ := pairwise_cons.mp sr
    have here := nonempty tmp (by simp)
    rw [searchFirst]
    split_ifs with reaches covers
    · refine .inr ⟨left.toList, tmp, right.toList, rfl, rfl, reaches, fun v mem => ?_⟩
      exact Nat.le_trans (across v mem tmp mem_cons_self) covers
    · right
      rcases ihl (some tmp) sl fun v mem => nonempty v (by simp [mem]) with
        ⟨before, res⟩ | ⟨pre, first, post, split, res, at', before⟩
      · exact ⟨left.toList, tmp, right.toList, rfl, res, reaches,
          fun v mem => Nat.le_of_lt (before v mem)⟩
      · exact ⟨pre, first, post ++ tmp :: right.toList, by simp [split], res, at', before⟩
    have front (v : VmapArea) (mem : v ∈ left.toList) : v.vaEnd < addr := by
      have := across v mem tmp mem_cons_self
      omega
    rcases ihr best sr fun v mem => nonempty v (by simp [mem]) with
      ⟨before, res⟩ | ⟨pre, first, post, split, res, at', before⟩
    · refine .inl ⟨fun v mem => ?_, res⟩
      rcases mem_append.mp mem with inLeft | mem
      · exact front v inLeft
      rcases mem_cons.mp mem with rfl | inRight
      · omega
      · exact before v inRight
    · refine .inr ⟨left.toList ++ tmp :: pre, first, post, by simp [split], res, at',
        fun v mem => ?_⟩
      rcases mem_append.mp mem with inLeft | mem
      · exact Nat.le_of_lt (front v inLeft)
      rcases mem_cons.mp mem with rfl | inPre
      · omega
      · exact before v inPre

def areaDir (va tmpVa : VmapArea) : Ordering :=
  if va.vaStart < tmpVa.vaEnd then .lt else .gt

theorem linkArea_eq {va : VmapArea} (t : SearchTree VmapArea)
    (some : ∀ v ∈ t.toList, v.vaEnd ≤ va.vaStart → v.vaStart < va.vaEnd) :
    linkArea va t = Option.some (t.link (areaDir va) va) := by
  induction t with
  | nil => rfl
  | node left tmp right ihl ihr =>
    rw [SearchTree.toList] at some
    rw [linkArea, SearchTree.link]
    by_cases lt : va.vaStart < tmp.vaEnd
    · rw [if_pos lt, ihl fun v mem => some v (by simp [mem]), areaDir, if_pos lt]
      rfl
    rw [if_neg lt, if_pos (some tmp (by simp) (Nat.le_of_not_lt lt)),
      ihr fun v mem => some v (by simp [mem]), areaDir, if_neg lt]
    rfl

/-- A new area is linked between the areas on its two sides. -/
theorem insertVmapArea_spec (shape : Shape VmapArea) (ordered : Ordered areas) (va : VmapArea)
    (small : va.vaStart < va.vaEnd) (bound : va.vaEnd < 2 ^ 64)
    (free : ∀ v ∈ areas, v.vaEnd ≤ va.vaStart ∨ va.vaEnd ≤ v.vaStart) :
    ∃ pre post, areas = pre ++ post ∧ insertVmapArea shape areas va = some (pre ++ va :: post) ∧
      Ordered (pre ++ va :: post) := by
  have steered : areas.Pairwise (SearchTree.Steered (areaDir va)) := by
    refine ordered.sorted.imp_of_mem fun {u v} left right le => ?_
    have := ordered.nonempty right
    rw [SearchTree.Steered, areaDir, areaDir]
    by_cases lt : va.vaStart < u.vaEnd
    · rw [if_pos (by omega : va.vaStart < v.vaEnd)]
      exact .inr rfl
    · rw [if_neg lt]
      exact .inl rfl
  have inorder := shape.inorder areas
  rw [← inorder] at steered
  obtain ⟨pre, post, split, linked, before, after⟩ :=
    SearchTree.link_toList va steered fun v _ => by
      rw [areaDir]
      split <;> simp
  rw [inorder] at split
  have front (u : VmapArea) (mem : u ∈ pre) : u.vaEnd ≤ va.vaStart := by
    have gt := before u mem
    rw [areaDir] at gt
    by_contra lt
    rw [if_pos (Nat.lt_of_not_le lt)] at gt
    cases gt
  have back (u : VmapArea) (mem : u ∈ post) : va.vaEnd ≤ u.vaStart := by
    have lt := after u mem
    rw [areaDir] at lt
    have below : va.vaStart < u.vaEnd := by
      by_contra not
      rw [if_neg not] at lt
      cases lt
    have := free u (by simp [split, mem])
    omega
  refine ⟨pre, post, split, ?_, ?_⟩
  · rw [insertVmapArea, linkArea_eq, Option.map_some, linked]
    intro v mem le
    rw [inorder] at mem
    have := ordered.nonempty mem
    omega
  have old := ordered.sorted
  rw [split] at old
  obtain ⟨left, right, across⟩ := pairwise_append.mp old
  refine ⟨pairwise_append.mpr ⟨left, pairwise_cons.mpr ⟨back, right⟩, ?_⟩, ?_, ?_⟩
  · intro u mem v mem'
    rcases mem_cons.mp mem' with rfl | there
    · exact front u mem
    · exact across u mem v there
  all_goals
    intro v mem
    simp only [mem_append, mem_cons] at mem
    rcases mem with there | rfl | there
  · exact ordered.nonempty (by simp [split, there])
  · exact small
  · exact ordered.nonempty (by simp [split, there])
  · exact ordered.bound (by simp [split, there])
  · exact bound
  · exact ordered.bound (by simp [split, there])

end Tree

/-- Free ranges below the cached node are at most as large as the cached hole. -/
structure CacheOk (s : VmapState) (c : VmapArea) : Prop where
  mem : c ∈ s.areas
  power : ∃ k, s.cachedAlign = 2 ^ k
  holes {a n : Nat} : s.cachedAlign ∣ a → s.cachedVstart ≤ a → 0 < n → a + n ≤ c.vaStart →
    FreeRange s.areas a n → n ≤ s.cachedHoleSize

structure VmapOk (s : VmapState) : Prop where
  ordered : Ordered s.areas
  cache {c : VmapArea} : s.freeVmapCache = some c → CacheOk s c

structure RequestOk (r : VmapRequest) : Prop where
  pos : 0 < r.size
  size : r.size < 2 ^ 64
  power : ∃ k, r.align = 2 ^ k
  vstart : r.vstart < 2 ^ 64
  vend : r.vend < 2 ^ 64

/-- No address that is aligned for the request wraps around. -/
structure AlignFits (areas : List VmapArea) (r : VmapRequest) : Prop where
  start : r.vstart + r.align ≤ 2 ^ 64
  ends {v : VmapArea} : v ∈ areas → v.vaEnd + r.align ≤ 2 ^ 64

def NoRoom (areas : List VmapArea) (r : VmapRequest) : Prop :=
  ∀ a, r.align ∣ a → r.vstart ≤ a → a + r.size ≤ r.vend → ¬ FreeRange areas a r.size

/-- The areas `pre` are passed, and the search is at `addr`. -/
structure Passed (areas : List VmapArea) (r : VmapRequest) (pre post : List VmapArea)
    (addr hole : Nat) : Prop where
  split : areas = pre ++ post
  holes {a n : Nat} : r.align ∣ a → r.vstart ≤ a → 0 < n → FreeRange areas a n → a < addr → n ≤ hole
  small : hole < r.size
  start : r.vstart ≤ addr
  ends {v : VmapArea} : v ∈ pre → v.vaEnd ≤ addr
  bound : addr < 2 ^ 64
  base : ∃ b, AlignsTo b r.align addr ∧ ∀ v ∈ post, b ≤ v.vaEnd

section Scan
variable {areas : List VmapArea} {r : VmapRequest}

theorem RequestOk.alignPos (ok : RequestOk r) : 0 < r.align := by
  obtain ⟨k, power⟩ := ok.power
  rw [power]
  exact Nat.two_pow_pos k

theorem Passed.noRoom (pos : 0 < r.size) (passed : Passed areas r pre post addr hole)
    (high : r.vend < addr + r.size) : NoRoom areas r := by
  intro a aligned start inside free
  have below := passed.holes aligned start pos free (by omega)
  have := passed.small
  omega

theorem Passed.next {rest : List VmapArea} {first : VmapArea}
    (ok : RequestOk r) (fits : AlignFits areas r) (ordered : Ordered areas)
    (passed : Passed areas r pre (first :: rest) addr hole) (short : first.vaStart < addr + r.size)
    {hole' : Nat} (grown : hole' = if addr + hole < first.vaStart then first.vaStart - addr else hole) :
    hole ≤ hole' ∧ Passed areas r (pre ++ [first]) rest (align64 first.vaEnd r.align) hole' := by
  obtain ⟨b, aligns, low⟩ := passed.base
  have mem : first ∈ areas := by simp [passed.split]
  obtain ⟨aligns', bound⟩ := align64_spec ok.alignPos (fits.ends mem)
  have le : addr ≤ align64 first.vaEnd r.align :=
    aligns.mono aligns' (low first mem_cons_self)
  have small := passed.small
  have larger : hole ≤ hole' := by
    rw [grown]
    split <;> omega
  have sorted := ordered.sorted
  rw [passed.split] at sorted
  obtain ⟨_, right, _⟩ := pairwise_append.mp sorted
  obtain ⟨behind, _⟩ := pairwise_cons.mp right
  refine ⟨larger, ⟨by simp [passed.split], fun {a n} aligned start pos free lt => ?_, ?_,
    Nat.le_trans passed.start le, fun {v} there => ?_, bound, first.vaEnd, aligns',
    fun v later => ?_⟩⟩
  · by_cases before : a < addr
    · exact Nat.le_trans (passed.holes aligned start pos free before) larger
    -- The range starts behind the last area and ends before this one.
    have below : a < first.vaEnd := by
      by_contra not
      have := aligns'.least aligned (Nat.le_of_not_lt not)
      omega
    have := free first mem
    rw [grown]
    split <;> omega
  · rw [grown]
    split <;> omega
  · rcases mem_append.mp there with old | new
    · exact Nat.le_trans (passed.ends old) le
    · rw [mem_singleton.mp new]
      exact aligns'.le
  · have := behind v later
    have := ordered.nonempty (v := v) (by simp [passed.split, later])
    omega

theorem scanLoop_spec (ok : RequestOk r) (fits : AlignFits areas r) (ordered : Ordered areas)
    (l : List VmapArea) (passed : Passed areas r pre l addr hole) (sum : addr + r.size < 2 ^ 64) :
    (∃ hole', scanLoop r l addr hole = (none, hole') ∧ hole ≤ hole' ∧ NoRoom areas r) ∨
      ∃ addr' hole' pre' post', scanLoop r l addr hole = (some addr', hole') ∧ hole ≤ hole' ∧
        Passed areas r pre' post' addr' hole' ∧ addr' + r.size < 2 ^ 64 ∧
        (addr' + r.size ≤ r.vend → ∀ v ∈ post', addr' + r.size ≤ v.vaStart) := by
  induction l generalizing pre addr hole with
  | nil =>
    exact .inr ⟨addr, hole, pre, [], rfl, Nat.le_refl _, passed, sum, fun _ v mem => by cases mem⟩
  | cons first rest ih =>
    have small := passed.small
    have mem : first ∈ areas := by simp [passed.split]
    rw [scanLoop, add64_eq sum]
    by_cases goes : first.vaStart < addr + r.size ∧ addr + r.size ≤ r.vend
    · have holeSize : (if add64 addr hole < first.vaStart then sub64 first.vaStart addr else hole) =
          if addr + hole < first.vaStart then first.vaStart - addr else hole := by
        rw [add64_eq (by omega)]
        split_ifs
        · exact sub64_eq (by omega) (by omega)
        · rfl
      obtain ⟨larger, passed'⟩ := passed.next ok fits ordered goes.1 rfl
      rw [if_pos goes]
      simp only [holeSize, add64_lt_iff passed'.bound ok.size]
      by_cases wraps : 2 ^ 64 ≤ align64 first.vaEnd r.align + r.size
      · rw [if_pos wraps]
        have := ok.vend
        exact .inl ⟨_, rfl, larger, passed'.noRoom ok.pos (by omega)⟩
      rw [if_neg wraps]
      rcases ih passed' (by omega) with
        ⟨hole', res, le, none⟩ | ⟨addr', hole', pre', post', res, le, rest⟩
      · exact .inl ⟨hole', res, Nat.le_trans larger le, none⟩
      · exact .inr ⟨addr', hole', pre', post', res, Nat.le_trans larger le, rest⟩
    · rw [if_neg goes]
      refine .inr ⟨addr, hole, pre, first :: rest, rfl, Nat.le_refl _, passed, sum,
        fun inside v there => ?_⟩
      have sorted := ordered.sorted
      rw [passed.split] at sorted
      obtain ⟨_, right, _⟩ := pairwise_append.mp sorted
      obtain ⟨behind, _⟩ := pairwise_cons.mp right
      rcases mem_cons.mp there with rfl | later
      · omega
      have := behind v later
      have := ordered.nonempty mem
      omega

end Scan

end Linux318.Source.Vmalloc
