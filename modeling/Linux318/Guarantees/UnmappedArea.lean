import Linux318.Source.Mmap.GapWalk

/-!
The searches of `mm/mmap.c` for a free range: what they return keeps to the request and meets
no vma, and comes from the lowest or the highest gap that is large enough for any alignment.
-/
namespace Linux318.Guarantees.UnmappedArea
open List Lib Source.Mmap

variable {info : UnmappedAreaInfo} {w : Window} {gap : Nat × Nat} {vmas : List VmArea}
  {mm : MmStruct} {gaps : List (Nat × Nat)} {vmPrev res : Option Nat}

structure WindowOf (info : UnmappedAreaInfo) (w : Window) : Prop where
  length : w.length = info.length + info.alignMask
  lowLimit : w.lowLimit = info.lowLimit + w.length
  highLimit : w.highLimit + w.length = info.highLimit
  limits : info.lowLimit ≤ w.highLimit

theorem mask_lt (ok : InfoOk info) : info.alignMask < 2 ^ 64 := by
  obtain ⟨k, small, eq⟩ := ok.mask
  have := Nat.pow_le_pow_right (show 0 < 2 by decide) small
  omega

/-- Without a window no gap fits. -/
theorem searchWindow_none (ok : InfoOk info)
    (none : searchWindow info = none) (gap : Nat × Nat) : ¬Fits info gap := by
  intro fits
  have big : max gap.1 info.lowLimit + (info.length + info.alignMask) ≤ info.highLimit :=
    fits.trans (Nat.min_le_right _ _)
  have := ok.highLimit
  have sum : add64 info.length info.alignMask = info.length + info.alignMask :=
    add64_eq (by omega)
  have diff : sub64 info.highLimit (info.length + info.alignMask) =
      info.highLimit - (info.length + info.alignMask) := sub64_eq (by omega) (by omega)
  rw [searchWindow, sum] at none
  rw [if_neg (by omega), if_neg (by omega), if_neg (by omega)] at none
  simp at none

theorem searchWindow_some (ok : InfoOk info)
    (window : searchWindow info = some w) : WindowOf info w := by
  have high := ok.highLimit
  have wraps := add64_lt_iff ok.length (mask_lt ok)
  rw [searchWindow] at window
  by_cases short : add64 info.length info.alignMask < info.length
  · simp [short] at window
  have sum : add64 info.length info.alignMask = info.length + info.alignMask :=
    add64_eq (by omega)
  simp only [sum] at window
  rw [if_neg (by omega)] at window
  by_cases above : info.highLimit < info.length + info.alignMask
  · simp [above] at window
  have diff : sub64 info.highLimit (info.length + info.alignMask) =
      info.highLimit - (info.length + info.alignMask) := sub64_eq (by omega) (by omega)
  simp only [diff] at window
  rw [if_neg above] at window
  by_cases narrow : info.highLimit - (info.length + info.alignMask) < info.lowLimit
  · simp [narrow] at window
  rw [if_neg narrow, add64_eq (by omega)] at window
  obtain rfl := Option.some.inj window
  exact ⟨rfl, rfl, by dsimp only; omega, by dsimp only; omega⟩

/-- A gap suits the window iff it fits the request. -/
theorem WindowOf.suits_iff (ok : InfoOk info)
    (of : WindowOf info w) (gap : Nat × Nat) : Suits w gap ↔ Fits info gap := by
  have := ok.lengthPos
  have := of.length
  have := of.lowLimit
  have := of.highLimit
  have := of.limits
  rw [Suits, Fits]
  omega

structure Serves (info : UnmappedAreaInfo) (gap : Nat × Nat) (a : Nat) : Prop where
  low : max gap.1 info.lowLimit ≤ a
  high : a + info.length ≤ min gap.2 info.highLimit
  aligned : a % (info.alignMask + 1) = info.alignOffset % (info.alignMask + 1)

/-- A gap that fits has an address that serves. -/
theorem foundUp_serves (ok : InfoOk info)
    (fits : Fits info gap) : ∃ a, foundUp info gap.1 gap.2 = some a ∧ Serves info gap a := by
  obtain ⟨k, small, mask⟩ := ok.mask
  have := ok.highLimit
  have pos := Nat.two_pow_pos k
  have clip : (if gap.1 < info.lowLimit then info.lowLimit else gap.1) = max gap.1 info.lowLimit := by
    split <;> omega
  rw [Fits] at fits
  generalize start : max gap.1 info.lowLimit = c at *
  have residue := add_mask_mod info.alignOffset small (show c < 2 ^ 64 by omega)
  have step : (sub64 info.alignOffset c &&& (2 ^ k - 1)) ≤ 2 ^ k - 1 := Nat.and_le_right
  rw [foundUp, clip, mask]
  generalize (sub64 info.alignOffset c &&& (2 ^ k - 1)) = d at *
  refine ⟨c + d, ?_, ?_, ?_, ?_⟩
  · simp only [add64_eq (show c + d < 2 ^ 64 by omega),
      add64_eq (show c + d + info.length < 2 ^ 64 by omega)]
    rw [if_neg (by omega), if_neg (by omega)]
  · omega
  · omega
  · rwa [mask, Nat.sub_add_cancel pos]

theorem foundDown_serves (ok : InfoOk info)
    (fits : Fits info gap) : ∃ a, foundDown info gap.1 gap.2 = some a ∧ Serves info gap a := by
  obtain ⟨k, small, mask⟩ := ok.mask
  have := ok.highLimit
  have pos := Nat.two_pow_pos k
  have clip : (if info.highLimit < gap.2 then info.highLimit else gap.2) =
      min gap.2 info.highLimit := by
    split <;> omega
  rw [Fits] at fits
  have diff : sub64 (min gap.2 info.highLimit) info.length =
      min gap.2 info.highLimit - info.length := sub64_eq (by omega) (by omega)
  rw [foundDown, clip, foundHighest, diff, mask]
  generalize last : min gap.2 info.highLimit - info.length = c at *
  have step : (sub64 c info.alignOffset &&& (2 ^ k - 1)) ≤ 2 ^ k - 1 := Nat.and_le_right
  have residue := sub_mask_mod (a := c) small ok.alignOffset (by omega)
  generalize (sub64 c info.alignOffset &&& (2 ^ k - 1)) = d at *
  refine ⟨c - d, ?_, ?_, ?_, ?_⟩
  · simp only [sub64_eq (show d ≤ c by omega) (show c < 2 ^ 64 by omega)]
    rw [if_neg (by omega), if_neg (by omega)]
  · omega
  · omega
  · rwa [mask, Nat.sub_add_cancel pos]

section
variable (sorted : vmas.Pairwise fun a b => a.vmEnd ≤ b.vmStart)
  (proper : ∀ v ∈ vmas, v.vmStart < v.vmEnd ∧ v.vmEnd < 2 ^ 64)
include sorted proper

theorem linked_precedes (linked : Linked vmPrev vmas)
    (above : ∀ v ∈ vmas, vmPrev.getD 0 ≤ v.vmStart) :
    Ordered vmas ∧ ∀ v ∈ vmas, vmPrev.getD 0 ≤ (gapBefore v).1 ∧ (vmPrev.isSome → v.vmPrev.isSome) := by
  induction vmas generalizing vmPrev with
  | nil => exact ⟨⟨.nil, by simp⟩, by simp⟩
  | cons vma rest ih =>
    obtain ⟨eq, linked⟩ := linked
    obtain ⟨head, sorted⟩ := pairwise_cons.mp sorted
    obtain ⟨properHead, proper⟩ := forall_mem_cons.mp proper
    obtain ⟨aboveHead, -⟩ := forall_mem_cons.mp above
    obtain ⟨ordered, behind⟩ := ih sorted proper linked head
    refine ⟨⟨pairwise_cons.mpr ⟨fun b mem => ?_, ordered.precedes⟩, ?_⟩, ?_⟩
    · obtain ⟨le, some⟩ := behind b mem
      exact ⟨by simp only [Option.getD_some] at le; omega, some rfl⟩
    · intro v mem
      rcases mem_cons.mp mem with rfl | mem
      · exact ⟨by rw [gapBefore, eq]; exact aboveHead, by omega⟩
      · exact ordered.proper mem
    · intro v mem
      rcases mem_cons.mp mem with rfl | mem
      · exact ⟨by rw [gapBefore, eq], by rw [eq]; exact id⟩
      · obtain ⟨le, some⟩ := behind v mem
        exact ⟨by simp only [Option.getD_some] at le; omega, fun _ => some rfl⟩

/-- The free gaps are in order and lie clear of every vma. -/
theorem gapsFrom_ok {gapStart : Nat} (above : ∀ v ∈ vmas, gapStart ≤ v.vmStart) :
    ((gapsFrom gapStart vmas).Pairwise fun g g' => g.1 ≤ g'.1) ∧
      ∀ gap ∈ gapsFrom gapStart vmas, gapStart ≤ gap.1 ∧
        ∀ v ∈ vmas, v.vmEnd ≤ gap.1 ∨ gap.2 ≤ v.vmStart := by
  induction vmas generalizing gapStart with
  | nil => simp [gapsFrom]
  | cons vma rest ih =>
    obtain ⟨head, sorted⟩ := pairwise_cons.mp sorted
    obtain ⟨properHead, proper⟩ := forall_mem_cons.mp proper
    obtain ⟨aboveHead, -⟩ := forall_mem_cons.mp above
    obtain ⟨inOrder, behind⟩ := ih sorted proper head
    refine ⟨pairwise_cons.mpr ⟨fun g mem => ?_, inOrder⟩, fun gap mem => ?_⟩
    · have := (behind g mem).1
      omega
    rcases mem_cons.mp mem with rfl | mem
    · refine ⟨le_rfl, forall_mem_cons.mpr ⟨.inr le_rfl, fun v inRest => .inr ?_⟩⟩
      have := head v inRest
      omega
    · obtain ⟨le, clear⟩ := behind gap mem
      exact ⟨by omega, forall_mem_cons.mpr ⟨.inl le, clear⟩⟩

end

theorem gapsFrom_eq (linked : Linked vmPrev vmas) :
    gapsFrom (vmPrev.getD 0) vmas = vmas.map gapBefore ++
      [((vmas.getLast?.map VmArea.vmEnd).getD (vmPrev.getD 0), ulongMax)] := by
  induction vmas generalizing vmPrev with
  | nil => rfl
  | cons vma rest ih =>
    obtain ⟨eq, linked⟩ := linked
    have tail := ih linked
    rw [Option.getD_some] at tail
    rw [gapsFrom, tail, map_cons, cons_append, gapBefore, eq]
    cases rest with
    | nil => rfl
    | cons next rest => simp only [List.getLast?_cons, Option.map_some, Option.getD_some]

theorem ordered_mmRb (ok : VmaTreeOk mm) : Ordered mm.mmRb.toList :=
  (linked_precedes ok.sorted (fun _ => ok.proper) ok.linked fun _ _ => Nat.zero_le _).1

theorem freeGaps_eq (ok : VmaTreeOk mm) :
    freeGaps mm = mm.mmRb.toList.map gapBefore ++ [(mm.highestVmEnd, ulongMax)] := by
  rw [ok.highest]
  exact gapsFrom_eq ok.linked

/-- The last gap suits when it starts below the limit. -/
theorem suits_highest (ok : InfoOk info) (of : WindowOf info w) (gapStart : Nat) :
    Suits w (gapStart, ulongMax) ↔ gapStart ≤ w.highLimit := by
  have := ok.highLimit
  have := of.lowLimit
  have := of.highLimit
  have := of.limits
  simp only [Suits, ulongMax]
  omega

/-- A result that comes from the first gap of a list that fits, or is -ENOMEM without one. -/
def FirstFit (info : UnmappedAreaInfo) (gaps : List (Nat × Nat)) (result : Option Nat) : Prop :=
  ((∀ g ∈ gaps, ¬Fits info g) ∧ result = some enomem) ∨
    ∃ pre gap post a, gaps = pre ++ gap :: post ∧ (∀ g ∈ pre, ¬Fits info g) ∧ Fits info gap ∧
      result = some a ∧ Serves info gap a

/-- What the walk reports is the first fit. -/
theorem firstFit_of_reports {stop : Nat × Nat → Prop} {found : Nat × Nat → Option Nat}
    (ok : InfoOk info) (of : WindowOf info w)
    (serves : ∀ gap, Fits info gap → ∃ a, found gap = some a ∧ Serves info gap a)
    (reports : Reports w stop found (some enomem) gaps res) : FirstFit info gaps res := by
  rcases reports.find with ⟨none, eq⟩ | ⟨pre, gap, post, split, skips, suits, eq⟩
  · exact .inl ⟨fun g mem fits => none g mem ((of.suits_iff ok g).mpr fits), eq⟩
  have fits := (of.suits_iff ok gap).mp suits
  obtain ⟨a, value, served⟩ := serves gap fits
  exact .inr ⟨pre, gap, post, a, split,
    fun g mem fits => skips g mem ((of.suits_iff ok g).mpr fits), fits, eq.trans value, served⟩

theorem freeGaps_sorted (ok : VmaTreeOk mm) : (freeGaps mm).Pairwise fun g g' => g.1 ≤ g'.1 :=
  (gapsFrom_ok ok.sorted (fun _ => ok.proper) fun _ _ => Nat.zero_le _).1

/-- No area meets a gap. -/
theorem freeGaps_clear (ok : VmaTreeOk mm)
    (mem : gap ∈ freeGaps mm) : ∀ v ∈ mm.mmRb.toList, v.vmEnd ≤ gap.1 ∨ gap.2 ≤ v.vmStart :=
  ((gapsFrom_ok ok.sorted (fun _ => ok.proper) fun _ _ => Nat.zero_le _).2 gap mem).2

/-- The walk over the tree finds the first gap that fits. -/
theorem unmappedArea_firstFit (mmOk : VmaTreeOk mm)
    (ok : InfoOk info) : FirstFit info (freeGaps mm) (unmappedArea mm info) := by
  rw [unmappedArea]
  split
  · next none => exact .inl ⟨fun g _ => searchWindow_none ok none g, rfl⟩
  · next w window =>
    have of := searchWindow_some ok window
    have ordered := ordered_mmRb mmOk
    have starts := freeGaps_sorted mmOk
    rw [freeGaps_eq mmOk] at starts ⊢
    have highest : Reports w (fun g => w.highLimit < g.1) (fun g => foundUp info g.1 g.2)
        (some enomem) [(mm.highestVmEnd, ulongMax)] (checkHighest mm info w) := by
      rw [checkHighest]
      split
      · refine .climbs (forall_mem_singleton.mpr fun suits => ?_)
        have := (suits_highest ok of _).mp suits
        omega
      · exact .found (forall_mem_nil _) ((suits_highest ok of _).mpr (by omega))
    have walk := Reports.guarded
      (fun _ => visitUp_reports info w ordered mmOk.gaps (checkHighest mm info w))
      fun out => forall_gaps.mpr
        (not_suits_of_not_promising ordered mmOk.gaps (Bool.not_eq_true _ ▸ out))
    refine firstFit_of_reports ok of (fun _ => foundUp_serves ok) (walk.append ?_ highest)
    intro g mem beyond
    refine forall_mem_singleton.mpr fun suits => ?_
    have le := (pairwise_append.mp starts).2.2 g mem _ (mem_singleton_self _)
    have := (suits_highest ok of _).mp suits
    omega

theorem unmappedAreaTopdown_firstFit (mmOk : VmaTreeOk mm) (ok : InfoOk info) :
    FirstFit info (freeGaps mm).reverse (unmappedAreaTopdown mm info) := by
  rw [unmappedAreaTopdown]
  split
  · next none => exact .inl ⟨fun g _ => searchWindow_none ok none g, rfl⟩
  · next w window =>
    have of := searchWindow_some ok window
    have ordered := ordered_mmRb mmOk
    have bound := ok.highLimit
    rw [freeGaps_eq mmOk, reverse_append]
    have clip : foundHighest info mm.highestVmEnd info.highLimit =
        foundDown info mm.highestVmEnd ulongMax := by
      rw [foundDown]
      split
      · rfl
      · next not =>
        have : info.highLimit = ulongMax := by
          rw [ulongMax] at not ⊢
          omega
        rw [this]
    have walk : Reports w (fun g => g.2 < w.lowLimit) (fun g => foundDown info g.1 g.2)
        (some enomem) (mm.mmRb.toList.map gapBefore).reverse
        (if promising w.length mm.mmRb then visitDown info w mm.mmRb (some enomem)
          else some enomem) := by
      refine .guarded (fun _ => visitDown_reports info w ordered mmOk.gaps _) fun out => ?_
      simp only [mem_reverse]
      exact forall_gaps.mpr
        (not_suits_of_not_promising ordered mmOk.gaps (Bool.not_eq_true _ ▸ out))
    refine firstFit_of_reports ok of (fun _ => foundDown_serves ok) (Reports.append ?_ ?_ walk)
    · intro g mem beyond
      rw [mem_singleton.mp mem] at beyond
      have := of.lowLimit
      have := of.highLimit
      have := of.limits
      simp only [ulongMax] at beyond
      omega
    · by_cases below : mm.highestVmEnd ≤ w.highLimit
      · rw [if_pos below, clip]
        exact .found (forall_mem_nil _) ((suits_highest ok of _).mpr below)
      rw [if_neg below]
      exact .climbs (forall_mem_singleton.mpr fun suits =>
        below ((suits_highest ok of _).mp suits))

/-- An address for the request, from the gap that comes first in the order `prefers` among those
that fit. -/
structure FoundAt (mm : MmStruct) (info : UnmappedAreaInfo)
    (prefers : Nat × Nat → Nat × Nat → Prop) (a : Nat) : Prop where
  limits : info.lowLimit ≤ a ∧ a + info.length ≤ info.highLimit
  aligned : a % (info.alignMask + 1) = info.alignOffset % (info.alignMask + 1)
  clear : ∀ v ∈ mm.mmRb.toList, v.vmEnd ≤ a ∨ a + info.length ≤ v.vmStart
  chosen : ∃ gap ∈ freeGaps mm, Fits info gap ∧ gap.1 ≤ a ∧ a + info.length ≤ gap.2 ∧
    ∀ g ∈ freeGaps mm, Fits info g → prefers gap g

structure SearchCorrect (mm : MmStruct) (info : UnmappedAreaInfo)
    (prefers : Nat × Nat → Nat × Nat → Prop) (a : Nat) : Prop where
  found : a ≠ enomem → FoundAt mm info prefers a
  /-- The address that is found may be the number that -ENOMEM is. -/
  complete : a = enomem → (∀ gap ∈ freeGaps mm, ¬Fits info gap) ∨ FoundAt mm info prefers enomem

/-- The first gap that fits is the preferred one. -/
theorem FirstFit.correct {prefers : Nat × Nat → Nat × Nat → Prop} (mmOk : VmaTreeOk mm)
    (same : ∀ g, g ∈ gaps ↔ g ∈ freeGaps mm) (sorted : gaps.Pairwise prefers)
    (refl : ∀ g, prefers g g) (first : FirstFit info gaps res) :
    ∃ a, res = some a ∧ SearchCorrect mm info prefers a := by
  rcases first with ⟨none, eq⟩ | ⟨pre, gap, post, a, split, skips, fits, eq, served⟩
  · have none : ∀ gap ∈ freeGaps mm, ¬Fits info gap := fun g mem => none g ((same g).mpr mem)
    exact ⟨enomem, eq, fun ne => absurd rfl ne, fun _ => .inl none⟩
  have mem : gap ∈ freeGaps mm := (same gap).mp (by rw [split]; simp)
  have low := served.low
  have high := served.high
  suffices found : FoundAt mm info prefers a from
    ⟨a, eq, fun _ => found, fun same => .inr (same ▸ found)⟩
  refine ⟨⟨by omega, by omega⟩, served.aligned, fun v inTree => ?_, gap, mem, fits, by omega, by omega,
    ?_⟩
  · have := freeGaps_clear mmOk mem v inTree
    omega
  intro g inGaps fitsToo
  have inSplit := (same g).mpr inGaps
  rw [split] at inSplit sorted
  rcases mem_append.mp inSplit with inPre | inPost
  · exact absurd fitsToo (skips g inPre)
  rcases mem_cons.mp inPost with rfl | inPost
  · exact refl g
  · exact (pairwise_cons.mp (pairwise_append.mp sorted).2.1).1 g inPost

/-- Both searches, for every address space and every request: neither meets a NULL pointer or a
`VM_BUG_ON`. -/
theorem unmappedArea_correct {mm : MmStruct} {info : UnmappedAreaInfo} (mmOk : VmaTreeOk mm)
    (ok : InfoOk info) :
    (∃ a, unmappedArea mm info = some a ∧ SearchCorrect mm info (fun g g' => g.1 ≤ g'.1) a) ∧
      ∃ a, unmappedAreaTopdown mm info = some a ∧
        SearchCorrect mm info (fun g g' => g'.1 ≤ g.1) a :=
  ⟨(unmappedArea_firstFit mmOk ok).correct mmOk (fun _ => Iff.rfl) (freeGaps_sorted mmOk)
      fun _ => le_rfl, (unmappedAreaTopdown_firstFit mmOk ok).correct mmOk (fun _ => mem_reverse)
      (pairwise_reverse.mpr (freeGaps_sorted mmOk)) fun _ => le_rfl⟩

def holeMm : MmStruct where
  mmRb := .node .nil ⟨0x1000, 0x2000, none, 0x2000⟩
    (.node .nil ⟨0x4000, 0x5000, some 0x2000, 0x2000⟩ .nil)
  highestVmEnd := 0x5000

theorem holeMm_ok : VmaTreeOk holeMm where
  proper := by
    intro vma mem
    simp only [holeMm, SearchTree.toList, nil_append, mem_cons, not_mem_nil, or_false] at mem
    rcases mem with rfl | rfl <;> decide
  sorted := by decide
  linked := ⟨rfl, rfl, trivial⟩
  gaps := ⟨by decide, trivial, by decide, trivial, trivial⟩
  highest := rfl

theorem unmappedArea_correct_hole :
    ∃ a, unmappedArea holeMm ⟨0x1000, 0x1000, 0x5000, 0xfff, 0⟩ = some a ∧
      SearchCorrect holeMm ⟨0x1000, 0x1000, 0x5000, 0xfff, 0⟩ (fun g g' => g.1 ≤ g'.1) a :=
  (unmappedArea_correct holeMm_ok
    ⟨by decide, by decide, ⟨12, by decide, rfl⟩, by decide, by decide, by decide⟩).1

/-- A byte asked for at the address that -ENOMEM is: both searches find it free and return it. -/
theorem unmappedArea_found_enomem :
    ∃ mm info, VmaTreeOk mm ∧ InfoOk info ∧ unmappedArea mm info = some enomem ∧
      unmappedAreaTopdown mm info = some enomem ∧ ∃ gap ∈ freeGaps mm, Fits info gap := by
  refine ⟨⟨.nil, 0⟩, ⟨1, 2 ^ 64 - 12, 2 ^ 64 - 11, 0, 0⟩,
    ⟨by simp [SearchTree.toList], .nil, trivial, trivial, rfl⟩,
    ⟨by decide, by decide, ⟨0, by decide, rfl⟩, by decide, by decide, by decide⟩, by decide,
    by decide, (0, ulongMax), mem_singleton_self _, by decide⟩

end Linux318.Guarantees.UnmappedArea
