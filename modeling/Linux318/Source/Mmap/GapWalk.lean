import Linux318.Source.Mmap.UnmappedArea

/-!
A walk, judged by the gaps of its subtree in the order it would visit them: it ends at the
first gap that suits, or it climbs out, or it stops at a gap beyond the limits, where no later
gap suits.
-/
namespace Linux318.Source.Mmap
open List Lib
open SearchTree (toList)

variable {result : Option Nat} {left right t : SearchTree VmArea} {vma : VmArea}
  {vmas : List VmArea} {gaps : List (Nat × Nat)} {e : Prop}

def gapBefore (vma : VmArea) : Nat × Nat := (vma.vmPrev.getD 0, vma.vmStart)

def Suits (w : Window) (gap : Nat × Nat) : Prop :=
  gap.1 ≤ w.highLimit ∧ w.lowLimit ≤ gap.2 ∧ w.length ≤ gap.2 - gap.1

inductive Reports (w : Window) (stop : Nat × Nat → Prop) (found : Nat × Nat → Option Nat)
    (climb : Option Nat) : List (Nat × Nat) → Option Nat → Prop where
  | found {pre post : List (Nat × Nat)} {gap : Nat × Nat} (skips : ∀ g ∈ pre, ¬Suits w g)
      (suits : Suits w gap) : Reports w stop found climb (pre ++ gap :: post) (found gap)
  | climbs {gaps : List (Nat × Nat)} (skips : ∀ g ∈ gaps, ¬Suits w g) :
      Reports w stop found climb gaps climb
  | stops {gaps : List (Nat × Nat)} (skips : ∀ g ∈ gaps, ¬Suits w g)
      (beyond : ∃ g ∈ gaps, stop g) : Reports w stop found climb gaps (some enomem)

section Walk

variable {w : Window} {stop : Nat × Nat → Prop} {found : Nat × Nat → Option Nat}

theorem Reports.append {climb next : Option Nat} {front back : List (Nat × Nat)}
    (last : ∀ g ∈ front, stop g → ∀ g' ∈ back, ¬Suits w g')
    (first : Reports w stop found next front result) (second : Reports w stop found climb back next) :
    Reports w stop found climb (front ++ back) result := by
  cases first with
  | @found pre post gap skips suits =>
    rw [append_assoc]
    exact .found skips suits
  | climbs skips =>
    cases second with
    | @found pre post gap skips' suits =>
      rw [← append_assoc]
      exact .found (forall_mem_append.mpr ⟨skips, skips'⟩) suits
    | climbs skips' => exact .climbs (forall_mem_append.mpr ⟨skips, skips'⟩)
    | stops skips' beyond =>
      obtain ⟨g, mem, stops⟩ := beyond
      exact .stops (forall_mem_append.mpr ⟨skips, skips'⟩) ⟨g, mem_append_right _ mem, stops⟩
  | stops skips beyond =>
    obtain ⟨g, mem, stops⟩ := beyond
    exact .stops (forall_mem_append.mpr ⟨skips, last g mem stops⟩) ⟨g, mem_append_left _ mem, stops⟩

theorem Reports.find (reports : Reports w stop found (some enomem) gaps result) :
    ((∀ g ∈ gaps, ¬Suits w g) ∧ result = some enomem) ∨
      ∃ pre gap post, gaps = pre ++ gap :: post ∧ (∀ g ∈ pre, ¬Suits w g) ∧ Suits w gap ∧
        result = found gap := by
  cases reports with
  | @found pre post gap skips suits => exact .inr ⟨pre, gap, post, rfl, skips, suits, rfl⟩
  | climbs skips => exact .inl ⟨skips, rfl⟩
  | stops skips _ => exact .inl ⟨skips, rfl⟩

end Walk

/-- The vma in front ends before the gap of the other one starts. -/
def Precedes (a b : VmArea) : Prop := a.vmStart ≤ (gapBefore b).1 ∧ b.vmPrev.isSome

structure Ordered (vmas : List VmArea) : Prop where
  precedes : vmas.Pairwise Precedes
  proper {vma : VmArea} : vma ∈ vmas → (gapBefore vma).1 ≤ vma.vmStart ∧ vma.vmStart < 2 ^ 64

theorem Ordered.node (ordered : Ordered (SearchTree.node left vma right).toList) :
    Ordered left.toList ∧ Ordered right.toList ∧ (∀ a ∈ left.toList, Precedes a vma) ∧
      (∀ b ∈ right.toList, Precedes vma b) ∧ ∀ a ∈ left.toList, ∀ b ∈ right.toList, Precedes a b := by
  obtain ⟨sl, sr, across⟩ := pairwise_append.mp ordered.precedes
  obtain ⟨head, sr⟩ := pairwise_cons.mp sr
  refine ⟨⟨sl, fun mem => ordered.proper ?_⟩, ⟨sr, fun mem => ordered.proper ?_⟩,
    fun a mem => across a mem vma mem_cons_self, head,
    fun a inLeft b inRight => across a inLeft b (mem_cons_of_mem _ inRight)⟩
  · exact mem_append_left _ mem
  · exact mem_append_right _ (mem_cons_of_mem _ mem)

theorem Ordered.root (ordered : Ordered (SearchTree.node left vma right).toList) :
    (gapBefore vma).1 ≤ vma.vmStart ∧ vma.vmStart < 2 ^ 64 :=
  ordered.proper (mem_append_right _ mem_cons_self)

def subtreeGap : SearchTree VmArea → Nat
  | .nil => 0
  | .node _ vma _ => vma.rbSubtreeGap

theorem raiseGap_eq (m : Nat) (t : SearchTree VmArea) : raiseGap m t = max m (subtreeGap t) := by
  cases t with
  | nil => simp [raiseGap, subtreeGap]
  | node left vma right =>
    rw [raiseGap, subtreeGap]
    split <;> omega

theorem vmaComputeSubtreeGap_eq (proper : (gapBefore vma).1 ≤ vma.vmStart ∧ vma.vmStart < 2 ^ 64) :
    vmaComputeSubtreeGap vma left right =
      max (max ((gapBefore vma).2 - (gapBefore vma).1) (subtreeGap left)) (subtreeGap right) := by
  rw [vmaComputeSubtreeGap, raiseGap_eq, raiseGap_eq]
  rw [gapBefore] at proper ⊢
  cases h : vma.vmPrev with
  | none => simp only [Option.getD_none, Nat.sub_zero]
  | some vmEnd =>
    simp only [h, Option.getD_some] at proper ⊢
    rw [sub64_eq proper.1 proper.2]

/-- The root's field bounds every gap of the subtree. -/
theorem gap_le_subtreeGap (ordered : Ordered t.toList)
    (exact : GapsExact t) : ∀ vma ∈ t.toList, (gapBefore vma).2 - (gapBefore vma).1 ≤ subtreeGap t := by
  induction t with
  | nil =>
    intro vma mem
    simp [toList] at mem
  | node left root right ihl ihr =>
    obtain ⟨ol, or, -⟩ := ordered.node
    obtain ⟨field, el, er⟩ := exact
    rw [vmaComputeSubtreeGap_eq ordered.root] at field
    intro vma mem
    rw [subtreeGap]
    rcases mem_append.mp mem with inLeft | mem
    · have := ihl ol el vma inLeft
      omega
    rcases mem_cons.mp mem with rfl | inRight
    · omega
    · have := ihr or er vma inRight
      omega

theorem not_suits_of_not_promising {w : Window} (ordered : Ordered t.toList) (exact : GapsExact t)
    (not : promising w.length t = false) : ∀ vma ∈ t.toList, ¬Suits w (gapBefore vma) := by
  intro vma mem suits
  have le := gap_le_subtreeGap ordered exact vma mem
  cases t with
  | nil => simp [toList] at mem
  | node left root right =>
    have small : ¬w.length ≤ root.rbSubtreeGap := by simpa [promising] using not
    exact small (suits.2.2.trans le)

theorem forall_gaps {p : Nat × Nat → Prop} :
    (∀ gap ∈ vmas.map gapBefore, p gap) ↔ ∀ vma ∈ vmas, p (gapBefore vma) := forall_mem_map

section
variable (info : UnmappedAreaInfo) (w : Window) (next : Option Nat)
  (proper : (gapBefore vma).1 ≤ vma.vmStart ∧ vma.vmStart < 2 ^ 64)
include info w next proper

theorem checkUp_reports :
    Reports w (fun g => w.highLimit < g.1) (fun g => foundUp info g.1 g.2) next [gapBefore vma]
      (checkUp info w (gapBefore vma).1 vma.vmStart next) := by
  rw [checkUp, sub64_eq proper.1 proper.2]
  split_ifs with beyond fits
  · refine .stops (forall_mem_singleton.mpr fun suits => ?_) ⟨_, mem_singleton_self _, beyond⟩
    have := suits.1
    omega
  · exact .found (forall_mem_nil _) ⟨by omega, fits⟩
  · exact .climbs (forall_mem_singleton.mpr fun suits => fits suits.2)

theorem checkDown_reports :
    Reports w (fun g => g.2 < w.lowLimit) (fun g => foundDown info g.1 g.2) next [gapBefore vma]
      (checkDown info w (gapBefore vma).1 vma.vmStart next) := by
  rw [checkDown, sub64_eq proper.1 proper.2]
  split_ifs with beyond fits
  · refine .stops (forall_mem_singleton.mpr fun suits => ?_) ⟨_, mem_singleton_self _, beyond⟩
    have := suits.2.1
    rw [gapBefore] at this
    omega
  · exact .found (forall_mem_nil _) ⟨fits.1, by rw [gapBefore]; omega, fits.2⟩
  · exact .climbs (forall_mem_singleton.mpr fun suits => fits ⟨suits.1, suits.2.2⟩)

end

section
variable {w : Window} {stop : Nat × Nat → Prop} {found : Nat × Nat → Option Nat}
include w stop found

/-- A subtree that is only entered when something there may suit. -/
theorem Reports.guarded {climb : Option Nat} [Decidable e]
    (walk : e → Reports w stop found climb gaps result) (skip : ¬e → ∀ g ∈ gaps, ¬Suits w g) :
    Reports w stop found climb gaps (if e then result else climb) := by
  split
  · next enters => exact walk enters
  · next out => exact .climbs (skip out)

/-- The visit of a node: one subtree, the gap of the node and the other subtree. -/
theorem Reports.visit {climb next here : Option Nat} {front back : List (Nat × Nat)}
    {gap : Nat × Nat} [Decidable e]
    (last : (front ++ gap :: back).Pairwise fun g g' => stop g → ¬Suits w g')
    (walk : e → Reports w stop found here front result) (skip : ¬e → ∀ g ∈ front, ¬Suits w g)
    (check : Reports w stop found next [gap] here) (rest : Reports w stop found climb back next) :
    Reports w stop found climb (front ++ gap :: back) (if e then result else here) := by
  obtain ⟨-, later, across⟩ := pairwise_append.mp last
  have behind := (pairwise_cons.mp later).1
  refine (Reports.guarded walk skip).append (fun g mem stops g' later => ?_) (check.append ?_ rest)
  · exact across g mem g' later stops
  · intro g mem stops g' later
    exact behind g' later (mem_singleton.mp mem ▸ stops)

end

theorem Ordered.last_up (ordered : Ordered vmas) (w : Window) :
    (vmas.map gapBefore).Pairwise fun g g' => w.highLimit < g.1 → ¬Suits w g' := by
  refine pairwise_map.mpr (ordered.precedes.imp_of_mem fun inA _ precedes beyond suits => ?_)
  have := (ordered.proper inA).1
  have := precedes.1
  have := suits.1
  omega

theorem Ordered.last_down (ordered : Ordered vmas) (w : Window) :
    (vmas.map gapBefore).reverse.Pairwise fun g g' => g.2 < w.lowLimit → ¬Suits w g' := by
  refine pairwise_reverse.mpr (pairwise_map.mpr
    (ordered.precedes.imp_of_mem fun _ inB precedes beyond suits => ?_))
  have := (ordered.proper inB).1
  have := precedes.1
  have := suits.2.1
  simp only [gapBefore] at *
  omega

section
variable (info : UnmappedAreaInfo) (w : Window) (ordered : Ordered t.toList) (exact : GapsExact t)
  (climb : Option Nat)
include info w ordered exact climb

theorem visitUp_reports :
    Reports w (fun g => w.highLimit < g.1) (fun g => foundUp info g.1 g.2) climb
      (t.toList.map gapBefore) (visitUp info w t climb) := by
  induction t generalizing climb with
  | nil => exact .climbs (by simp [toList])
  | node left vma right ihl ihr =>
    obtain ⟨ol, or, before, -, -⟩ := ordered.node
    obtain ⟨-, el, er⟩ := exact
    have last := ordered.last_up w
    have next := Reports.guarded (fun _ => ihr or er climb)
      fun out => forall_gaps.mpr (not_suits_of_not_promising or er (Bool.not_eq_true _ ▸ out))
    rw [toList, map_append] at last ⊢
    refine Reports.visit last (fun enter => ?_) (fun out => forall_gaps.mpr ?_)
      (checkUp_reports info w _ ordered.root) next
    · -- a vma with a left child has a vma in front of it, so the climb meets no NULL
      cases left with
      | nil => simp [promising] at enter
      | node ll child lr =>
        have some := (before child (mem_append_right _ mem_cons_self)).2
        obtain ⟨e, eq⟩ := Option.isSome_iff_exists.mp some
        simp only [eq]
        exact ihl ol el _
    by_cases enter : promising w.length left
    · intro a inLeft suits
      have low : vma.vmStart < w.lowLimit := by
        by_contra not
        exact out ⟨by omega, enter⟩
      have := ordered.root.1
      have := (before a inLeft).1
      have := suits.2.1
      rw [gapBefore] at this
      omega
    · exact not_suits_of_not_promising ol el (Bool.not_eq_true _ ▸ enter)

theorem visitDown_reports :
    Reports w (fun g => g.2 < w.lowLimit) (fun g => foundDown info g.1 g.2) climb
      (t.toList.map gapBefore).reverse (visitDown info w t climb) := by
  induction t generalizing climb with
  | nil => exact .climbs (by simp [toList])
  | node left vma right ihl ihr =>
    obtain ⟨ol, or, -, behind, -⟩ := ordered.node
    obtain ⟨-, el, er⟩ := exact
    have last := ordered.last_down w
    have next := Reports.guarded (fun _ => ihl ol el climb)
      fun out g mem => (forall_gaps (p := fun g => ¬Suits w g)).mpr
        (not_suits_of_not_promising ol el (Bool.not_eq_true _ ▸ out)) g (mem_reverse.mp mem)
    rw [toList, map_append, map_cons, reverse_append, reverse_cons, append_assoc] at last ⊢
    refine Reports.visit last (fun _ => ihr or er _) (fun out g mem => ?_)
      (checkDown_reports info w _ ordered.root) next
    revert g
    simp only [mem_reverse]
    refine forall_gaps.mpr ?_
    by_cases enter : promising w.length right
    · intro b inRight suits
      have high : w.highLimit < vma.vmPrev.getD 0 := by
        by_contra not
        exact out ⟨by omega, enter⟩
      have := ordered.root.1
      have := (behind b inRight).1
      have := suits.1
      simp only [gapBefore] at *
      omega
    · exact not_suits_of_not_promising or er (Bool.not_eq_true _ ▸ enter)

end

end Linux318.Source.Mmap
