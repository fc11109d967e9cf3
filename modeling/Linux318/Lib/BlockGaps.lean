import Linux318.Lib.Block
import Mathlib.Order.Interval.Finset.Nat

/-!
How many gaps a window has depends on the covered numbers only. Covering or uncovering one range
makes at most one more.
-/
namespace Linux318.Lib.Block

variable {τ : Type}

def Covered (blocks : List (Block τ)) (point : Nat) : Prop := ∃ t, At blocks point t

noncomputable def gapStarts (lo hi : Nat) (covered : Nat → Prop) : Finset Nat :=
  @Finset.filter _ (fun a => ¬covered a ∧ (a = lo ∨ covered (a - 1))) (Classical.decPred _)
    (Finset.Ico lo hi)

theorem mem_gapStarts {lo hi a : Nat} {covered : Nat → Prop} : a ∈ gapStarts lo hi covered ↔
      (lo ≤ a ∧ a < hi) ∧ ¬covered a ∧ (a = lo ∨ covered (a - 1)) := by
  exact (@Finset.mem_filter _ _ (Classical.decPred _) _ _).trans (by rw [Finset.mem_Ico])

theorem covered_cons {r : Block τ} {rest : List (Block τ)} {point : Nat} :
    Covered (r :: rest) point ↔ (r.base ≤ point ∧ point < r.top) ∨ Covered rest point := by
  simp only [Covered, at_cons, exists_or]
  exact or_congr_left ⟨fun ⟨_, low, high, _⟩ => ⟨low, high⟩, fun ⟨low, high⟩ => ⟨_, low, high, rfl⟩⟩

theorem gapStarts_uncovered {lo hi : Nat} {covered : Nat → Prop}
    (none : ∀ a, lo ≤ a → a < hi → ¬covered a) :
    (gapStarts lo hi covered).card = if lo < hi then 1 else 0 := by
  have starts : gapStarts lo hi covered = if lo < hi then {lo} else ∅ := by
    ext a
    rw [mem_gapStarts]
    split_ifs with nonempty
    · rw [Finset.mem_singleton]
      constructor
      · rintro ⟨⟨low, high⟩, _, first | before⟩
        · exact first
        · by_contra ne
          exact none (a - 1) (by omega) (by omega) before
      · rintro rfl
        exact ⟨⟨Nat.le_refl _, nonempty⟩, none _ (Nat.le_refl _) nonempty, .inl rfl⟩
    · simp only [Finset.notMem_empty, iff_false]
      omega
  rw [starts]
  split_ifs <;> rfl

theorem gaps_eq_card {hi lo : Nat} {blocks : List (Block τ)} (order : InOrder blocks)
    (nonempty : ∀ b ∈ blocks, 0 < b.size) :
    gaps hi lo blocks = (gapStarts lo hi (Covered blocks)).card := by
  induction blocks generalizing lo with
  | nil => rw [gaps, gapStarts_uncovered fun a _ _ => by simp [Covered, At]]
  | cons r rest ih =>
    obtain ⟨behind, order'⟩ := List.pairwise_cons.mp order
    have pos := nonempty r List.mem_cons_self
    have stop : r.top = r.base + r.size := rfl
    have nonempty' : ∀ b ∈ rest, 0 < b.size := fun b mem => nonempty b (List.mem_cons_of_mem r mem)
    have rest_above {a : Nat} (inRest : Covered rest a) : r.top ≤ a := by
      obtain ⟨t, b, mem, low, _⟩ := inRest
      have start := behind b mem
      omega
    rw [gaps]
    by_cases beyond : hi ≤ r.base
    · rw [if_pos beyond, gapStarts_uncovered]
      intro a _ high covered
      rcases covered_cons.mp covered with here | inRest
      · omega
      · have above := rest_above inRest
        omega
    rw [if_neg beyond]
    by_cases before : r.top ≤ lo
    · rw [if_pos before, ih order' nonempty']
      congr 1
      ext a
      simp only [mem_gapStarts, covered_cons]
      refine and_congr_right fun window => and_congr (not_congr ?_) ?_
      · exact ⟨.inr, fun h => h.resolve_left (by omega)⟩
      by_cases first : a = lo
      · simp [first]
      · refine or_congr_right ⟨.inr, fun h => h.resolve_left (by omega)⟩
    rw [if_neg before, ih order' nonempty']
    have split : gapStarts lo hi (Covered (r :: rest)) =
        (if lo < r.base then {lo} else ∅) ∪ gapStarts (min r.top hi) hi (Covered rest) := by
      ext a
      rw [Finset.mem_union, mem_gapStarts, mem_gapStarts, covered_cons, covered_cons]
      have first : a ∈ (if lo < r.base then ({lo} : Finset Nat) else ∅) ↔ lo < r.base ∧ a = lo := by
        split_ifs with gap
        · simp [gap]
        · simp [gap]
      rw [first]
      constructor
      · rintro ⟨⟨low, high⟩, uncovered, start⟩
        rw [not_or] at uncovered
        by_cases under : a < r.base
        · left
          rcases start with same | here | inRest
          · exact ⟨by omega, same⟩
          · omega
          · have above := rest_above inRest
            omega
        right
        refine ⟨⟨by omega, high⟩, uncovered.2, ?_⟩
        rcases start with same | here | inRest
        · omega
        · omega
        · exact .inr inRest
      · rintro (⟨gap, rfl⟩ | ⟨⟨low, high⟩, uncovered, start⟩)
        · refine ⟨⟨Nat.le_refl _, by omega⟩, ?_, .inl rfl⟩
          rintro (here | inRest)
          · omega
          · have above := rest_above inRest
            omega
        refine ⟨⟨by omega, high⟩, ?_, ?_⟩
        · rintro (here | inRest)
          · omega
          · exact uncovered inRest
        · rcases start with same | inRest
          · exact .inr (.inl (by omega))
          · exact .inr (.inr inRest)
    have disjoint : Disjoint (if lo < r.base then ({lo} : Finset Nat) else ∅)
        (gapStarts (min r.top hi) hi (Covered rest)) := by
      rw [Finset.disjoint_left]
      intro a first second
      have window := (mem_gapStarts.mp second).1
      split_ifs at first with gap
      · rw [Finset.mem_singleton] at first
        omega
      · simp at first
    rw [split, Finset.card_union_of_disjoint disjoint]
    split_ifs <;> rfl

section Change

variable {lo hi b e : Nat} {covered covered' : Nat → Prop}

/-- Uncovering a range makes at most one more gap. -/
theorem card_gapStarts_drop (drop : ∀ a, covered' a ↔ covered a ∧ ¬(b ≤ a ∧ a < e)) :
    (gapStarts lo hi covered').card ≤ (gapStarts lo hi covered).card + 1 := by
  have sub : gapStarts lo hi covered' ⊆ insert (max b lo) (gapStarts lo hi covered) := by
    intro a start
    rw [Finset.mem_insert, mem_gapStarts]
    rw [mem_gapStarts, drop, drop] at start
    obtain ⟨window, uncovered, first⟩ := start
    by_cases here : b ≤ a ∧ a < e
    · rcases first with rfl | ⟨_, out⟩ <;> omega
    · exact .inr ⟨window, fun inside => uncovered ⟨inside, here⟩, first.imp_right And.left⟩
  exact (Finset.card_le_card sub).trans (Finset.card_insert_le _ _)

theorem card_gapStarts_add (add : ∀ a, covered' a ↔ covered a ∨ (b ≤ a ∧ a < e)) :
    (gapStarts lo hi covered').card ≤ (gapStarts lo hi covered).card + 1 := by
  have sub : gapStarts lo hi covered' ⊆ insert e (gapStarts lo hi covered) := by
    intro a start
    rw [Finset.mem_insert, mem_gapStarts]
    rw [mem_gapStarts, add, add, not_or] at start
    obtain ⟨window, ⟨uncovered, out⟩, first⟩ := start
    rcases first with same | before | new
    · exact .inr ⟨window, uncovered, .inl same⟩
    · exact .inr ⟨window, uncovered, .inr before⟩
    · omega
  exact (Finset.card_le_card sub).trans (Finset.card_insert_le _ _)

end Change

end Linux318.Lib.Block
