import Mathlib.Data.List.Sort

/-!
Stable sorting. A merge that prefers its left side on ties gives a stable sort of two consecutive
parts from stable sorts of each of them.
-/
namespace Linux318.Lib
open List

variable {α : Type} {le : α → α → Bool}

/-- `out` has the elements of `l` in order, and those that need not change places keep them. -/
structure StableSort (le : α → α → Bool) (l out : List α) : Prop where
  perm : out.Perm l
  sorted : out.Pairwise fun a b => le a b
  stable : ∀ a b, [a, b].Sublist l → le a b → [a, b].Sublist out

theorem StableSort.nil : StableSort le [] [] :=
  ⟨.refl _, .nil, fun _ _ pair _ => pair⟩

theorem StableSort.singleton (a : α) : StableSort le [a] [a] :=
  ⟨.refl _, pairwise_singleton _ _, fun _ _ pair _ => pair⟩

theorem sublist_merge_left (l m : List α) : l.Sublist (l.merge m le) := by
  fun_induction List.merge l m le with
  | case1 m => exact nil_sublist _
  | case2 l => exact List.Sublist.refl _
  | case3 x l y m first ih => exact ih.cons_cons x
  | case4 x l y m later ih => exact ih.cons y

theorem sublist_merge_right (l m : List α) : m.Sublist (l.merge m le) := by
  fun_induction List.merge l m le with
  | case1 m => exact List.Sublist.refl _
  | case2 l => exact nil_sublist _
  | case3 x l y m first ih => exact ih.cons x
  | case4 x l y m later ih => exact ih.cons_cons y

/-- An element of the left side stays before those of the right side that are not smaller. -/
theorem pair_sublist_merge (trans : ∀ a b c, le a b → le b c → le a c) {l m : List α}
    (sorted : l.Pairwise fun a b => le a b) {a b : α} (left : a ∈ l) (right : b ∈ m)
    (order : le a b) : [a, b].Sublist (l.merge m le) := by
  fun_induction List.merge l m le with
  | case1 m => cases left
  | case2 l => cases right
  | case3 x l y m first ih =>
    rcases mem_cons.mp left with rfl | left
    · exact (singleton_sublist.mpr (mem_merge.mpr (.inr right))).cons_cons a
    · exact (ih (pairwise_cons.mp sorted).2 left right).cons x
  | case4 x l y m later ih =>
    rcases mem_cons.mp right with rfl | right
    · -- then the first of the left side is not larger than `b` either
      exfalso
      rcases mem_cons.mp left with rfl | left
      · exact later order
      · exact later (trans x a b ((pairwise_cons.mp sorted).1 a left) order)
    · exact (ih sorted left right).cons y

theorem StableSort.merge (trans : ∀ a b c, le a b → le b c → le a c)
    (total : ∀ a b, le a b || le b a) {l m out out' : List α} (left : StableSort le l out)
    (right : StableSort le m out') : StableSort le (l ++ m) (out.merge out' le) := by
  refine ⟨?_, pairwise_merge trans total _ _ left.sorted right.sorted, ?_⟩
  · exact (merge_perm_append le).trans (left.perm.append right.perm)
  intro a b pair order
  obtain ⟨p, q, split, inLeft, inRight⟩ := sublist_append_iff.mp pair
  rcases cons_eq_append_iff.mp split with ⟨rfl, rfl⟩ | ⟨p, rfl, more⟩
  · exact (right.stable a b inRight order).trans (sublist_merge_right _ _)
  rcases cons_eq_append_iff.mp more with ⟨rfl, rfl⟩ | ⟨p, rfl, rest⟩
  · refine pair_sublist_merge trans left.sorted ?_ ?_ order
    · exact left.perm.mem_iff.mpr (singleton_sublist.mp inLeft)
    · exact right.perm.mem_iff.mpr (singleton_sublist.mp inRight)
  · obtain ⟨rfl, rfl⟩ := append_eq_nil_iff.mp rest.symm
    exact (left.stable a b inLeft order).trans (sublist_merge_left _ _)

end Linux318.Lib
