import Linux318.Source.ListSort.Sort

/-!
# Sorting a list

Source: lib/list_sort.c.
-/
namespace Linux318.Guarantees
open Source.ListSort

/-- `list_sort` with a total preorder gives a circular list with links in both directions, of the
same elements in order. Of two elements that compare equal, or that are in order already, the
first one stays before the other. The list may have any length. -/
theorem listSort_stable {cmp : Nat → Nat → Int}
    (trans : ∀ a b c, cmp a b ≤ 0 → cmp b c ≤ 0 → cmp a c ≤ 0)
    (total : ∀ a b, cmp a b ≤ 0 ∨ cmp b a ≤ 0) {s : ListHeads} {head frame rounds : Nat} {l : List Nat}
    (circular : Circular s head l) (distinct : (frame :: head :: l).Nodup)
    (some : 0 ∉ frame :: head :: l) (enough : l.length < rounds) :
    ∃ s' out, listSort cmp rounds frame s head = .some s' ∧ Circular s' head out ∧ out.Perm l ∧
      (out.Pairwise fun a b => cmp a b ≤ 0) ∧
      ∀ a b, [a, b].Sublist l → cmp a b ≤ 0 → [a, b].Sublist out := by
  obtain ⟨s', out, run, circular', stable⟩ := listSort_sorts
    (show ∀ a b c, cmpLe cmp a b → cmpLe cmp b c → cmpLe cmp a c by simpa [cmpLe] using trans)
    (by simpa [cmpLe] using total) circular distinct some enough
  refine ⟨s', out, run, circular', stable.perm, ?_, fun a b pair order => ?_⟩
  · simpa [cmpLe] using stable.sorted
  · exact stable.stable a b pair (by simpa [cmpLe] using order)

theorem listSort_stable_three : ∃ s' out, listSort (fun a b => a / 8 - b / 8 : Nat → Nat → Int) 9 20
        ⟨fun a => if a = 16 then 12 else if a = 12 then 8 else if a = 8 then 4 else 16,
          fun a => if a = 16 then 4 else if a = 4 then 8 else if a = 8 then 12 else 16⟩ 16 = some s' ∧
      Circular s' 16 out ∧ out.Perm [12, 8, 4] ∧
      (out.Pairwise fun a b : Nat => (a / 8 - b / 8 : Int) ≤ 0) ∧
      ∀ a b : Nat, [a, b].Sublist [12, 8, 4] → (a / 8 - b / 8 : Int) ≤ 0 → [a, b].Sublist out :=
  listSort_stable (by intros; omega) (by intros; omega) (by simp [Circular, Link]) (by decide)
    (by decide) (by decide)

end Linux318.Guarantees
