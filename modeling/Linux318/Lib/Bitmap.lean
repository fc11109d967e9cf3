import Mathlib.Data.List.Basic

/-!
Searching in a range of bits.
-/
namespace Linux318.Lib.Bitmap

/-- The first number of a range from `offset` with the property, or its end. -/
def findNext (p : Nat → Bool) (size offset : Nat) : Nat :=
  ((List.range' offset (size - offset)).find? p).getD size

theorem findNext_spec (p : Nat → Bool) (size offset : Nat) (le : offset ≤ size) :
    offset ≤ findNext p size offset ∧ findNext p size offset ≤ size := by
  rw [findNext]
  cases found : (List.range' offset (size - offset)).find? p with
  | none => exact ⟨le, Nat.le_refl _⟩
  | some m =>
    rw [List.find?_range'_eq_some, List.mem_range'_1] at found
    rw [Option.getD_some]
    omega

end Linux318.Lib.Bitmap
