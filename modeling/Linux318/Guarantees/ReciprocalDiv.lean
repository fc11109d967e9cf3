import Linux318.Source.Kernel.ReciprocalDiv

/-!
# Division by a multiplication

Source: lib/reciprocal_div.c, include/linux/reciprocal_div.h. The quotient is that of the division.
-/
namespace Linux318.Guarantees
open Source.Kernel

/-- The quotient is exact, and nothing is cut off on the way. -/
theorem reciprocalDivide_eq (a d : Nat) (small : a < 2 ^ 32) (pos : 0 < d) (small' : d < 2 ^ 32) :
    reciprocalDivide a (reciprocalValue d) = a / d ∧ d ≤ 2 ^ (d - 1).size ∧
      2 ^ 32 * (2 ^ (d - 1).size - d) < 2 ^ 64 ∧ wideMultiplier d < 2 ^ 32 ∧
      a * (reciprocalValue d).m / 2 ^ 32 ≤ a ∧ wideSum a (reciprocalValue d) < 2 ^ 32 := by
  obtain ⟨reach, _, _⟩ := size_bounds pos small'
  obtain ⟨fits, cut, r, le, eq⟩ := wideMultiplier_spec pos small'
  have exact : (a + a * wideMultiplier d / 2 ^ 32) / 2 ^ (d - 1).size = a / d := by
    have bound : a * r < 2 ^ 32 * 2 ^ (d - 1).size :=
      Nat.mul_lt_mul_of_lt_of_le small (Nat.le_trans le reach) (Nat.two_pow_pos _)
    rw [← mul_div_of_mul_eq eq bound pos, ← Nat.div_div_eq_div_mul, Nat.mul_add,
      Nat.mul_comm a (2 ^ 32), Nat.mul_add_div (Nat.two_pow_pos 32)]
  have low : a * wideMultiplier d / 2 ^ 32 ≤ a := Nat.div_le_of_le_mul (by
    rw [Nat.mul_comm (2 ^ 32)]
    exact Nat.mul_le_mul_left a (Nat.le_of_lt cut))
  have same : (reciprocalValue d).m = wideMultiplier d := Nat.mod_eq_of_lt cut
  have sum : wideSum a (reciprocalValue d) < 2 ^ 32 := by
    have := Nat.div_le_self (a - a * wideMultiplier d / 2 ^ 32) (2 ^ (reciprocalValue d).sh1)
    rw [wideSum, same]
    omega
  refine ⟨?_, reach, fits, cut, same ▸ low, sum⟩
  rw [reciprocalDivide, Nat.mod_eq_of_lt sum, wideSum, same, ← exact]
  generalize a * wideMultiplier d / 2 ^ 32 = t at *
  simp only [reciprocalValue]
  cases size : (d - 1).size with
  | zero =>
    have one : d = 1 := by
      have := Nat.size_eq_zero.mp size
      omega
    rw [size, one] at exact
    simp at exact ⊢
    omega
  | succ k =>
    have half : t + (a - t) / 2 = (a + t) / 2 := by omega
    rw [Nat.min_eq_right (Nat.succ_pos k), Nat.add_sub_cancel, Nat.pow_one, half,
      Nat.div_div_eq_div_mul, Nat.pow_succ']

theorem reciprocalDivide_seven : reciprocalDivide (2 ^ 32 - 1) (reciprocalValue 7) = 613566756 :=
  (reciprocalDivide_eq (2 ^ 32 - 1) 7 (by decide) (by decide) (by decide)).1

end Linux318.Guarantees
