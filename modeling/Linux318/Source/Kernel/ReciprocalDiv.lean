import Mathlib.Algebra.Ring.Nat
import Mathlib.Data.Nat.Size

/-!
Division by a multiplication, after `lib/reciprocal_div.c` 11-26 and
`include/linux/reciprocal_div.h` 29-33. `fls` is `Nat.size`.
-/
namespace Linux318.Source.Kernel

structure ReciprocalValue where
  m : Nat
  sh1 : Nat
  sh2 : Nat

/-- The multiplier of `reciprocal_value` before it is cut to 32 bits -/
def wideMultiplier (d : Nat) : Nat := 2 ^ 32 * (2 ^ (d - 1).size - d) % 2 ^ 64 / d + 1

def reciprocalValue (d : Nat) : ReciprocalValue :=
  let l := (d - 1).size
  ⟨wideMultiplier d % 2 ^ 32, min l 1, l - 1⟩

/-- The sum in `reciprocal_divide` before it is cut to 32 bits -/
def wideSum (a : Nat) (R : ReciprocalValue) : Nat :=
  let t := a * R.m / 2 ^ 32
  t + (a - t) / 2 ^ R.sh1

def reciprocalDivide (a : Nat) (R : ReciprocalValue) : Nat := wideSum a R % 2 ^ 32 / 2 ^ R.sh2

theorem mul_div_of_mul_eq {a d K M r : Nat} (eq : M * d = K + r) (small : a * r < K) (pos : 0 < d) :
    a * M / K = a / d := by
  have scaled : a * M * d = a * K + a * r := by rw [Nat.mul_assoc, eq, Nat.mul_add]
  refine Nat.div_eq_of_lt_le ?_ ?_
  · refine Nat.le_of_mul_le_mul_right ?_ pos
    calc a / d * K * d = a / d * d * K := Nat.mul_right_comm ..
      _ ≤ a * K := Nat.mul_le_mul_right K (Nat.div_mul_le_self a d)
      _ ≤ a * M * d := by omega
  · refine Nat.lt_of_mul_lt_mul_right (a := d) ?_
    calc a * M * d < (a + 1) * K := by rw [scaled, Nat.add_mul]; omega
      _ ≤ (a / d + 1) * d * K := Nat.mul_le_mul_right K (Nat.lt_mul_of_div_lt (Nat.lt_succ_self _) pos)
      _ = (a / d + 1) * K * d := Nat.mul_right_comm ..

section
variable {d : Nat} (pos : 0 < d) (small : d < 2 ^ 32)
include pos small

/-- The shift is the least one that reaches the divisor. -/
theorem size_bounds : d ≤ 2 ^ (d - 1).size ∧ 2 ^ (d - 1).size < 2 * d ∧ (d - 1).size ≤ 32 := by
  have above := Nat.lt_size_self (d - 1)
  refine ⟨by omega, ?_, Nat.size_le.mpr (by omega)⟩
  cases size : (d - 1).size with
  | zero => omega
  | succ k =>
    have below : 2 ^ k ≤ d - 1 := Nat.lt_size.mp (by omega)
    rw [Nat.pow_succ]
    omega

theorem wideMultiplier_spec : 2 ^ 32 * (2 ^ (d - 1).size - d) < 2 ^ 64 ∧ wideMultiplier d < 2 ^ 32 ∧
    ∃ r ≤ d, (2 ^ 32 + wideMultiplier d) * d = 2 ^ 32 * 2 ^ (d - 1).size + r := by
  obtain ⟨reach, near, _⟩ := size_bounds pos small
  have fits : 2 ^ 32 * (2 ^ (d - 1).size - d) < 2 ^ 64 := by omega
  rw [wideMultiplier, Nat.mod_eq_of_lt fits]
  generalize 2 ^ (d - 1).size = p at *
  have split := Nat.div_add_mod (2 ^ 32 * (p - d)) d
  have rest := Nat.mod_lt (2 ^ 32 * (p - d)) pos
  refine ⟨fits, ?_, d - 2 ^ 32 * (p - d) % d, Nat.sub_le .., ?_⟩
  · have quotient : 2 ^ 32 * (p - d) / d < 2 ^ 32 - 1 := by
      rw [Nat.div_lt_iff_lt_mul pos]
      omega
    omega
  · rw [Nat.add_mul, Nat.add_mul, Nat.mul_comm (_ / d)]
    omega

end

end Linux318.Source.Kernel
