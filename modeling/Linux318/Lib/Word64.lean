import Mathlib.Algebra.Order.Ring.Nat

/-!
The arithmetic of `unsigned long`, on numbers that stand for 64-bit words.
-/
namespace Linux318.Lib

def add64 (a b : Nat) : Nat := (a + b) % 2 ^ 64

def sub64 (a b : Nat) : Nat := (a + 2 ^ 64 - b) % 2 ^ 64

theorem add64_eq {a b : Nat} (lt : a + b < 2 ^ 64) : add64 a b = a + b := Nat.mod_eq_of_lt lt

theorem add64_lt_iff {a b : Nat} (left : a < 2 ^ 64) (right : b < 2 ^ 64) :
    add64 a b < a ↔ 2 ^ 64 ≤ a + b := by
  rw [add64]
  omega

theorem sub64_eq {a b : Nat} (le : b ≤ a) (lt : a < 2 ^ 64) : sub64 a b = a - b := by
  rw [sub64]
  omega

/-- A difference that may wrap, below a power of two. -/
theorem sub64_mask {a b k : Nat} (small : k ≤ 64) :
    sub64 a b &&& (2 ^ k - 1) = (a + 2 ^ 64 - b) % 2 ^ k := by
  rw [Nat.and_two_pow_sub_one_eq_mod, sub64, Nat.mod_mod_of_dvd _ (Nat.pow_dvd_pow 2 small)]

/-- Going up by the masked difference meets the wanted residue. -/
theorem add_mask_mod {a k : Nat} (off : Nat) (small : k ≤ 64) (lt : a < 2 ^ 64) :
    (a + (sub64 off a &&& (2 ^ k - 1))) % 2 ^ k = off % 2 ^ k := by
  rw [sub64_mask small, Nat.add_mod_mod, show a + (off + 2 ^ 64 - a) = off + 2 ^ 64 by omega]
  obtain ⟨c, eq⟩ := Nat.pow_dvd_pow 2 small
  rw [eq, Nat.add_mul_mod_self_left]

/-- Going down by the masked difference meets the wanted residue. -/
theorem sub_mask_mod {a off k : Nat} (small : k ≤ 64) (lt : off < 2 ^ 64)
    (le : (sub64 a off &&& (2 ^ k - 1)) ≤ a) :
    (a - (sub64 a off &&& (2 ^ k - 1))) % 2 ^ k = off % 2 ^ k := by
  rw [sub64_mask small] at le ⊢
  obtain ⟨c, eq⟩ := Nat.pow_dvd_pow 2 small
  have split := Nat.mod_add_div (a + 2 ^ 64 - off) (2 ^ k)
  have whole : a - (a + 2 ^ 64 - off) % 2 ^ k + 2 ^ k * c =
      off + 2 ^ k * ((a + 2 ^ 64 - off) / 2 ^ k) := by
    omega
  have residues := congrArg (· % 2 ^ k) whole
  simpa only [Nat.add_mul_mod_self_left] using residues

end Linux318.Lib
