import Mathlib.Data.Nat.Bitwise

/-!
Aligned blocks of numbers, given by their first numbers: a map from the first
number of a block to its order `k`, for a block of `2 ^ k` numbers. A set of
numbers is cut into such blocks; a block may be split into its halves, and two
buddies may be joined.
-/
namespace Linux318.Lib.BlockMap
open Function

/-- The other half of the block of the next order. -/
def buddy (p k : Nat) : Nat := p ^^^ 2 ^ k

/-- The block that a block and its buddy make up. -/
def joined (p k : Nat) : Nat := buddy p k &&& p

/-- The blocks cut the set `f`; all orders are below `limit`. -/
structure Blocks (limit : Nat) (f : Nat → Prop) (m : Nat → Option Nat) : Prop where
  order {p k : Nat} : m p = some k → k < limit
  aligned {p k : Nat} : m p = some k → 2 ^ k ∣ p
  inside {p k : Nat} : m p = some k → ∀ b, p ≤ b → b < p + 2 ^ k → f b
  covers {b : Nat} : f b → ∃ p k, m p = some k ∧ p ≤ b ∧ b < p + 2 ^ k
  disjoint {p q k l b : Nat} : m p = some k → m q = some l → p ≤ b → b < p + 2 ^ k →
    q ≤ b → b < q + 2 ^ l → p = q

theorem and_succ_even (j : Nat) : (2 * j + 1) &&& (2 * j) = 2 * j := by
  apply Nat.eq_of_testBit_eq
  intro i
  rw [Nat.testBit_and]
  cases i with
  | zero => simp
  | succ n =>
    rw [Nat.testBit_succ, Nat.testBit_succ, show (2 * j + 1) / 2 = j by omega,
      show 2 * j / 2 = j by omega, Bool.and_self]

/-- A block is the first or the second half of the joined block. -/
theorem buddy_cases {p k : Nat} (aligned : 2 ^ k ∣ p) : 2 ^ (k + 1) ∣ joined p k ∧
      (p = joined p k ∧ buddy p k = joined p k + 2 ^ k ∨
        p = joined p k + 2 ^ k ∧ buddy p k = joined p k) := by
  obtain ⟨i, rfl⟩ := aligned
  have shifted (n : Nat) : 2 ^ k * n = n <<< k := by rw [Nat.shiftLeft_eq, Nat.mul_comm]
  have xor : buddy (2 ^ k * i) k = (i ^^^ 1) <<< k := by
    rw [buddy, shifted, Nat.shiftLeft_xor_distrib, Nat.one_shiftLeft]
  have both : joined (2 ^ k * i) k = ((i ^^^ 1) &&& i) <<< k := by
    rw [joined, xor, shifted, Nat.shiftLeft_and_distrib]
  rw [both, xor, ← shifted, ← shifted]
  rcases Nat.even_or_odd' i with ⟨j, rfl | rfl⟩
  · rw [Nat.xor_one_of_even (even_two_mul j), and_succ_even]
    refine ⟨?_, .inl ⟨rfl, Nat.mul_succ _ _⟩⟩
    exact Nat.mul_dvd_mul_left _ (Nat.dvd_mul_right 2 j)
  rw [Nat.xor_one_of_odd (odd_two_mul_add_one j), Nat.add_sub_cancel, Nat.and_comm, and_succ_even]
  refine ⟨?_, .inr ⟨Nat.mul_succ _ _, rfl⟩⟩
  exact Nat.mul_dvd_mul_left _ (Nat.dvd_mul_right 2 j)

/-- Moving a block by a multiple of the next size moves its buddy. -/
theorem buddy_add {base p k : Nat} (far : 2 ^ (k + 1) ∣ base) (aligned : 2 ^ k ∣ p) :
    buddy (base + p) k = base + buddy p k ∧ joined (base + p) k = base + joined p k := by
  have pos := Nat.two_pow_pos k
  have size : 2 ^ (k + 1) = 2 * 2 ^ k := by rw [Nat.pow_succ]; omega
  have near : 2 ^ k ∣ base := Nat.dvd_trans (Nat.pow_dvd_pow 2 (Nat.le_succ k)) far
  obtain ⟨j, hj⟩ := (buddy_cases aligned).1
  obtain ⟨i, hi⟩ := (buddy_cases (Nat.dvd_add near aligned)).1
  obtain ⟨c, hc⟩ := far
  have halves := (buddy_cases aligned).2
  have halves' := (buddy_cases (Nat.dvd_add near aligned)).2
  rw [size, Nat.mul_assoc] at hj hi hc
  -- Both blocks are the same half of their pair, since `base` is a whole number of pairs.
  have even (a b : Nat) : 2 * (2 ^ k * a) ≠ 2 * (2 ^ k * b) + 2 ^ k := by
    intro eq
    have : 2 ^ k * (2 * a) = 2 ^ k * (2 * b + 1) := by
      rw [Nat.mul_add, Nat.mul_one, Nat.mul_left_comm, Nat.mul_left_comm (2 ^ k) 2 b]
      exact eq
    have := Nat.eq_of_mul_eq_mul_left pos this
    omega
  have sum : 2 ^ k * (c + j) = 2 ^ k * c + 2 ^ k * j := Nat.mul_add ..
  have no := even (c + j) i
  have no' := even i (c + j)
  omega

theorem joined_eq {p k : Nat} (aligned : 2 ^ k ∣ p) :
    joined p k = p / 2 ^ (k + 1) * 2 ^ (k + 1) := by
  obtain ⟨⟨j, hj⟩, halves⟩ := buddy_cases aligned
  have div : p / 2 ^ (k + 1) = j := by
    rw [Nat.div_eq_iff (Nat.two_pow_pos _), Nat.mul_comm j, ← hj]
    omega
  rw [div, Nat.mul_comm, ← hj]

/-- Larger blocks around a block are those around the joined block. -/
theorem joined_div {p k j : Nat} (aligned : 2 ^ k ∣ p) (lt : k < j) :
    joined p k / 2 ^ j = p / 2 ^ j := by
  rw [joined_eq aligned]
  obtain ⟨d, rfl⟩ := Nat.exists_eq_add_of_lt lt
  have size : 2 ^ (k + d + 1) = 2 ^ (k + 1) * 2 ^ d := by
    rw [← Nat.pow_add]
    congr 1
    omega
  rw [size, ← Nat.div_div_eq_div_mul, ← Nat.div_div_eq_div_mul,
    Nat.mul_div_cancel _ (Nat.two_pow_pos _)]

theorem buddy_ne (p k : Nat) : buddy p k ≠ p := by
  intro same
  have : p ^^^ 2 ^ k = p ^^^ 0 := by rw [Nat.xor_zero]; exact same
  have := Nat.xor_right_injective this
  exact absurd this (Nat.two_pow_pos k).ne'

theorem buddy_buddy (p k : Nat) : buddy (buddy p k) k = p := by
  rw [buddy, buddy, Nat.xor_assoc, Nat.xor_self, Nat.xor_zero]

theorem joined_buddy (p k : Nat) : joined (buddy p k) k = joined p k := by
  rw [joined, buddy_buddy, Nat.and_comm, joined]

theorem buddy_aligned {p k : Nat} (aligned : 2 ^ k ∣ p) : 2 ^ k ∣ buddy p k := by
  obtain ⟨whole, halves⟩ := buddy_cases aligned
  have near : 2 ^ k ∣ joined p k := Nat.dvd_trans (Nat.pow_dvd_pow 2 (Nat.le_succ k)) whole
  rcases halves with ⟨_, second⟩ | ⟨_, first⟩
  · rw [second]
    exact Nat.dvd_add near (Nat.dvd_refl _)
  · rwa [first]

/-- Larger blocks around a block are those around its buddy. -/
theorem buddy_div {p k j : Nat} (aligned : 2 ^ k ∣ p) (lt : k < j) :
    buddy p k / 2 ^ j = p / 2 ^ j := by
  rw [← joined_div (buddy_aligned aligned) lt, joined_buddy, joined_div aligned lt]

namespace Blocks
variable {limit : Nat} {f : Nat → Prop} {m : Nat → Option Nat} {p q k l b : Nat}

section
variable (blocks : Blocks limit f m)
include blocks

theorem same (left : m p = some k) (right : m q = some l)
    (hp : p ≤ b) (hp' : b < p + 2 ^ k) (hq : q ≤ b) (hq' : b < q + 2 ^ l) : p = q ∧ k = l := by
  obtain rfl := blocks.disjoint left right hp hp' hq hq'
  rw [left] at right
  exact ⟨rfl, Option.some.inj right⟩

/-- No block starts in the middle of another one. -/
theorem none_inside (block : m p = some k) (low : p < b) (high : b < p + 2 ^ k) : m b = none := by
  by_contra some
  obtain ⟨l, there⟩ := Option.ne_none_iff_exists'.mp some
  have := blocks.disjoint block there (Nat.le_of_lt low) high (Nat.le_refl b)
    (Nat.lt_add_of_pos_right (Nat.two_pow_pos l))
  omega

theorem congr {g : Nat → Prop} (set : ∀ b, g b ↔ f b) : Blocks limit g m := by
  rwa [show g = f from funext fun b => propext (set b)]

/-- A block is taken out of the set. -/
theorem erase (block : m p = some k) :
    Blocks limit (fun b => ¬ (p ≤ b ∧ b < p + 2 ^ k) ∧ f b) (update m p none) := by
  have cases {q l : Nat} (there : update m p none q = some l) : q ≠ p ∧ m q = some l := by
    by_cases same : q = p
    · rw [same, update_self] at there
      cases there
    · rw [update_of_ne same] at there
      exact ⟨same, there⟩
  refine ⟨fun there => blocks.order (cases there).2, fun there => blocks.aligned (cases there).2,
    ?_, ?_, fun left right => blocks.disjoint (cases left).2 (cases right).2⟩
  · intro q l there b low high
    obtain ⟨ne, old⟩ := cases there
    exact ⟨fun ⟨hp, hp'⟩ => ne (blocks.disjoint old block low high hp hp'),
      blocks.inside old b low high⟩
  · rintro b ⟨out, hb⟩
    obtain ⟨q, l, there, low, high⟩ := blocks.covers hb
    have ne : q ≠ p := by
      rintro rfl
      rw [block] at there
      obtain rfl := Option.some.inj there
      exact out ⟨low, high⟩
    exact ⟨q, l, by rw [update_of_ne ne, there], low, high⟩

/-- A block is put into the set, where nothing was. -/
theorem insert (lt : k < limit) (aligned : 2 ^ k ∣ p) (out : ∀ b, p ≤ b → b < p + 2 ^ k → ¬ f b) :
    Blocks limit (fun b => p ≤ b ∧ b < p + 2 ^ k ∨ f b) (update m p (some k)) := by
  have cases {q l : Nat} (there : update m p (some k) q = some l) :
      q = p ∧ l = k ∨ m q = some l := by
    by_cases same : q = p
    · rw [same, update_self] at there
      exact .inl ⟨same, (Option.some.inj there).symm⟩
    · rw [update_of_ne same] at there
      exact .inr there
  refine ⟨?_, ?_, ?_, ?_, ?_⟩
  · intro q l there
    rcases cases there with ⟨rfl, rfl⟩ | old
    · exact lt
    · exact blocks.order old
  · intro q l there
    rcases cases there with ⟨rfl, rfl⟩ | old
    · exact aligned
    · exact blocks.aligned old
  · intro q l there b low high
    rcases cases there with ⟨rfl, rfl⟩ | old
    · exact .inl ⟨low, high⟩
    · exact .inr (blocks.inside old b low high)
  · rintro b (inside | hb)
    · exact ⟨p, k, update_self .., inside⟩
    obtain ⟨q, l, there, low, high⟩ := blocks.covers hb
    have start (n : Nat) : q < q + 2 ^ n := Nat.lt_add_of_pos_right (Nat.two_pow_pos n)
    have ne : q ≠ p := by
      rintro rfl
      exact out q le_rfl (start k) (blocks.inside there q le_rfl (start l))
    exact ⟨q, l, by rw [update_of_ne ne, there], low, high⟩
  · intro q r l j b left right hq hq' hr hr'
    rcases cases left with ⟨rfl, rfl⟩ | old <;> rcases cases right with ⟨rfl, rfl⟩ | old'
    · rfl
    · exact absurd (blocks.inside old' b hr hr') (out b hq hq')
    · exact absurd (blocks.inside old b hq hq') (out b hr hr')
    · exact blocks.disjoint old old' hq hq' hr hr'

theorem split (block : m p = some (k + 1)) :
    Blocks limit f (update (update m p (some k)) (p + 2 ^ k) (some k)) := by
  have lt := blocks.order block
  have aligned : 2 ^ k ∣ p :=
    Nat.dvd_trans (Nat.pow_dvd_pow 2 (Nat.le_succ k)) (blocks.aligned block)
  have first := (blocks.erase block).insert (k := k) (by omega) aligned
    fun b low high out => out.1 (by omega)
  rw [update_idem] at first
  have both := first.insert (k := k) (by omega) (Nat.dvd_add aligned (Nat.dvd_refl _))
    fun b low high out => by omega
  refine both.congr fun b => ?_
  have whole := blocks.inside block b
  by_cases hb : f b
  · simp only [hb, and_true, true_iff]
    omega
  · simp only [hb, imp_false, and_false, or_false, false_iff] at whole ⊢
    omega

/-- The two halves are replaced by the block that they make up. -/
theorem join (first : m p = some k) (second : m (p + 2 ^ k) = some k)
    (aligned : 2 ^ (k + 1) ∣ p) (lt : k + 1 < limit) :
    Blocks limit f (update (update m (p + 2 ^ k) none) p (some (k + 1))) := by
  have ne : p ≠ p + 2 ^ k := (Nat.lt_add_of_pos_right (Nat.two_pow_pos k)).ne
  have rest := (blocks.erase second).erase (p := p) (k := k) (by rw [update_of_ne ne, first])
  have whole := rest.insert (k := k + 1) lt aligned fun b low high out => by omega
  rw [update_idem] at whole
  refine whole.congr fun b => ?_
  have left := blocks.inside first b
  have right := blocks.inside second b
  by_cases hb : f b
  · simp only [hb, and_true, true_iff]
    omega
  · simp only [hb, imp_false, and_false, or_false, false_iff] at left right ⊢
    omega

end

end Blocks

end Linux318.Lib.BlockMap
