import Mathlib.Logic.Function.Basic
import Mathlib.Data.List.Range

/-!
The shifts of bitmaps, after `lib/bitmap.c` 111-185. The memory is an array of words, and `dst`
and `src` are places in it.
-/
namespace Linux318.Source.Kernel
open Function List

abbrev Words := Nat → BitVec 64

def bitsToLongs (bits : Nat) : Nat := (bits + 63) / 64

def lowMask (left : Nat) : BitVec 64 := (1#64 <<< left) - 1#64

def maskLast (bits k : Nat) (word : BitVec 64) : BitVec 64 :=
  if bits % 64 ≠ 0 ∧ k = bitsToLongs bits - 1 then word &&& lowMask (bits % 64) else word

/-- The word `k` of the result of `__bitmap_shift_right`. -/
def shiftRightWord (src shift bits : Nat) (mem : Words) (k : Nat) : BitVec 64 :=
  let off := shift / 64
  let rem := shift % 64
  let upper :=
    if rem = 0 ∨ bitsToLongs bits ≤ off + k + 1 then 0
    else maskLast bits (off + k + 1) (mem (src + (off + k + 1)))
  let lower := maskLast bits (off + k) (mem (src + (off + k)))
  maskLast bits k (if rem ≠ 0 then lower >>> rem ||| upper <<< (64 - rem) else lower >>> rem)

/-- The word `k + off` of the result of `__bitmap_shift_left`. -/
def shiftLeftWord (src shift bits : Nat) (mem : Words) (k : Nat) : BitVec 64 :=
  let off := shift / 64
  let rem := shift % 64
  let lower := if rem ≠ 0 ∧ 0 < k then mem (src + (k - 1)) else 0
  let upper := maskLast bits k (mem (src + k))
  maskLast bits (k + off)
    (if rem ≠ 0 then upper <<< rem ||| lower >>> (64 - rem) else upper <<< rem)

def storeAll (base : Nat) (word : Words → Nat → BitVec 64) (ks : List Nat) (mem : Words) : Words :=
  ks.foldl (fun mem k => update mem (base + k) (word mem k)) mem

def clearWords (base count : Nat) (mem : Words) : Words := fun a =>
  if base ≤ a ∧ a < base + count then 0 else mem a

def bitmapShiftRight (dst src shift bits : Nat) (mem : Words) : Words :=
  let lim := bitsToLongs bits
  let off := shift / 64
  clearWords (dst + (lim - off)) off
    (storeAll dst (shiftRightWord src shift bits) (range (lim - off)) mem)

/-- `__bitmap_shift_left`, from the last word down. -/
def bitmapShiftLeft (dst src shift bits : Nat) (mem : Words) : Words :=
  let off := shift / 64
  clearWords dst off (storeAll (dst + off) (shiftLeftWord src shift bits)
    (range (bitsToLongs bits - off)).reverse mem)

def bitAt (mem : Words) (base i : Nat) : Bool := (mem (base + i / 64)).getLsbD (i % 64)

/-- Each word is stored as computed from the first memory, if no write changes what a later
word is computed from. -/
theorem storeAll_spec (base : Nat) (word : Words → Nat → BitVec 64) (ks : List Nat) (mem : Words)
    (safe : ks.Pairwise fun k k' => k ≠ k' ∧
      ∀ mem v, word (update mem (base + k) v) k' = word mem k') :
    (∀ k ∈ ks, storeAll base word ks mem (base + k) = word mem k) ∧
      ∀ a, (∀ k ∈ ks, a ≠ base + k) → storeAll base word ks mem a = mem a := by
  induction ks generalizing mem with
  | nil => exact ⟨by simp, fun a _ => rfl⟩
  | cons k ks ih =>
    obtain ⟨first, safe⟩ := pairwise_cons.mp safe
    obtain ⟨stored, kept⟩ := ih (update mem (base + k) (word mem k)) safe
    refine ⟨forall_mem_cons.mpr ⟨?_, fun k' there => ?_⟩, fun a out => ?_⟩
    · refine (kept _ fun k' there => ?_).trans (update_self ..)
      have := (first k' there).1
      omega
    · exact (stored k' there).trans ((first k' there).2 mem _)
    · obtain ⟨ne, out⟩ := forall_mem_cons.mp out
      exact (kept a out).trans (update_of_ne ne ..)

theorem getLsbD_lowMask {left b : Nat} (small : left < 64) :
    (lowMask left).getLsbD b = decide (b < left) := by
  have lt : 2 ^ left < 2 ^ 64 := Nat.pow_lt_pow_right (by decide) small
  have pos := Nat.two_pow_pos left
  have value : (lowMask left).toNat = 2 ^ left - 1 := by
    simp only [lowMask, BitVec.toNat_sub, BitVec.toNat_shiftLeft, BitVec.toNat_ofNat]
    omega
  rw [BitVec.getLsbD, value, Nat.testBit_two_pow_sub_one]

section Bits
variable {src shift bits k b : Nat} {mem : Words}

theorem getLsbD_maskLast (word : BitVec 64) (inside : k < bitsToLongs bits) (lt : b < 64) :
    (maskLast bits k word).getLsbD b = (decide (64 * k + b < bits) && word.getLsbD b) := by
  unfold bitsToLongs at inside
  unfold maskLast bitsToLongs
  split
  · rw [BitVec.getLsbD_and, getLsbD_lowMask (by omega), Bool.and_comm]
    congr 2
    rw [eq_iff_iff]
    omega
  · rw [decide_eq_true (by omega), Bool.true_and]

theorem bitAt_word (base q : Nat) (lt : b < 64) :
    bitAt mem base (64 * q + b) = (mem (base + q)).getLsbD b := by
  rw [bitAt, show (64 * q + b) / 64 = q by omega, show (64 * q + b) % 64 = b by omega]

theorem shiftRightWord_bit (inside : shift / 64 + k < bitsToLongs bits) (lt : b < 64)
    (low : 64 * k + b < bits) : (shiftRightWord src shift bits mem k).getLsbD b =
      (decide (64 * k + b + shift < bits) && bitAt mem src (64 * k + b + shift)) := by
  rw [shiftRightWord, getLsbD_maskLast _ (by omega) lt, decide_eq_true low, Bool.true_and]
  by_cases within : shift % 64 + b < 64
  · -- The bit comes from the lower word.
    rw [show 64 * k + b + shift = 64 * (shift / 64 + k) + (shift % 64 + b) by omega,
      bitAt_word _ _ within, ← getLsbD_maskLast _ inside within]
    split
    · simp [show b < 64 - shift % 64 by omega]
    · rw [BitVec.getLsbD_ushiftRight]
  · rw [show 64 * k + b + shift = 64 * (shift / 64 + k + 1) + (b - (64 - shift % 64)) by omega,
      bitAt_word _ _ (by omega), if_pos (by omega), BitVec.getLsbD_or, BitVec.getLsbD_ushiftRight,
      BitVec.getLsbD_of_ge _ _ (by omega), Bool.false_or, BitVec.getLsbD_shiftLeft,
      decide_eq_true lt, decide_eq_false (show ¬ b < 64 - shift % 64 by omega)]
    split
    · rw [decide_eq_false (by unfold bitsToLongs at *; omega)]
      simp
    · simp [getLsbD_maskLast _ (show shift / 64 + k + 1 < bitsToLongs bits by omega)
        (show b - (64 - shift % 64) < 64 by omega)]

theorem shiftLeftWord_bit (inside : k + shift / 64 < bitsToLongs bits) (lt : b < 64)
    (low : 64 * (k + shift / 64) + b < bits) : (shiftLeftWord src shift bits mem k).getLsbD b =
      (decide (shift ≤ 64 * (k + shift / 64) + b) &&
        bitAt mem src (64 * (k + shift / 64) + b - shift)) := by
  rw [shiftLeftWord, getLsbD_maskLast _ inside lt, decide_eq_true low, Bool.true_and]
  by_cases within : shift % 64 ≤ b
  · -- The bit comes from the upper word.
    have upper := getLsbD_maskLast (mem (src + k)) (show k < bitsToLongs bits by omega)
      (show b - shift % 64 < 64 by omega)
    rw [decide_eq_true (by omega), Bool.true_and] at upper
    rw [show 64 * (k + shift / 64) + b - shift = 64 * k + (b - shift % 64) by omega,
      bitAt_word _ _ (by omega), decide_eq_true (by omega), Bool.true_and, ← upper]
    have high (word : BitVec 64) : word.getLsbD (64 - shift % 64 + b) = false :=
      BitVec.getLsbD_of_ge word _ (by omega)
    have shifted (word : BitVec 64) : (word <<< (shift % 64)).getLsbD b =
        word.getLsbD (b - shift % 64) := by
      rw [BitVec.getLsbD_shiftLeft, decide_eq_true lt, decide_eq_false (not_lt.mpr within)]
      rfl
    split
    · rw [BitVec.getLsbD_or, BitVec.getLsbD_ushiftRight, high, Bool.or_false, shifted]
    · exact shifted _
  · rw [if_pos (by omega), BitVec.getLsbD_or, BitVec.getLsbD_shiftLeft,
      decide_eq_true (show b < shift % 64 by omega), Bool.not_true, Bool.and_false, Bool.false_and,
      Bool.false_or, BitVec.getLsbD_ushiftRight]
    split
    · rw [decide_eq_true (by omega), show 64 * (k + shift / 64) + b - shift =
        64 * (k - 1) + (64 - shift % 64 + b) by omega, bitAt_word _ _ (by omega), Bool.true_and]
    · rw [decide_eq_false (by omega)]
      simp

end Bits

end Linux318.Source.Kernel
