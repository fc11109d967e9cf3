import Linux318.Source.Kernel.Bitmap

/-!
# Shifts of bitmaps

Source: lib/bitmap.c. The bits that the shifts of bitmaps leave. No word is read after it was
written.
-/
namespace Linux318.Guarantees
open Function List Source.Kernel

/-- Both shifts, for all sizes, between bitmaps that are apart and within one bitmap. -/
theorem bitmapShift_bit (dst src shift bits : Nat) (mem : Words) (le : shift ≤ bits)
    (apart : dst = src ∨ dst + bitsToLongs bits ≤ src ∨ src + bitsToLongs bits ≤ dst)
    (i : Nat) (lt : i < bits) : bitAt (bitmapShiftRight dst src shift bits mem) dst i =
        (decide (i + shift < bits) && bitAt mem src (i + shift)) ∧
      bitAt (bitmapShiftLeft dst src shift bits mem) dst i =
        (decide (shift ≤ i) && bitAt mem src (i - shift)) := by
  have lim : i / 64 < bitsToLongs bits ∧ bits ≤ 64 * bitsToLongs bits := by
    unfold bitsToLongs
    omega
  have within := Nat.mod_lt i (show 0 < 64 by decide)
  constructor
  · obtain ⟨stored, -⟩ := storeAll_spec dst (shiftRightWord src shift bits)
      (range (bitsToLongs bits - shift / 64)) mem <| by
        -- A word is computed from words that are not below it.
        refine pairwise_lt_range.imp_of_mem fun {k k'} _ mem' lt => ⟨by omega, fun mem v => ?_⟩
        rw [mem_range] at mem'
        simp only [shiftRightWord]
        rw [update_of_ne (by omega)]
        by_cases last : shift % 64 = 0 ∨ bitsToLongs bits ≤ shift / 64 + k' + 1
        · rw [if_pos last, if_pos last]
        · rw [if_neg last, if_neg last, update_of_ne (by omega)]
    rw [bitAt, bitmapShiftRight, clearWords]
    split
    · rw [decide_eq_false (by omega)]
      simp
    · rw [stored (i / 64) (mem_range.mpr (by omega)),
        shiftRightWord_bit (by omega) within (by omega), Nat.div_add_mod]
  · obtain ⟨stored, -⟩ := storeAll_spec (dst + shift / 64) (shiftLeftWord src shift bits)
      (range (bitsToLongs bits - shift / 64)).reverse mem <| by
        -- A word is computed from words that are not above it.
        refine (pairwise_reverse.mpr pairwise_lt_range).imp_of_mem fun {k k'} mem' _ lt =>
          ⟨by omega, fun mem v => ?_⟩
        rw [mem_reverse, mem_range] at mem'
        simp only [shiftLeftWord]
        rw [update_of_ne (by omega), update_of_ne (by omega)]
    rw [bitAt, bitmapShiftLeft, clearWords]
    split
    · rw [decide_eq_false (by omega)]
      simp
    · have back : i / 64 - shift / 64 + shift / 64 = i / 64 := by omega
      have here := stored (i / 64 - shift / 64) (mem_reverse.mpr (mem_range.mpr (by omega)))
      rw [show dst + shift / 64 + (i / 64 - shift / 64) = dst + i / 64 by omega] at here
      rw [here, shiftLeftWord_bit (by omega) within (by omega), back, Nat.div_add_mod]

/-- Seventy bits shifted in place by one word and a bit. -/
theorem bitmapShift_bit_seventy : bitAt (bitmapShiftRight 0 0 65 70 fun _ => 3) 0 0 =
        (decide (0 + 65 < 70) && bitAt (fun _ => 3) 0 (0 + 65)) ∧
      bitAt (bitmapShiftLeft 0 0 65 70 fun _ => 3) 0 0 =
        (decide (65 ≤ 0) && bitAt (fun _ => 3) 0 (0 - 65)) :=
  bitmapShift_bit 0 0 65 70 (fun _ => 3) (by decide) (.inl rfl) 0 (by decide)

end Linux318.Guarantees
