import Mathlib.Data.List.Basic

/-!
Byte memory as a function from addresses. Multi-byte values are little-endian.
-/
namespace Linux318.Lib.Bytes
open List

def write (mem : Nat → UInt8) (pos : Nat) (bytes : List UInt8) : Nat → UInt8 :=
  fun i => if pos ≤ i then (bytes[i - pos]?).getD (mem i) else mem i

def read (mem : Nat → UInt8) (pos n : Nat) : List UInt8 := (List.range n).map fun i => mem (pos + i)

def bytes16 (x : Nat) : List UInt8 := [UInt8.ofNat x, UInt8.ofNat (x / 256)]

def get16 (mem : Nat → UInt8) (pos : Nat) : Nat := (mem pos).toNat + 256 * (mem (pos + 1)).toNat

def put16 (mem : Nat → UInt8) (pos x : Nat) : Nat → UInt8 := write mem pos (bytes16 x)

/-- Two memories that differ only in a range of addresses. -/
def SameOutside (lo hi : Nat) (mem mem' : Nat → UInt8) : Prop :=
  ∀ i, i < lo ∨ hi ≤ i → mem' i = mem i

variable {mem mem' : Nat → UInt8} {pos n x : Nat} {bytes : List UInt8}

variable {pos' i : Nat}

/-- A store changes only its range. -/
theorem write_outside (bytes : List UInt8) (out : i < pos ∨ pos + bytes.length ≤ i) :
    write mem pos bytes i = mem i := by
  unfold write
  split_ifs with le
  · rw [List.getElem?_eq_none (by omega), Option.getD_none]
  · rfl

theorem write_inside (mem : Nat → UInt8) (pos : Nat) {k : Nat} (lt : k < bytes.length) :
    write mem pos bytes (pos + k) = bytes[k] := by
  unfold write
  rw [if_pos (Nat.le_add_right pos k), Nat.add_sub_cancel_left, List.getElem?_eq_getElem lt,
    Option.getD_some]

@[simp] theorem length_read (mem : Nat → UInt8) (pos n : Nat) : (read mem pos n).length = n := by
  simp [read]

theorem read_congr (same : ∀ i, pos ≤ i → i < pos + n → mem' i = mem i) :
    read mem' pos n = read mem pos n := by
  apply map_congr_left
  intro i mem
  rw [mem_range] at mem
  exact same _ (by omega) (by omega)

theorem get16_congr (first : mem' pos = mem pos) (second : mem' (pos + 1) = mem (pos + 1)) :
    get16 mem' pos = get16 mem pos := by
  rw [get16, get16, first, second]

/-- What was stored is read back. -/
theorem read_write (mem : Nat → UInt8) (pos : Nat) (bytes : List UInt8) :
    read (write mem pos bytes) pos bytes.length = bytes := by
  apply ext_getElem
  · rw [length_read]
  intro i lt lt'
  simp only [read, getElem_map, getElem_range]
  exact write_inside mem pos lt'

/-- A store elsewhere is not read. -/
theorem read_write_outside (bytes : List UInt8) {n : Nat}
    (out : pos' + n ≤ pos ∨ pos + bytes.length ≤ pos') :
    read (write mem pos bytes) pos' n = read mem pos' n :=
  read_congr fun _ low high => write_outside bytes (by omega)

theorem get16_write_outside (bytes : List UInt8)
    (out : pos' + 2 ≤ pos ∨ pos + bytes.length ≤ pos') :
    get16 (write mem pos bytes) pos' = get16 mem pos' :=
  get16_congr (write_outside bytes (by omega)) (write_outside bytes (by omega))

theorem put16_outside (x : Nat) (out : i < pos ∨ pos + 2 ≤ i) : put16 mem pos x i = mem i :=
    write_outside (bytes16 x) out

theorem read_put16_outside (x : Nat) {n : Nat} (out : pos' + n ≤ pos ∨ pos + 2 ≤ pos') :
    read (put16 mem pos x) pos' n = read mem pos' n := read_write_outside (bytes16 x) out

theorem get16_put16_outside (x : Nat) (out : pos' + 2 ≤ pos ∨ pos + 2 ≤ pos') :
    get16 (put16 mem pos x) pos' = get16 mem pos' := get16_write_outside (bytes16 x) out

/-- Adjacent ranges are read as one. -/
theorem read_append (mem : Nat → UInt8) (pos m n : Nat) :
    read mem pos (m + n) = read mem pos m ++ read mem (pos + m) n := by
  simp [read, range_add, Nat.add_assoc]

/-- What fits in two bytes is read back. -/
theorem get16_put16 (mem : Nat → UInt8) (pos x : Nat) : get16 (put16 mem pos x) pos = x % 65536 := by
  have first : put16 mem pos x (pos + 0) = UInt8.ofNat x := write_inside mem pos (by simp [bytes16])
  have second : put16 mem pos x (pos + 1) = UInt8.ofNat (x / 256) :=
    write_inside mem pos (by simp [bytes16])
  rw [Nat.add_zero] at first
  rw [get16, first, second]
  simp only [UInt8.toNat_ofNat']
  omega

namespace SameOutside
variable {lo hi lo' hi' : Nat} {mem1 mem2 mem3 : Nat → UInt8}

theorem refl (lo hi : Nat) (mem : Nat → UInt8) : SameOutside lo hi mem mem := fun _ _ => rfl

theorem write (same : SameOutside lo hi mem1 mem2) {pos : Nat} {bytes : List UInt8} (low : lo ≤ pos)
    (high : pos + bytes.length ≤ hi) : SameOutside lo hi mem1 (Bytes.write mem2 pos bytes) := by
  intro i out
  rw [write_outside bytes (by omega)]
  exact same i out

theorem put16 (same : SameOutside lo hi mem1 mem2) {pos : Nat} (x : Nat) (low : lo ≤ pos)
    (high : pos + 2 ≤ hi) : SameOutside lo hi mem1 (Bytes.put16 mem2 pos x) :=
  same.write low high

theorem get16_eq (same : SameOutside lo hi mem1 mem2) {pos : Nat}
    (out : pos + 2 ≤ lo ∨ hi ≤ pos) : get16 mem2 pos = get16 mem1 pos :=
  get16_congr (same _ (by omega)) (same _ (by omega))

end SameOutside

end Linux318.Lib.Bytes
