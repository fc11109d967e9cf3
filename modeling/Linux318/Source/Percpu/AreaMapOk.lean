import Linux318.Source.Percpu.AreaMap
import Mathlib.Data.List.Chain

/-!
The areas that a map stands for: sizes and flags, from offset zero to the end of the
unit. Allocating and freeing are changes of this list at one place.
-/
namespace Linux318.Source.Percpu
open List

structure Area where
  size : Nat
  used : Bool

def total : List Area → Nat
  | [] => 0
  | a :: rest => a.size + total rest

def freeTotal : List Area → Nat
  | [] => 0
  | a :: rest => (if a.used then 0 else a.size) + freeTotal rest

def flag (used : Bool) : Int := if used then 1 else 0

def starts (off : Nat) : List Area → List Int
  | [] => []
  | a :: rest => (off + flag a.used) :: starts (off + a.size) rest

@[simp] theorem total_append (l l' : List Area) : total (l ++ l') = total l + total l' := by
  induction l with
  | nil => simp [total]
  | cons a l ih =>
    simp only [cons_append, total]
    omega

@[simp] theorem freeTotal_append (l l' : List Area) :
    freeTotal (l ++ l') = freeTotal l + freeTotal l' := by
  induction l with
  | nil => simp [freeTotal]
  | cons a l ih =>
    simp only [cons_append, freeTotal]
    omega

@[simp] theorem length_starts (off : Nat) (l : List Area) : (starts off l).length = l.length := by
  induction l generalizing off with
  | nil => rfl
  | cons a l ih => rw [starts, length_cons, length_cons, ih]

theorem starts_append (off : Nat) (l l' : List Area) :
    starts off (l ++ l') = starts off l ++ starts (off + total l) l' := by
  induction l generalizing off with
  | nil => rfl
  | cons a l ih =>
    rw [cons_append, starts, ih, starts, cons_append, total, Nat.add_assoc]

/-- The sizes are even, and no two free areas are neighbours. -/
structure AreasOk (unitSize : Nat) (areas : List Area) : Prop where
  sum : total areas = unitSize
  sizes {a : Area} : a ∈ areas → 0 < a.size ∧ 2 ∣ a.size
  apart : areas.IsChain fun a b => a.used = true ∨ b.used = true

structure ChunkOk (unitSize : Nat) (chunk : PcpuChunk) (areas : List Area) : Prop where
  map : chunk.map = starts 0 areas ++ [(unitSize : Int) + 1]
  cut : AreasOk unitSize areas
  free : chunk.freeSize = freeTotal areas
  hint {a : Area} : a ∈ areas → a.used = false → (a.size : Int) ≤ chunk.contigHint
  first {a : Area} : a ∈ areas.take chunk.firstFree → a.used = true

theorem flag_cases (used : Bool) : flag used = 0 ∧ used = false ∨ flag used = 1 ∧ used = true := by
  cases used
  · exact .inl ⟨rfl, rfl⟩
  · exact .inr ⟨rfl, rfl⟩

theorem inUse_eq {off : Nat} (even : 2 ∣ off) (used : Bool) : inUse (off + flag used) = used := by
  rw [inUse]
  rcases flag_cases used with ⟨eq, rfl⟩ | ⟨eq, rfl⟩
  · rw [decide_eq_false_iff_not]
    omega
  · rw [decide_eq_true_eq]
    omega

theorem offsetOf_eq {off : Nat} (even : 2 ∣ off) (used : Bool) :
    offsetOf (off + flag used) = off := by
  rw [offsetOf]
  rcases flag_cases used with ⟨eq, _⟩ | ⟨eq, _⟩ <;> rw [eq] <;> omega

theorem even_total {l : List Area} (sizes : ∀ a ∈ l, 2 ∣ a.size) : 2 ∣ total l := by
  induction l with
  | nil => exact ⟨0, rfl⟩
  | cons a l ih =>
    have head := sizes a mem_cons_self
    have tail := ih fun b mem => sizes b (mem_cons_of_mem a mem)
    rw [total]
    omega

section Read
variable {unitSize : Nat} {chunk : PcpuChunk} {pre post : List Area} {x : Area}

/-- The flag of the entry behind an area: that of the next one, or of the end marker. -/
def nextUsed : List Area → Bool
  | [] => true
  | a :: _ => a.used

theorem map_split (whole : total (pre ++ x :: post) = unitSize) :
    starts 0 (pre ++ x :: post) ++ [(unitSize : Int) + 1] =
      starts 0 pre ++ (total pre + flag x.used) :: (total pre + x.size + flag (nextUsed post)) ::
          (starts (total pre + x.size) post ++ [(unitSize : Int) + 1]).tail := by
  rw [total_append, total] at whole
  rw [starts_append, Nat.zero_add, starts, append_assoc, cons_append]
  cases post with
  | nil =>
    rw [total] at whole
    simp only [starts, nil_append, tail_cons, nextUsed, flag, if_pos]
    rw [show (unitSize : Int) = total pre + x.size by omega]
  | cons b post => simp only [starts, cons_append, tail_cons, nextUsed, Nat.cast_add]

theorem entry_nat (i : Nat) : entry chunk (i : Int) = chunk.map[i]? := by
  rw [entry, if_neg (by omega), Int.toNat_natCast]

theorem AreasOk.even (areas : AreasOk unitSize (pre ++ x :: post)) :
    2 ∣ total pre ∧ 2 ∣ x.size ∧ 0 < x.size ∧ total pre + x.size ≤ unitSize := by
  have whole := areas.sum
  rw [total_append, total] at whole
  have here := areas.sizes (mem_append_right pre mem_cons_self)
  refine ⟨even_total fun a mem => (areas.sizes (mem_append_left _ mem)).2, here.2, here.1, ?_⟩
  omega

section
variable (map : chunk.map = starts 0 (pre ++ x :: post) ++ [(unitSize : Int) + 1])
  (sum : total (pre ++ x :: post) = unitSize)
include map sum

theorem entry_here : entry chunk (pre.length : Int) = some (total pre + flag x.used) := by
  rw [entry_nat, map, map_split sum]
  simp

theorem entry_next :
    entry chunk ((pre.length : Int) + 1) = some (total pre + x.size + flag (nextUsed post)) := by
  rw [show (pre.length : Int) + 1 = (pre.length + 1 : Nat) from rfl, entry_nat, map, map_split sum]
  simp

end

theorem entry_prev {y : Area}
    (map : chunk.map = starts 0 (pre ++ y :: x :: post) ++ [(unitSize : Int) + 1])
    (sum : total (pre ++ y :: x :: post) = unitSize) :
    entry chunk (((pre ++ [y]).length : Int) - 1) = some (total pre + flag y.used) := by
  rw [length_append, length_singleton, Nat.cast_add, Nat.cast_one, Int.add_sub_cancel]
  exact entry_here map sum

theorem mapUsed_eq {areas : List Area} (map : chunk.map = starts 0 areas ++ [(unitSize : Int) + 1]) :
    mapUsed chunk = areas.length := by
  rw [mapUsed, map]
  simp

/-- The pages are counted without a read outside of the map. -/
theorem pcpuCountOccupiedPages_isSome {i : Nat} (lt : i < mapUsed chunk) :
    ∃ occ, pcpuCountOccupiedPages chunk i = some occ := by
  rw [mapUsed] at lt
  have read (k : Nat) (le : k ≤ chunk.map.length - 1) : ∃ y, entry chunk (k : Int) = some y := by
    exact ⟨_, List.getElem?_eq_getElem (by omega)⟩
  obtain ⟨off, here⟩ := read i (by omega)
  obtain ⟨fin, next⟩ := read (i + 1) (by omega)
  have next : entry chunk ((i : Int) + 1) = some fin := next
  rw [← Option.isSome_iff_exists]
  simp only [pcpuCountOccupiedPages, here, next, Option.bind_eq_bind, Option.bind_some,
    Option.pure_def]
  by_cases high : offsetOf fin % pageSize ≠ 0 ∧ i + 1 < mapUsed chunk
  · have bound := high.2
    rw [mapUsed] at bound
    obtain ⟨nend, after⟩ := read (i + 2) (by omega)
    have after : entry chunk ((i : Int) + 2) = some nend := after
    by_cases low : offsetOf off % pageSize ≠ 0 ∧ 0 < i
    · obtain ⟨prev, there⟩ := read (i - 1) (by omega)
      rw [show ((i - 1 : Nat) : Int) = (i : Int) - 1 by omega] at there
      simp only [if_pos low, if_pos high, there, after, Option.bind_some, Option.isSome_some]
    · simp only [if_neg low, if_pos high, after, Option.bind_some, Option.isSome_some]
  · by_cases low : offsetOf off % pageSize ≠ 0 ∧ 0 < i
    · obtain ⟨prev, there⟩ := read (i - 1) (by omega)
      rw [show ((i - 1 : Nat) : Int) = (i : Int) - 1 by omega] at there
      simp only [if_pos low, if_neg high, there, Option.bind_some, Option.isSome_some]
    · simp only [if_neg low, if_neg high, Option.isSome_some]

end Read

def UsedAt : List Area → Nat → Nat → Prop
  | [], _, _ => False
  | a :: rest, off, n =>
    (off = 0 ∧ a.used = true ∧ a.size = n) ∨ ∃ off', off = a.size + off' ∧ UsedAt rest off' n

theorem usedAt_append (l l' : List Area) (off n : Nat) :
    UsedAt (l ++ l') off n ↔ UsedAt l off n ∨ ∃ off', off = total l + off' ∧ UsedAt l' off' n := by
  induction l generalizing off with
  | nil => simp [UsedAt, total]
  | cons a l ih =>
    simp only [total]
    constructor
    · rintro (here | ⟨off', rfl, later⟩)
      · exact .inl (.inl here)
      rcases (ih off').mp later with left | ⟨off'', rfl, right⟩
      · exact .inl (.inr ⟨off', rfl, left⟩)
      · exact .inr ⟨off'', by omega, right⟩
    · rintro ((here | ⟨off', rfl, left⟩) | ⟨off'', rfl, right⟩)
      · exact .inl here
      · exact .inr ⟨off', rfl, (ih off').mpr (.inl left)⟩
      · exact .inr ⟨total l + off'', by omega, (ih _).mpr (.inr ⟨off'', rfl, right⟩)⟩

def UsedKept (areas areas' : List Area) : Prop :=
  ∀ off n, UsedAt areas off n → ∃ n', n ≤ n' ∧ UsedAt areas' off n'

theorem UsedKept.trans {l1 l2 l3 : List Area} (left : UsedKept l1 l2) (right : UsedKept l2 l3) :
    UsedKept l1 l3 := by
  intro off n used
  obtain ⟨n2, le2, used2⟩ := left off n used
  obtain ⟨n3, le3, used3⟩ := right off n2 used2
  exact ⟨n3, Nat.le_trans le2 le3, used3⟩

theorem usedKept_replace (pre mid post : List Area) (n : Nat) (same : total mid = n) :
    UsedKept (pre ++ ⟨n, false⟩ :: post) (pre ++ (mid ++ post)) := by
  intro off k used
  rw [usedAt_append] at used
  refine ⟨k, Nat.le_refl k, ?_⟩
  rw [usedAt_append]
  rcases used with left | ⟨off', rfl, right⟩
  · exact .inl left
  refine .inr ⟨off', rfl, ?_⟩
  rcases right with ⟨_, impossible, _⟩ | ⟨off'', rfl, later⟩
  · cases impossible
  · rw [usedAt_append, same]
    exact .inr ⟨off'', rfl, later⟩

section Change
variable {unitSize : Nat} {pre post : List Area}

section
variable {n : Nat} (areas : AreasOk unitSize (pre ++ ⟨n, false⟩ :: post))
include n areas

theorem AreasOk.neighbours :
    (∀ y ∈ pre.getLast?, y.used = true) ∧ ∀ y ∈ post.head?, y.used = true := by
  obtain ⟨_, chain, link⟩ := isChain_append.mp areas.apart
  constructor
  · intro y last
    exact (link y last _ rfl).resolve_right Bool.false_ne_true
  · intro y head
    exact ((isChain_cons.mp chain).1 y head).resolve_left Bool.false_ne_true

/-- A free area is replaced by areas of the same total. -/
theorem AreasOk.replace {mid : List Area} (same : total mid = n) (sizes : ∀ a ∈ mid, 0 < a.size ∧
    2 ∣ a.size) (apart : mid.IsChain fun a b => a.used = true ∨ b.used = true) :
    AreasOk unitSize (pre ++ (mid ++ post)) := by
  obtain ⟨before, behind⟩ := areas.neighbours
  obtain ⟨left, chain, _⟩ := isChain_append.mp areas.apart
  have right := (isChain_cons.mp chain).2
  refine ⟨?_, fun {a} mem => ?_, ?_⟩
  · have whole := areas.sum
    rw [total_append] at whole
    rw [total_append, total_append, same]
    exact whole
  · rcases mem_append.mp mem with there | mem
    · exact areas.sizes (mem_append_left _ there)
    rcases mem_append.mp mem with new | there
    · exact sizes a new
    · exact areas.sizes (mem_append_right _ (mem_cons_of_mem _ there))
  · refine left.append (apart.append right fun x _ y head => .inr (behind y head)) ?_
    exact fun x last y _ => .inl (before x last)

end

end Change

end Linux318.Source.Percpu
