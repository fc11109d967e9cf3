import Mathlib.Order.Interval.Finset.Nat
import Mathlib.Tactic.Ring

/-!
Buddy decompositions of a set of natural numbers. The tile of order `k` with index `i` is
the set of numbers whose quotient by `2 ^ k` is `i`. A set is cut into disjoint tiles of
orders up to `top`; with no two halves of one larger tile among them, the cut is unique.
-/
namespace Linux318.Lib.Buddy

variable {b k i top n a : Nat} {f p : Nat → Prop} {s : Tiling}

def Inside (f : Nat → Prop) (k i : Nat) : Prop := ∀ b, b / 2 ^ k = i → f b

abbrev Tiling := Nat → Nat → Prop

structure Tiles (top : Nat) (f : Nat → Prop) (s : Tiling) : Prop where
  order : ∀ {k i}, s k i → k ≤ top
  inside : ∀ {k i}, s k i → Inside f k i
  covers : ∀ {b}, f b → ∃ k, s k (b / 2 ^ k)
  disjoint : ∀ {k l b}, s k (b / 2 ^ k) → s l (b / 2 ^ l) → k = l

/-- No two halves of one tile. -/
def Reduced (top : Nat) (s : Tiling) : Prop := ∀ k < top, ∀ j, ¬ (s k (2 * j) ∧ s k (2 * j + 1))

/-- The tiles inside the set that no larger tile inside the set contains. -/
def Maximal (top : Nat) (f : Nat → Prop) : Tiling := fun k i =>
  k ≤ top ∧ Inside f k i ∧ (k < top → ¬ Inside f (k + 1) (i / 2))

theorem div_two_pow_succ (b k : Nat) : b / 2 ^ (k + 1) = b / 2 ^ k / 2 := by
  rw [Nat.pow_succ, Nat.div_div_eq_div_mul]

theorem div_two_pow_add (b k d : Nat) : b / 2 ^ (k + d) = b / 2 ^ k / 2 ^ d := by
  rw [Nat.pow_add, Nat.div_div_eq_div_mul]

theorem first_div (k i : Nat) : i * 2 ^ k / 2 ^ k = i :=
  Nat.mul_div_cancel i (Nat.two_pow_pos k)

theorem div_eq_iff_range : b / 2 ^ k = i ↔ i * 2 ^ k ≤ b ∧ b < (i + 1) * 2 ^ k := by
  have := Nat.two_pow_pos k
  rw [Nat.div_eq_iff this]
  have : (i + 1) * 2 ^ k = i * 2 ^ k + 2 ^ k := by ring
  omega

theorem Inside.first (h : Inside f k i) : f (i * 2 ^ k) :=
  h _ (first_div k i)

/-- A tile lies in the set when both halves do. -/
theorem inside_succ : Inside f (k + 1) i ↔ Inside f k (2 * i) ∧ Inside f k (2 * i + 1) := by
  constructor
  · intro h
    refine ⟨fun b hb => h b ?_, fun b hb => h b ?_⟩ <;> rw [div_two_pow_succ] <;> omega
  rintro ⟨left, right⟩ b hb
  rw [div_two_pow_succ] at hb
  rcases Nat.mod_two_eq_zero_or_one (b / 2 ^ k) with even | odd
  · exact left b (by omega)
  · exact right b (by omega)

theorem Inside.shrink (h : Inside f (k + 1) (b / 2 ^ (k + 1))) : Inside f k (b / 2 ^ k) := by
  rw [div_two_pow_succ, inside_succ] at h
  rcases Nat.mod_two_eq_zero_or_one (b / 2 ^ k) with even | odd
  · have : 2 * (b / 2 ^ k / 2) = b / 2 ^ k := by omega
    exact this ▸ h.1
  · have : 2 * (b / 2 ^ k / 2) + 1 = b / 2 ^ k := by omega
    exact this ▸ h.2

theorem Inside.shrink_le {l : Nat} (le : k ≤ l)
    (h : Inside f l (b / 2 ^ l)) : Inside f k (b / 2 ^ k) := by
  induction l, le using Nat.le_induction with
  | base => exact h
  | succ l _ ih => exact ih h.shrink

theorem half_eq (i k : Nat) : i / 2 = i * 2 ^ k / 2 ^ (k + 1) := by
  rw [div_two_pow_succ, first_div]

theorem Tiles.eq (tiles : Tiles top f s) {l j : Nat} (hi : s k i) (hj : s l j) (bi : b / 2 ^ k = i)
    (bj : b / 2 ^ l = j) : k = l ∧ i = j := by
  subst bi bj
  obtain rfl := tiles.disjoint hi hj
  exact ⟨rfl, rfl⟩

/-- In a reduced decomposition every tile inside the set lies in one of the tiles. -/
theorem Tiles.exists_above (tiles : Tiles top f s) (reduced : Reduced top s) (le : k ≤ top)
    (inside : Inside f k (b / 2 ^ k)) : ∃ l, k ≤ l ∧ s l (b / 2 ^ l) := by
  induction k generalizing b with
  | zero =>
    obtain ⟨l, hl⟩ := tiles.covers (inside b rfl)
    exact ⟨l, Nat.zero_le l, hl⟩
  | succ k ih =>
    rw [div_two_pow_succ] at inside
    obtain ⟨left, right⟩ := inside_succ.mp inside
    generalize hj : b / 2 ^ k / 2 = j at left right
    obtain ⟨l, hl, tile⟩ := ih (by omega) (b := 2 * j * 2 ^ k) (by rwa [first_div])
    obtain ⟨m, hm, tile'⟩ := ih (by omega) (by rwa [first_div])
    -- one of the halves lies in a larger tile, or both are tiles themselves
    have larger {n c : Nat} (lt : k < n) (tile : s n (c / 2 ^ n)) (hc : c / 2 ^ k / 2 = j) :
        ∃ l, k + 1 ≤ l ∧ s l (b / 2 ^ l) := by
      refine ⟨n, lt, ?_⟩
      have same : b / 2 ^ n = c / 2 ^ n := by
        obtain ⟨d, rfl⟩ := Nat.exists_eq_add_of_le lt
        rw [div_two_pow_add, div_two_pow_add, div_two_pow_succ, div_two_pow_succ, hj, hc]
      rwa [same]
    rcases Nat.lt_or_ge k l with lt | ge
    · exact larger lt tile (by rw [first_div]; omega)
    rcases Nat.lt_or_ge k m with lt | ge'
    · exact larger lt tile' (by rw [first_div]; omega)
    obtain rfl : l = k := by omega
    obtain rfl : m = l := by omega
    rw [first_div] at tile tile'
    exact absurd ⟨tile, tile'⟩ (reduced m (by omega) j)

/-- A reduced decomposition consists of the maximal tiles. -/
theorem Tiles.iff_maximal (tiles : Tiles top f s)
    (reduced : Reduced top s) (k i : Nat) : s k i ↔ Maximal top f k i := by
  constructor
  · intro tile
    refine ⟨tiles.order tile, tiles.inside tile, fun lt inside => ?_⟩
    rw [half_eq i k] at inside
    obtain ⟨l, le, above⟩ := tiles.exists_above reduced lt inside
    have := tiles.disjoint (by rwa [first_div]) above
    omega
  rintro ⟨le, inside, maximal⟩
  obtain ⟨l, le', above⟩ := tiles.exists_above reduced le (by rwa [first_div])
  rcases Nat.eq_or_lt_of_le le' with rfl | lt
  · rwa [first_div] at above
  refine absurd ?_ (maximal (by have := tiles.order above; omega))
  rw [half_eq i k]
  exact (tiles.inside above).shrink_le lt

/-- Every number of the set lies in a maximal tile. -/
theorem exists_maximal (top : Nat) (mem : f b) : ∃ k, Maximal top f k (b / 2 ^ k) := by
  have search (n : Nat) (le : n ≤ top) : Inside f n (b / 2 ^ n) →
      ∃ k, Maximal top f k (b / 2 ^ k) := by
    induction h : top - n generalizing n with
    | zero => exact fun inside => ⟨n, le, inside, fun lt => by omega⟩
    | succ d ih =>
      intro inside
      by_cases more : Inside f (n + 1) (b / 2 ^ (n + 1))
      · exact ih (n + 1) (by omega) (by omega) more
      · exact ⟨n, le, inside, fun _ => by rwa [← div_two_pow_succ]⟩
  exact search 0 (Nat.zero_le top) (by simpa [Inside] using mem)

theorem tiles_maximal (top : Nat) (f : Nat → Prop) : Tiles top f (Maximal top f) where
  order h := h.1
  inside h := h.2.1
  covers := exists_maximal top
  disjoint := by
    have wlog {k l b : Nat} (lt : k < l) (hk : Maximal top f k (b / 2 ^ k))
        (hl : Maximal top f l (b / 2 ^ l)) : False := by
      refine hk.2.2 (by have := hl.1; omega) ?_
      rw [← div_two_pow_succ]
      exact hl.2.1.shrink_le lt
    intro k l b hk hl
    rcases Nat.lt_trichotomy k l with lt | eq | gt
    · exact (wlog lt hk hl).elim
    · exact eq
    · exact (wlog gt hl hk).elim

theorem reduced_maximal (top : Nat) (f : Nat → Prop) : Reduced top (Maximal top f) := by
  rintro k lt j ⟨left, right⟩
  refine left.2.2 lt ?_
  rw [show 2 * j / 2 = j by omega]
  exact inside_succ.mpr ⟨left.2.1, right.2.1⟩

def withTile (s : Tiling) (k i : Nat) : Tiling := fun l j => l = k ∧ j = i ∨ s l j

def withoutTile (s : Tiling) (k i : Nat) : Tiling := fun l j => ¬ (l = k ∧ j = i) ∧ s l j

def withTiles (s : Tiling) (k : Nat) (p : Nat → Prop) : Tiling := fun l j => l = k ∧ p j ∨ s l j

theorem Tiles.withTiles (tiles : Tiles top f s) (le : k ≤ top) (out : ∀ b, p (b / 2 ^ k) → ¬ f b) :
    Tiles top (fun b => p (b / 2 ^ k) ∨ f b) (Buddy.withTiles s k p) where
  order := by
    rintro l j (⟨rfl, _⟩ | tile)
    · exact le
    · exact tiles.order tile
  inside := by
    rintro l j (⟨rfl, new⟩ | tile) b hb
    · exact .inl (by rwa [hb])
    · exact .inr (tiles.inside tile b hb)
  covers := by
    rintro b (hb | hb)
    · exact ⟨k, .inl ⟨rfl, hb⟩⟩
    · obtain ⟨l, tile⟩ := tiles.covers hb
      exact ⟨l, .inr tile⟩
  disjoint := by
    rintro l m b (⟨rfl, hb⟩ | tile) (⟨rfl, hb'⟩ | tile')
    · rfl
    · exact absurd (tiles.inside tile' b rfl) (out b hb)
    · exact absurd (tiles.inside tile b rfl) (out b hb')
    · exact tiles.disjoint tile tile'

theorem Tiles.withTile (tiles : Tiles top f s) (le : k ≤ top) (out : ∀ b, b / 2 ^ k = i → ¬ f b) :
    Tiles top (fun b => b / 2 ^ k = i ∨ f b) (Buddy.withTile s k i) :=
  tiles.withTiles (p := fun j => j = i) le out

theorem Tiles.withoutTile (tiles : Tiles top f s) (tile : s k i) :
    Tiles top (fun b => b / 2 ^ k ≠ i ∧ f b) (Buddy.withoutTile s k i) where
  order h := tiles.order h.2
  inside := by
    rintro l j ⟨ne, tile'⟩ b hb
    refine ⟨fun hb' => ne ?_, tiles.inside tile' b hb⟩
    exact (tiles.eq tile' tile hb hb')
  covers := by
    rintro b ⟨out, hb⟩
    obtain ⟨l, tile'⟩ := tiles.covers hb
    refine ⟨l, fun same => out ?_, tile'⟩
    rw [← same.1]
    exact same.2
  disjoint h h' := tiles.disjoint h.2 h'.2

theorem Tiles.congr {g : Nat → Prop} {t : Tiling} (tiles : Tiles top f s)
    (set : ∀ b, g b ↔ f b) (same : ∀ k i, t k i ↔ s k i) : Tiles top g t where
  order h := tiles.order ((same _ _).mp h)
  inside h b hb := (set b).mpr (tiles.inside ((same _ _).mp h) b hb)
  covers hb := by
    obtain ⟨k, tile⟩ := tiles.covers ((set _).mp hb)
    exact ⟨k, (same _ _).mpr tile⟩
  disjoint h h' := tiles.disjoint ((same _ _).mp h) ((same _ _).mp h')

theorem Tiles.split (tiles : Tiles top f s) (tile : s (k + 1) i) : Tiles top f
      (Buddy.withTile (Buddy.withTile (Buddy.withoutTile s (k + 1) i) k (2 * i)) k (2 * i + 1)) := by
  have le := tiles.order tile
  have halves (b : Nat) : b / 2 ^ (k + 1) = i ↔ b / 2 ^ k = 2 * i ∨ b / 2 ^ k = 2 * i + 1 := by
    rw [div_two_pow_succ]
    omega
  have left := (tiles.withoutTile tile).withTile (by omega)
    (fun b hb out => out.1 ((halves b).mpr (.inl hb)))
  have both := left.withTile (k := k) (i := 2 * i + 1) (by omega) (fun b hb out => by
    rcases out with out | out
    · omega
    · exact out.1 ((halves b).mpr (.inr hb)))
  refine both.congr (fun b => ?_) fun _ _ => Iff.rfl
  have whole : b / 2 ^ (k + 1) = i → f b := tiles.inside tile b
  have := halves b
  tauto

/-- A number whose neighbour in the pair is missing is a tile of its own. -/
theorem Tiles.single (tiles : Tiles top f s) {c : Nat}
    (pair : c / 2 = b / 2) (mem : f b) (missing : ¬ f c) : s 0 b := by
  obtain ⟨k, tile⟩ := tiles.covers mem
  cases k with
  | zero => rwa [Nat.pow_zero, Nat.div_one] at tile
  | succ k =>
    refine absurd (tiles.inside tile c ?_) missing
    rw [Nat.pow_succ, Nat.mul_comm, ← Nat.div_div_eq_div_mul, pair, Nat.div_div_eq_div_mul]

open Classical in
noncomputable def count (n : Nat) (p : Nat → Prop) : Nat := ((Finset.range n).filter p).card

theorem count_congr {q : Nat → Prop} (same : ∀ i < n, p i ↔ q i) : count n p = count n q := by
  classical
  unfold count
  congr 1
  apply Finset.filter_congr
  intro i mem
  exact same i (Finset.mem_range.mp mem)

theorem count_false (n : Nat) : count n (fun _ => False) = 0 := by
  simp [count]

/-- A range of numbers that do not have the property is added. -/
theorem count_union {m : Nat} (le : a + m ≤ n) (fresh : ∀ i, a ≤ i → i < a + m → ¬ p i) :
    count n (fun i => (a ≤ i ∧ i < a + m) ∨ p i) = count n p + m := by
  classical
  unfold count
  have split : (Finset.range n).filter (fun i => (a ≤ i ∧ i < a + m) ∨ p i) =
      Finset.Ico a (a + m) ∪ (Finset.range n).filter p := by
    ext i
    simp only [Finset.mem_filter, Finset.mem_range, Finset.mem_union, Finset.mem_Ico]
    constructor
    · rintro ⟨lt, inRange | prop⟩
      · exact .inl inRange
      · exact .inr ⟨lt, prop⟩
    · rintro (inRange | ⟨lt, prop⟩)
      · exact ⟨by omega, .inl inRange⟩
      · exact ⟨lt, .inr prop⟩
  have apart : Disjoint (Finset.Ico a (a + m)) ((Finset.range n).filter p) := by
    rw [Finset.disjoint_left]
    intro i inRange inFilter
    rw [Finset.mem_Ico] at inRange
    exact fresh i inRange.1 inRange.2 (Finset.mem_filter.mp inFilter).2
  have card := Finset.card_union_of_disjoint apart
  rw [Nat.card_Ico, ← split] at card
  convert card using 1
  · congr
  · rw [Nat.add_sub_cancel_left, Nat.add_comm]

theorem count_insert (lt : a < n) (fresh : ¬ p a) :
    count n (fun i => i = a ∨ p i) = count n p + 1 := by
  rw [← count_union (a := a) (by omega)]
  · refine count_congr fun i _ => ?_
    have : a ≤ i ∧ i < a + 1 ↔ i = a := by omega
    rw [this]
  · intro i low high
    obtain rfl : i = a := by omega
    exact fresh

theorem count_erase (lt : a < n) (mem : p a) : count n (fun i => i ≠ a ∧ p i) + 1 = count n p := by
  rw [← count_insert lt (by simp)]
  refine count_congr fun i _ => ?_
  by_cases same : i = a
  · simp [same, mem]
  · simp [same]

end Linux318.Lib.Buddy
