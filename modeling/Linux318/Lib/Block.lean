import Mathlib.Algebra.Ring.Nat
import Mathlib.Data.List.Pairwise
import Mathlib.Data.List.Basic

/-!
Lists of tagged half-open ranges of numbers. In order, such a list is a finite map from numbers to
tags. `fill` covers a window and keeps what is there, `merge` joins ranges that touch, and
`below`, `inside` and `above` cut a list at the ends of a window.
-/
namespace Linux318.Lib
open List

variable {point : Nat}

/-- The numbers from `base` on, `size` of them, with one tag. -/
structure Block (τ : Type) where
  base : Nat
  size : Nat
  tag : τ
  deriving DecidableEq, Repr

namespace Block

variable {τ : Type} {blocks : List (Block τ)}

/-- The first number behind a range. -/
def top (b : Block τ) : Nat := b.base + b.size

/-- Some range of the list gives the tag to the number. -/
def At (blocks : List (Block τ)) (point : Nat) (tag : τ) : Prop :=
  ∃ b ∈ blocks, b.base ≤ point ∧ point < b.top ∧ b.tag = tag

def InOrder (blocks : List (Block τ)) : Prop := blocks.Pairwise fun a b => a.top ≤ b.base

/-- The first range lies before the second, and does not touch it if the tags agree. -/
def Apart (a b : Block τ) : Prop := a.top ≤ b.base ∧ (a.tag = b.tag → a.top < b.base)

theorem at_cons {b : Block τ} {rest : List (Block τ)} {tag : τ} :
    At (b :: rest) point tag ↔ (b.base ≤ point ∧ point < b.top ∧ b.tag = tag) ∨
      At rest point tag := by
  simp [At]

theorem at_append {front back : List (Block τ)} {tag : τ} :
    At (front ++ back) point tag ↔ At front point tag ∨ At back point tag := by
  simp [At, or_and_right, exists_or]

theorem inOrder_of_apart (apart : blocks.Pairwise Apart) : InOrder blocks :=
  apart.imp fun h => h.1

def piece (lo hi : Nat) (tag : τ) : List (Block τ) :=
  if lo < hi then [⟨lo, hi - lo, tag⟩] else []

/-- The list with the uncovered parts of the window from `lo` to `hi` put in. -/
def fill (hi : Nat) (tag : τ) : Nat → List (Block τ) → List (Block τ)
  | lo, [] => piece lo hi tag
  | lo, r :: rest =>
    if hi ≤ r.base then piece lo hi tag ++ r :: rest
    else if r.top ≤ lo then r :: fill hi tag lo rest
    else piece lo r.base tag ++ r :: fill hi tag (min r.top hi) rest

def gaps (hi : Nat) : Nat → List (Block τ) → Nat
  | lo, [] => if lo < hi then 1 else 0
  | lo, r :: rest =>
    if hi ≤ r.base then if lo < hi then 1 else 0
    else if r.top ≤ lo then gaps hi lo rest
    else (if lo < r.base then 1 else 0) + gaps hi (min r.top hi) rest

theorem at_piece {lo hi : Nat} {tag t : τ} :
    At (piece lo hi tag) point t ↔ lo ≤ point ∧ point < hi ∧ tag = t := by
  unfold piece
  split_ifs with nonempty
  · simp only [At, mem_singleton, exists_eq_left, top]
    have sum : lo + (hi - lo) = hi := by omega
    rw [sum]
  · simp only [At, not_mem_nil, false_and, exists_false, false_iff]
    omega

theorem length_piece (lo hi : Nat) (tag : τ) :
    (piece lo hi tag).length = if lo < hi then 1 else 0 := by
  unfold piece
  split_ifs <;> rfl

theorem mem_piece {lo hi : Nat} {tag : τ} {b : Block τ} (mem : b ∈ piece lo hi tag) :
    b.base = lo ∧ b.top = hi ∧ 0 < b.size ∧ b.tag = tag := by
  unfold piece at mem
  split_ifs at mem with nonempty
  · obtain rfl := mem_singleton.mp mem
    refine ⟨rfl, ?_, ?_, rfl⟩
    · show lo + (hi - lo) = hi
      omega
    · show 0 < hi - lo
      omega
  · simp at mem

theorem gaps_le (hi lo : Nat) (blocks : List (Block τ)) : gaps hi lo blocks ≤ blocks.length + 1 := by
  induction blocks generalizing lo with
  | nil =>
    rw [gaps]
    split_ifs <;> simp
  | cons r rest ih =>
    have skip := ih lo
    have next := ih (min r.top hi)
    rw [gaps, length_cons]
    split_ifs <;> omega

theorem length_fill (hi : Nat) (tag : τ) (lo : Nat) (blocks : List (Block τ)) :
    (fill hi tag lo blocks).length = blocks.length + gaps hi lo blocks := by
  induction blocks generalizing lo with
  | nil => rw [fill, gaps, length_piece, length_nil, Nat.zero_add]
  | cons r rest ih =>
    rw [fill, gaps]
    by_cases beyond : hi ≤ r.base
    · rw [if_pos beyond, if_pos beyond, length_append, length_piece]
      omega
    rw [if_neg beyond, if_neg beyond]
    by_cases before : r.top ≤ lo
    · rw [if_pos before, if_pos before, length_cons, ih, length_cons]
      omega
    rw [if_neg before, if_neg before, length_append, length_piece, length_cons, ih, length_cons]
    omega

/-- A range of the result is an old one, or lies in the window. -/
theorem mem_fill {hi lo : Nat} {tag : τ} {b : Block τ} (mem : b ∈ fill hi tag lo blocks) :
    b ∈ blocks ∨ (lo ≤ b.base ∧ b.top ≤ hi ∧ 0 < b.size ∧ b.tag = tag) := by
  induction blocks generalizing lo with
  | nil =>
    obtain ⟨rfl, rfl, pos, same⟩ := mem_piece mem
    exact .inr ⟨Nat.le_refl _, Nat.le_refl _, pos, same⟩
  | cons r rest ih =>
    rw [fill] at mem
    split_ifs at mem with beyond before
    · rcases mem_append.mp mem with new | old
      · obtain ⟨rfl, rfl, pos, same⟩ := mem_piece new
        exact .inr ⟨Nat.le_refl _, Nat.le_refl _, pos, same⟩
      · exact .inl old
    · rcases mem_cons.mp mem with rfl | inRest
      · exact .inl mem_cons_self
      · exact (ih inRest).imp (mem_cons_of_mem _) id
    rcases mem_append.mp mem with new | mem
    · obtain ⟨rfl, same, pos, tagged⟩ := mem_piece new
      exact .inr ⟨Nat.le_refl _, by omega, pos, tagged⟩
    rcases mem_cons.mp mem with rfl | inRest
    · exact .inl mem_cons_self
    refine (ih inRest).imp (mem_cons_of_mem _) fun h => ⟨?_, h.2⟩
    obtain ⟨low, high, pos, _⟩ := h
    simp only [top] at low high before
    omega

theorem inOrder_fill (hi lo : Nat) (tag : τ) (order : InOrder blocks) :
    InOrder (fill hi tag lo blocks) := by
  have ordered_piece (lo hi : Nat) : InOrder (piece lo hi tag) := by
    unfold piece
    split_ifs
    · exact pairwise_singleton _ _
    · exact .nil
  induction blocks generalizing lo with
  | nil => exact ordered_piece lo hi
  | cons r rest ih =>
    obtain ⟨behind, order'⟩ := pairwise_cons.mp order
    rw [fill]
    split_ifs with beyond before
    · refine pairwise_append.mpr ⟨ordered_piece lo hi, order, fun a new b old => ?_⟩
      obtain ⟨_, stop, _⟩ := mem_piece new
      rcases mem_cons.mp old with rfl | inRest
      · omega
      have start := behind b inRest
      simp only [top] at start
      omega
    · refine pairwise_cons.mpr ⟨fun b mem => ?_, ih lo order'⟩
      rcases mem_fill mem with old | ⟨start, _⟩
      · exact behind b old
      · omega
    refine pairwise_append.mpr ⟨ordered_piece lo r.base,
      pairwise_cons.mpr ⟨fun b mem => ?_, ih _ order'⟩, fun a new b old => ?_⟩
    · rcases mem_fill mem with old | ⟨start, stop, pos, _⟩
      · exact behind b old
      · simp only [top] at start stop ⊢
        omega
    obtain ⟨_, stop, _⟩ := mem_piece new
    rcases mem_cons.mp old with rfl | inRest
    · omega
    rcases mem_fill inRest with old | ⟨start, stop', pos, _⟩
    · have start := behind b old
      simp only [top] at start
      omega
    · simp only [top] at start stop stop' ⊢
      omega

/-- The window is covered: numbers that had a tag keep it, the others get the new one. -/
theorem at_fill {hi lo : Nat} {tag : τ} (order : InOrder blocks) (point : Nat) (t : τ) :
    At (fill hi tag lo blocks) point t ↔ At blocks point t ∨
      (lo ≤ point ∧ point < hi ∧ tag = t ∧ ∀ s, ¬At blocks point s) := by
  induction blocks generalizing lo with
  | nil =>
    rw [fill, at_piece]
    simp [At]
  | cons r rest ih =>
    obtain ⟨behind, order'⟩ := pairwise_cons.mp order
    have rest_above {s : τ} (inRest : At rest point s) : r.top ≤ point := by
      obtain ⟨b, mem, low, _⟩ := inRest
      have start := behind b mem
      omega
    have absent : (∀ s, ¬At (r :: rest) point s) ↔
        ¬(r.base ≤ point ∧ point < r.top) ∧ ∀ s, ¬At rest point s := by
      simp only [at_cons, not_or, forall_and]
      refine and_congr_left fun _ => ⟨fun no inside => no r.tag ⟨inside.1, inside.2, rfl⟩,
        fun no s inside => no ⟨inside.1, inside.2.1⟩⟩
    rw [fill, absent]
    split_ifs with beyond before
    · rw [at_append, at_piece, or_comm]
      refine or_congr_right ⟨fun ⟨low, high, same⟩ => ⟨low, high, same, by omega, fun s inRest => ?_⟩,
        fun ⟨low, high, same, _⟩ => ⟨low, high, same⟩⟩
      have above := rest_above inRest
      simp only [top] at above
      omega
    · rw [at_cons, at_cons, ih order', or_assoc]
      refine or_congr_right (or_congr_right ?_)
      constructor
      · rintro ⟨low, high, same, no⟩
        exact ⟨low, high, same, by omega, no⟩
      · rintro ⟨low, high, same, _, no⟩
        exact ⟨low, high, same, no⟩
    rw [at_append, at_piece, at_cons, at_cons, ih order']
    constructor
    · rintro (⟨low, high, same⟩ | here | inRest | ⟨low, high, same, no⟩)
      · refine .inr ⟨low, by omega, same, by omega, fun s inRest => ?_⟩
        have above := rest_above inRest
        simp only [top] at above
        omega
      · exact .inl (.inl here)
      · exact .inl (.inr inRest)
      · exact .inr ⟨by omega, high, same, by omega, no⟩
    · rintro ((here | inRest) | ⟨low, high, same, out, no⟩)
      · exact .inr (.inl here)
      · exact .inr (.inr (.inl inRest))
      by_cases under : point < r.base
      · exact .inl ⟨low, under, same⟩
      · exact .inr (.inr (.inr ⟨by omega, high, same, no⟩))

section Merge

variable [DecidableEq τ]

def mergeFrom (a : Block τ) : List (Block τ) → List (Block τ)
  | [] => [a]
  | b :: rest =>
    if a.top = b.base ∧ a.tag = b.tag then mergeFrom { a with size := a.size + b.size } rest
    else a :: mergeFrom b rest

def merge : List (Block τ) → List (Block τ)
  | [] => []
  | a :: rest => mergeFrom a rest

/-- The first range of the result begins where the list begins. -/
theorem mergeFrom_head (a : Block τ) (rest : List (Block τ)) :
    ∃ size rest', mergeFrom a rest = { a with size := size } :: rest' := by
  induction rest generalizing a with
  | nil => exact ⟨a.size, [], rfl⟩
  | cons b rest ih =>
    rw [mergeFrom]
    split_ifs with joins
    · exact ih _
    · exact ⟨a.size, mergeFrom b rest, rfl⟩

theorem at_mergeFrom (a : Block τ) (rest : List (Block τ)) (point : Nat) (t : τ) :
    At (mergeFrom a rest) point t ↔ At (a :: rest) point t := by
  induction rest generalizing a with
  | nil => rfl
  | cons b rest ih =>
    rw [mergeFrom]
    split_ifs with joins
    · obtain ⟨touch, same⟩ := joins
      rw [ih, at_cons, at_cons, at_cons, ← or_assoc, same]
      refine or_congr_left ?_
      simp only [top] at touch ⊢
      constructor
      · rintro ⟨low, high, tagged⟩
        by_cases first : point < a.base + a.size
        · exact .inl ⟨low, first, tagged⟩
        · exact .inr ⟨by omega, by omega, tagged⟩
      · rintro (⟨low, high, tagged⟩ | ⟨low, high, tagged⟩)
        · exact ⟨low, by omega, tagged⟩
        · exact ⟨by omega, by omega, tagged⟩
    · rw [at_cons, at_cons, ih]

theorem at_merge (blocks : List (Block τ)) (point : Nat) (t : τ) :
    At (merge blocks) point t ↔ At blocks point t := by
  cases blocks with
  | nil => rfl
  | cons a rest => exact at_mergeFrom a rest point t

theorem mergeFrom_eq_self {a : Block τ} {rest : List (Block τ)}
    (apart : (a :: rest).Pairwise Apart) : mergeFrom a rest = a :: rest := by
  induction rest generalizing a with
  | nil => rfl
  | cons b rest ih =>
    obtain ⟨behind, apart⟩ := pairwise_cons.mp apart
    obtain ⟨_, strict⟩ := behind b (mem_cons_self ..)
    rw [mergeFrom, if_neg, ih apart]
    rintro ⟨touch, same⟩
    have := strict same
    omega

theorem merge_eq_self (apart : blocks.Pairwise Apart) : merge blocks = blocks := by
  cases blocks with
  | nil => rfl
  | cons a rest => exact mergeFrom_eq_self apart

theorem mergeFrom_spec {a : Block τ} {rest : List (Block τ)} (order : InOrder (a :: rest))
    (nonempty : ∀ b ∈ a :: rest, 0 < b.size) :
    (mergeFrom a rest).Pairwise Apart ∧ (∀ b ∈ mergeFrom a rest, 0 < b.size ∧ a.base ≤ b.base) ∧
      (mergeFrom a rest).length ≤ (a :: rest).length ∧
      ∀ limit, (∀ b ∈ a :: rest, b.top ≤ limit) → ∀ b ∈ mergeFrom a rest, b.top ≤ limit := by
  induction rest generalizing a with
  | nil =>
    simpa [mergeFrom] using nonempty
  | cons b rest ih =>
    obtain ⟨behind, order'⟩ := pairwise_cons.mp order
    have pos := nonempty a mem_cons_self
    rw [mergeFrom]
    split_ifs with joins
    · obtain ⟨touch, same⟩ := joins
      have joined : InOrder ({ a with size := a.size + b.size } :: rest) := by
        refine pairwise_cons.mpr ⟨fun c mem => ?_, (pairwise_cons.mp order').2⟩
        have start := (pairwise_cons.mp order').1 c mem
        simp only [top] at touch start ⊢
        omega
      obtain ⟨apart, low, len, bounds⟩ := ih joined (by
        intro c mem
        rcases mem_cons.mp mem with rfl | inRest
        · exact Nat.add_pos_left pos _
        · exact nonempty c (by simp [inRest]))
      refine ⟨apart, low, ?_, fun limit bound => bounds limit fun c mem => ?_⟩
      · simp only [length_cons] at len ⊢
        omega
      rcases mem_cons.mp mem with rfl | inRest
      · have stop := bound b (by simp)
        simp only [top] at touch stop ⊢
        omega
      · exact bound c (by simp [inRest])
    obtain ⟨apart, low, len, bounds⟩ := ih order' fun c mem =>
      nonempty c (mem_cons_of_mem a mem)
    obtain ⟨size, rest', shape⟩ := mergeFrom_head b rest
    have start := behind b mem_cons_self
    refine ⟨pairwise_cons.mpr ⟨fun c mem => ?_, apart⟩, fun c mem => ?_, ?_,
      fun limit bound c mem => ?_⟩
    · rw [shape] at mem apart low
      rcases mem_cons.mp mem with rfl | inRest
      · refine ⟨start, fun same => ?_⟩
        have touch : ¬a.top = b.base := fun touch => joins ⟨touch, same⟩
        show a.top < b.base
        omega
      · have first := (low _ mem_cons_self).1
        have later := ((pairwise_cons.mp apart).1 c inRest).1
        simp only [top] at start later first ⊢
        exact ⟨by simp only [top]; omega, fun _ => by simp only [top]; omega⟩
    · rcases mem_cons.mp mem with rfl | inRest
      · exact ⟨pos, Nat.le_refl _⟩
      have later := low c inRest
      simp only [top] at start
      exact ⟨later.1, by omega⟩
    · simp only [length_cons] at len ⊢
      omega
    · rcases mem_cons.mp mem with rfl | inRest
      · exact bound c mem_cons_self
      · exact bounds limit (fun c mem => bound c (mem_cons_of_mem a mem)) c inRest

theorem merge_spec (order : InOrder blocks) (nonempty : ∀ b ∈ blocks, 0 < b.size) :
    (merge blocks).Pairwise Apart ∧ (∀ b ∈ merge blocks, 0 < b.size) ∧
      (merge blocks).length ≤ blocks.length ∧
      ∀ limit, (∀ b ∈ blocks, b.top ≤ limit) → ∀ b ∈ merge blocks, b.top ≤ limit := by
  cases blocks with
  | nil => exact ⟨.nil, by simp [merge], Nat.le_refl _, by simp [merge]⟩
  | cons a rest =>
    obtain ⟨apart, low, len, bounds⟩ := mergeFrom_spec order nonempty
    exact ⟨apart, fun b mem => (low b mem).1, len, bounds⟩

end Merge

def below (lo : Nat) (b : Block τ) : Option (Block τ) :=
  if b.base < lo then some { b with size := min b.top lo - b.base } else none

def inside (lo hi : Nat) (b : Block τ) : Option (Block τ) :=
  if max b.base lo < min b.top hi then
    some { b with base := max b.base lo, size := min b.top hi - max b.base lo }
  else none

def above (hi : Nat) (b : Block τ) : Option (Block τ) :=
  if hi < b.top then some { b with base := max b.base hi, size := b.top - max b.base hi } else none

theorem below_eq_some {lo : Nat} {b p : Block τ} (h : below lo b = some p) :
    b.base < lo ∧ p.base = b.base ∧ p.size = min b.top lo - b.base ∧ p.tag = b.tag := by
  unfold below at h
  split_ifs at h with low
  cases h
  exact ⟨low, rfl, rfl, rfl⟩

theorem inside_eq_some {lo hi : Nat} {b p : Block τ} (h : inside lo hi b = some p) :
    max b.base lo < min b.top hi ∧ p.base = max b.base lo ∧
      p.size = min b.top hi - max b.base lo ∧ p.tag = b.tag := by
  unfold inside at h
  split_ifs at h with meets
  cases h
  exact ⟨meets, rfl, rfl, rfl⟩

theorem above_eq_some {hi : Nat} {b p : Block τ} (h : above hi b = some p) :
    hi < b.top ∧ p.base = max b.base hi ∧ p.size = b.top - max b.base hi ∧ p.tag = b.tag := by
  unfold above at h
  split_ifs at h with high
  cases h
  exact ⟨high, rfl, rfl, rfl⟩

section Whole

variable {lo hi : Nat} {b : Block τ}

theorem below_self (high : b.top ≤ lo) (pos : 0 < b.size) : below lo b = some b := by
  have size : min b.top lo - b.base = b.size := by
    simp only [top] at high ⊢
    omega
  rw [below, if_pos (by simp only [top] at high; omega), size]

theorem below_none (low : lo ≤ b.base) : below lo b = none := if_neg (by omega)

theorem inside_self (low : lo ≤ b.base) (high : b.top ≤ hi) (pos : 0 < b.size) :
    inside lo hi b = some b := by
  have base : max b.base lo = b.base := Nat.max_eq_left low
  have size : min b.top hi - b.base = b.size := by
    simp only [top] at high ⊢
    omega
  rw [inside, if_pos (by simp only [top] at high ⊢; omega), base, size]

theorem inside_none_below (high : b.top ≤ lo) : inside lo hi b = none := if_neg (by omega)

theorem inside_none_above (low : hi ≤ b.base) : inside lo hi b = none := if_neg (by omega)

theorem above_self (low : hi ≤ b.base) (pos : 0 < b.size) : above hi b = some b := by
  have base : max b.base hi = b.base := Nat.max_eq_left low
  have size : b.top - b.base = b.size := by
    simp only [top]
    omega
  rw [above, if_pos (by simp only [top]; omega), base, size]

theorem above_none (high : b.top ≤ hi) : above hi b = none := if_neg (by omega)

end Whole

/-- A cut that keeps the numbers of a range with a property keeps them of the whole list. -/
theorem at_filterMap {part : Block τ → Option (Block τ)} {k : Nat → Prop} (point : Nat) (t : τ)
    (piece : ∀ b : Block τ, (∃ p, part b = some p ∧ p.base ≤ point ∧ point < p.top ∧ p.tag = t) ↔
      (b.base ≤ point ∧ point < b.top ∧ b.tag = t) ∧ k point) (blocks : List (Block τ)) :
    At (blocks.filterMap part) point t ↔ At blocks point t ∧ k point := by
  simp only [At, mem_filterMap]
  constructor
  · rintro ⟨p, ⟨b, inList, cut⟩, holds⟩
    obtain ⟨inside, kept⟩ := (piece b).mp ⟨p, cut, holds⟩
    exact ⟨⟨b, inList, inside⟩, kept⟩
  · rintro ⟨⟨b, inList, inside⟩, kept⟩
    obtain ⟨p, cut, holds⟩ := (piece b).mpr ⟨inside, kept⟩
    exact ⟨p, ⟨b, inList, cut⟩, holds⟩

theorem at_below (blocks : List (Block τ)) (lo point : Nat) (t : τ) :
    At (blocks.filterMap (below lo)) point t ↔ At blocks point t ∧ point < lo := by
  refine at_filterMap (k := fun x => x < lo) point t (fun b => ?_) blocks
  grind [below, top]

theorem at_inside (blocks : List (Block τ)) (lo hi point : Nat) (t : τ) :
    At (blocks.filterMap (inside lo hi)) point t ↔ At blocks point t ∧ lo ≤ point ∧ point < hi := by
  refine at_filterMap (k := fun x => lo ≤ x ∧ x < hi) point t (fun b => ?_) blocks
  grind [inside, top]

theorem at_above (blocks : List (Block τ)) (hi point : Nat) (t : τ) :
    At (blocks.filterMap (above hi)) point t ↔ At blocks point t ∧ hi ≤ point := by
  refine at_filterMap point t (fun b => ?_) blocks
  grind [above, top]

/-- The list with every range cut at both ends of the window. -/
def cut (lo hi : Nat) (blocks : List (Block τ)) : List (Block τ) :=
  blocks.filterMap (below lo) ++ blocks.filterMap (inside lo hi) ++ blocks.filterMap (above hi)

def crossings (lo hi : Nat) (blocks : List (Block τ)) : Nat :=
  (blocks.countP fun b => b.base < lo ∧ lo < b.top) +
    blocks.countP fun b => b.base < hi ∧ hi < b.top

theorem length_cut {lo hi : Nat} (window : lo < hi) (nonempty : ∀ b ∈ blocks, 0 < b.size) :
    (cut lo hi blocks).length = blocks.length + crossings lo hi blocks := by
  induction blocks with
  | nil => rfl
  | cons r rest ih =>
    have pos := nonempty r mem_cons_self
    have rest_length := ih fun b mem => nonempty b (mem_cons_of_mem r mem)
    have len (f : Block τ → Option (Block τ)) : ((r :: rest).filterMap f).length =
        (if (f r).isSome = true then 1 else 0) + (rest.filterMap f).length := by
      cases h : f r <;> simp [h, Nat.add_comm]
    have hasBelow : (below lo r).isSome = true ↔ r.base < lo := by
      unfold below
      split_ifs <;> simp [*]
    have hasInside : (inside lo hi r).isSome = true ↔ max r.base lo < min r.top hi := by
      unfold inside
      split_ifs <;> simp only [*, Option.isSome_some, Option.isSome_none, Bool.false_eq_true]
    have hasAbove : (above hi r).isSome = true ↔ hi < r.top := by
      unfold above
      split_ifs <;> simp [*]
    simp only [cut, crossings, length_append, len, hasBelow, hasInside, hasAbove,
      countP_cons, length_cons, decide_eq_true_eq] at rest_length ⊢
    have stop : r.top = r.base + r.size := rfl
    split_ifs <;> omega

theorem crossings_le (lo hi : Nat) (order : InOrder blocks) : crossings lo hi blocks ≤ 2 := by
  have once (point : Nat) : (blocks.countP fun b => b.base < point ∧ point < b.top) ≤ 1 := by
    induction blocks with
    | nil => simp
    | cons r rest ih =>
      obtain ⟨behind, order'⟩ := pairwise_cons.mp order
      rw [countP_cons]
      by_cases crosses : r.base < point ∧ point < r.top
      · have none : (rest.countP fun b => b.base < point ∧ point < b.top) = 0 := by
          refine countP_eq_zero.mpr fun b mem => ?_
          have start := behind b mem
          simp only [decide_eq_true_eq]
          omega
        exact Nat.le_of_eq (by rw [none, if_pos (by simpa using crosses)])
      · simpa [crosses] using ih order'
  have low := once lo
  have high := once hi
  simp only [crossings]
  omega

section CutCons

variable {lo hi : Nat} {r : Block τ} {rest : List (Block τ)}

theorem cut_beyond (window : lo < hi) (nonempty : ∀ b ∈ blocks, 0 < b.size)
    (high : ∀ b ∈ blocks, hi ≤ b.base) :
    cut lo hi blocks = blocks ∧ blocks.filterMap (inside lo hi) = [] := by
  have noneBelow : blocks.filterMap (below lo) = [] := filterMap_eq_nil_iff.mpr
    fun b mem => below_none (by have := high b mem; omega)
  have noneInside : blocks.filterMap (inside lo hi) = [] := filterMap_eq_nil_iff.mpr
    fun b mem => inside_none_above (high b mem)
  have all : blocks.filterMap (above hi) = blocks := by
    refine (filterMap_congr fun b mem => ?_).trans filterMap_some
    exact above_self (high b mem) (nonempty b mem)
  exact ⟨by simp [cut, noneBelow, noneInside, all], noneInside⟩

theorem cut_before (window : lo < hi) (high : r.top ≤ lo) (pos : 0 < r.size) :
    cut lo hi (r :: rest) = r :: cut lo hi rest := by
  simp [cut, below_self high pos, inside_none_below high, above_none (show r.top ≤ hi by omega)]

/-- A range inside the window stays; no range behind it reaches below the window. -/
theorem cut_inside (order : InOrder (r :: rest)) (low : lo ≤ r.base) (high : r.top ≤ hi)
    (pos : 0 < r.size) :
    cut lo hi (r :: rest) = r :: cut lo hi rest ∧ rest.filterMap (below lo) = [] := by
  have noneBelow : rest.filterMap (below lo) = [] := by
    refine filterMap_eq_nil_iff.mpr fun b mem => below_none ?_
    have behind := (pairwise_cons.mp order).1 b mem
    simp only [top] at behind
    omega
  simp [cut, noneBelow, below_none low, inside_self low high pos, above_none high]

theorem crossings_cons_eq (first : ¬(r.base < lo ∧ lo < r.top)) (second : ¬(r.base < hi ∧ hi < r.top)) :
    crossings lo hi (r :: rest) = crossings lo hi rest := by
  simp only [crossings, countP_cons, decide_eq_true_eq, if_neg first, if_neg second, Nat.add_zero]

def upTo (point : Nat) (b : Block τ) : Block τ := { b with size := point - b.base }

def fromOn (point : Nat) (b : Block τ) : Block τ := { b with base := point, size := b.top - point }

theorem top_fromOn (high : point ≤ r.top) : (fromOn point r).top = r.top := by
  show point + (r.top - point) = r.top
  omega

theorem cut_low (window : lo < hi) (low : r.base < lo) (high : lo < r.top) :
    (r :: rest).filterMap (below lo) = upTo lo r :: (fromOn lo r :: rest).filterMap (below lo) ∧
      (r :: rest).filterMap (inside lo hi) = (fromOn lo r :: rest).filterMap (inside lo hi) ∧
      (r :: rest).filterMap (above hi) = (fromOn lo r :: rest).filterMap (above hi) ∧
      crossings lo hi (r :: rest) = 1 + crossings lo hi (fromOn lo r :: rest) := by
  have upperTop := top_fromOn (Nat.le_of_lt high)
  have upperBase : (fromOn lo r).base = lo := rfl
  have sameTag : (fromOn lo r).tag = r.tag := rfl
  have size : min r.top lo - r.base = lo - r.base := by omega
  have first : below lo r = some (upTo lo r) := by
    rw [below, if_pos low, size]
    rfl
  have none : below lo (fromOn lo r) = none := below_none (Nat.le_refl lo)
  have insideSame : inside lo hi (fromOn lo r) = inside lo hi r := by
    have base : max (fromOn lo r).base lo = max r.base lo := by omega
    simp only [inside, base, upperTop, sameTag]
  have aboveSame : above hi (fromOn lo r) = above hi r := by
    have base : max (fromOn lo r).base hi = max r.base hi := by omega
    simp only [above, base, upperTop, sameTag]
  refine ⟨by simp [first, none], by simp only [filterMap_cons, insideSame],
    by simp only [filterMap_cons, aboveSame], ?_⟩
  simp only [crossings, countP_cons, decide_eq_true_eq, upperBase, upperTop]
  rw [if_neg (show ¬(lo < lo ∧ lo < r.top) by omega)]
  split_ifs <;> omega

theorem cut_high (window : lo < hi) (from_lo : lo ≤ r.base) (low : r.base < hi) (high : hi < r.top) :
    (r :: rest).filterMap (below lo) = (upTo hi r :: fromOn hi r :: rest).filterMap (below lo) ∧
      (r :: rest).filterMap (inside lo hi) =
        (upTo hi r :: fromOn hi r :: rest).filterMap (inside lo hi) ∧
      (r :: rest).filterMap (above hi) = (upTo hi r :: fromOn hi r :: rest).filterMap (above hi) ∧
      crossings lo hi (r :: rest) = 1 + crossings lo hi (upTo hi r :: fromOn hi r :: rest) := by
  have upperTop := top_fromOn (Nat.le_of_lt high)
  have upperBase : (fromOn hi r).base = hi := rfl
  have lowerBase : (upTo hi r).base = r.base := rfl
  have lowerTop : (upTo hi r).top = hi := by
    show r.base + (hi - r.base) = hi
    omega
  have size : min r.top hi - r.base = hi - r.base := by omega
  have base : max r.base lo = r.base := Nat.max_eq_left from_lo
  have base' : max r.base hi = hi := by omega
  have mid : inside lo hi r = some (upTo hi r) := by
    rw [inside, if_pos (by omega), base, size]
    rfl
  have last : above hi r = some (fromOn hi r) := by
    rw [above, if_pos high, base']
    rfl
  have mid' : inside lo hi (upTo hi r) = some (upTo hi r) := by
    refine inside_self from_lo (Nat.le_of_eq lowerTop) ?_
    show 0 < hi - r.base
    omega
  have last' : above hi (fromOn hi r) = some (fromOn hi r) := by
    refine above_self (Nat.le_refl hi) ?_
    show 0 < r.top - hi
    omega
  refine ⟨?_, ?_, ?_, ?_⟩
  · simp [below_none from_lo, below_none (show lo ≤ (upTo hi r).base from from_lo),
      below_none (show lo ≤ (fromOn hi r).base by omega)]
  · simp [mid, mid', inside_none_above (show hi ≤ (fromOn hi r).base from Nat.le_refl hi)]
  · simp [last, last', above_none (Nat.le_of_eq lowerTop)]
  simp only [crossings, countP_cons, decide_eq_true_eq, upperBase, upperTop, lowerBase, lowerTop]
  rw [if_pos (show r.base < hi ∧ hi < r.top from ⟨low, high⟩),
    if_neg (show ¬(r.base < lo ∧ lo < r.top) by omega),
      if_neg (show ¬(hi < lo ∧ lo < r.top) by omega),
      if_neg (show ¬(r.base < lo ∧ lo < hi) by omega),
    if_neg (show ¬(hi < hi ∧ hi < r.top) by omega), if_neg (show ¬(r.base < hi ∧ hi < hi) by omega)]
  omega

end CutCons

section Parts

variable {lo hi : Nat} {blocks : List (Block τ)} {p : Block τ}

theorem mem_below (mem : p ∈ blocks.filterMap (below lo)) (nonempty : ∀ b ∈ blocks, 0 < b.size) :
    0 < p.size ∧ p.top ≤ lo ∧ ∃ b ∈ blocks, p.top ≤ b.top := by
  obtain ⟨b, inList, part⟩ := mem_filterMap.mp mem
  obtain ⟨low, base, size, _⟩ := below_eq_some part
  have pos := nonempty b inList
  simp only [top] at size ⊢
  exact ⟨by omega, by omega, b, inList, by omega⟩

theorem mem_inside (mem : p ∈ blocks.filterMap (inside lo hi)) :
    0 < p.size ∧ lo ≤ p.base ∧ p.top ≤ hi ∧ ∃ b ∈ blocks, p.top ≤ b.top := by
  obtain ⟨b, inList, part⟩ := mem_filterMap.mp mem
  obtain ⟨meets, base, size, _⟩ := inside_eq_some part
  simp only [top] at meets size ⊢
  exact ⟨by omega, by omega, by omega, b, inList, by omega⟩

theorem mem_above (mem : p ∈ blocks.filterMap (above hi)) (nonempty : ∀ b ∈ blocks, 0 < b.size) :
    0 < p.size ∧ hi ≤ p.base ∧ ∃ b ∈ blocks, p.top ≤ b.top := by
  obtain ⟨b, inList, part⟩ := mem_filterMap.mp mem
  obtain ⟨high, base, size, _⟩ := above_eq_some part
  have pos := nonempty b inList
  simp only [top] at high size ⊢
  exact ⟨by omega, by omega, b, inList, by omega⟩

theorem apart_below (apart : blocks.Pairwise Apart) :
    (blocks.filterMap (below lo)).Pairwise Apart := by
  rw [pairwise_filterMap]
  refine apart.imp fun {a b} h p hp q hq => ?_
  obtain ⟨_, base, size, tag⟩ := below_eq_some hp
  obtain ⟨_, base', _, tag'⟩ := below_eq_some hq
  obtain ⟨order, strict⟩ := h
  simp only [Apart, top] at order strict size ⊢
  refine ⟨by omega, fun same => ?_⟩
  have gap := strict (by rw [← tag, same, tag'])
  omega

theorem apart_above (apart : blocks.Pairwise Apart) :
    (blocks.filterMap (above hi)).Pairwise Apart := by
  rw [pairwise_filterMap]
  refine apart.imp fun {a b} h p hp q hq => ?_
  obtain ⟨high, base, size, tag⟩ := above_eq_some hp
  obtain ⟨high', base', size', tag'⟩ := above_eq_some hq
  obtain ⟨order, strict⟩ := h
  simp only [Apart, top] at order strict size high high' size' ⊢
  refine ⟨by omega, fun same => ?_⟩
  have gap := strict (by rw [← tag, same, tag'])
  omega

theorem inOrder_inside (order : InOrder blocks) : InOrder (blocks.filterMap (inside lo hi)) := by
  rw [InOrder, pairwise_filterMap]
  refine order.imp fun {a b} h p hp q hq => ?_
  obtain ⟨meets, base, size, _⟩ := inside_eq_some hp
  obtain ⟨_, base', _, _⟩ := inside_eq_some hq
  simp only [top] at h meets size ⊢
  omega

/-- Without the window the parts are still apart. -/
theorem apart_outside (window : lo < hi) (apart : blocks.Pairwise Apart)
    (nonempty : ∀ b ∈ blocks, 0 < b.size) :
    (blocks.filterMap (below lo) ++ blocks.filterMap (above hi)).Pairwise Apart := by
  refine pairwise_append.mpr ⟨apart_below apart, apart_above apart, fun a inLow b inHigh => ?_⟩
  have low := (mem_below inLow nonempty).2.1
  have high := (mem_above inHigh nonempty).2.1
  exact ⟨by omega, fun _ => by omega⟩

theorem inOrder_cut (window : lo ≤ hi) (apart : blocks.Pairwise Apart)
    (nonempty : ∀ b ∈ blocks, 0 < b.size) : InOrder (cut lo hi blocks) := by
  refine pairwise_append.mpr ⟨pairwise_append.mpr ⟨inOrder_of_apart (apart_below apart),
    inOrder_inside (inOrder_of_apart apart), fun a inLow b inMid => ?_⟩,
    inOrder_of_apart (apart_above apart), fun a mem b inHigh => ?_⟩
  · have low := (mem_below inLow nonempty).2.1
    have mid := (mem_inside inMid).2.1
    omega
  have high := (mem_above inHigh nonempty).2.1
  rcases mem_append.mp mem with inLow | inMid
  · have low := (mem_below inLow nonempty).2.1
    omega
  · have mid := (mem_inside inMid).2.2.1
    omega

theorem mem_cut (nonempty : ∀ b ∈ blocks, 0 < b.size) (mem : p ∈ cut lo hi blocks) :
    0 < p.size ∧ ∃ b ∈ blocks, p.top ≤ b.top := by
  simp only [cut, mem_append] at mem
  rcases mem with (inLow | inMid) | inHigh
  · exact ⟨(mem_below inLow nonempty).1, (mem_below inLow nonempty).2.2⟩
  · exact ⟨(mem_inside inMid).1, (mem_inside inMid).2.2.2⟩
  · exact ⟨(mem_above inHigh nonempty).1, (mem_above inHigh nonempty).2.2⟩

end Parts

/-- Ranges in order are together no longer than the space they have. -/
theorem sum_size_le (order : InOrder blocks) (lo limit : Nat)
    (low : ∀ b ∈ blocks, lo ≤ b.base) (bound : ∀ b ∈ blocks, b.top ≤ limit) (window : lo ≤ limit) :
    lo + (blocks.map size).sum ≤ limit := by
  induction blocks generalizing lo with
  | nil => simpa using window
  | cons r rest ih =>
    obtain ⟨behind, order'⟩ := pairwise_cons.mp order
    have first := low r mem_cons_self
    have stop := bound r mem_cons_self
    have later := ih order' _ behind (fun b mem => bound b (mem_cons_of_mem r mem)) stop
    simp only [map_cons, sum_cons, top] at later ⊢
    omega

end Block

end Linux318.Lib
