import Mathlib.Tactic.Common
import Mathlib.Order.Lattice
import Mathlib.Data.List.Pairwise

/-!
Lists of tagged integer ranges. A list in order, with a gap between two ranges of one
tag, is the normal form of a finite map from integers to tags. `carve` cuts a window out
of such a list and puts new ranges in its place.
-/
namespace Linux318.Lib
open List

variable {τ : Type}

/-- The integers from `lo` to `hi`, both included, with one tag. -/
structure Span (τ : Type) where
  lo : Int
  hi : Int
  tag : τ

namespace Span

variable {spans : List (Span τ)}

/-- Some range of the list gives the tag to the point. -/
def Holds (spans : List (Span τ)) (point : Int) (tag : τ) : Prop :=
  ∃ r ∈ spans, r.tag = tag ∧ r.lo ≤ point ∧ point ≤ r.hi

/-- The first range lies before the second, and does not touch it if the tags agree. -/
def Apart (a b : Span τ) : Prop := a.hi < b.lo ∧ (a.tag = b.tag → a.hi + 1 < b.lo)

def below (cut : Int) (r : Span τ) : Option (Span τ) :=
  if r.lo < cut then some { r with hi := min r.hi (cut - 1) } else none

def above (cut : Int) (r : Span τ) : Option (Span τ) :=
  if cut < r.hi then some { r with lo := max r.lo (cut + 1) } else none

/-- The list without the window from `lo` to `hi`, with `new` in its place. -/
def carve (lo hi : Int) (new spans : List (Span τ)) : List (Span τ) :=
  spans.filterMap (below lo) ++ new ++ spans.filterMap (above hi)

/-- Ranges with the tag lie inside the window or keep a gap to it. -/
def Absorbs (lo hi : Int) (tag : τ) (spans : List (Span τ)) : Prop :=
  ∀ r ∈ spans, r.tag = tag → r.hi + 1 < lo ∨ (lo ≤ r.lo ∧ r.hi ≤ hi) ∨ hi + 1 < r.lo

theorem below_eq_some {cut : Int} {r p : Span τ} (h : below cut r = some p) :
    r.lo < cut ∧ p.lo = r.lo ∧ p.hi = min r.hi (cut - 1) ∧ p.tag = r.tag := by
  unfold below at h
  split at h
  · next hlo =>
    cases h
    exact ⟨hlo, rfl, rfl, rfl⟩
  · cases h

theorem above_eq_some {cut : Int} {r p : Span τ} (h : above cut r = some p) :
    cut < r.hi ∧ p.lo = max r.lo (cut + 1) ∧ p.hi = r.hi ∧ p.tag = r.tag := by
  unfold above at h
  split at h
  · next hhi =>
    cases h
    exact ⟨hhi, rfl, rfl, rfl⟩
  · cases h

theorem holds_append (a b : List (Span τ)) (point : Int) (tag : τ) :
    Holds (a ++ b) point tag ↔ Holds a point tag ∨ Holds b point tag := by
  simp [Holds, or_and_right, exists_or]

theorem holds_below (spans : List (Span τ)) (cut point : Int) (tag : τ) :
    Holds (spans.filterMap (below cut)) point tag ↔ Holds spans point tag ∧ point < cut := by
  constructor
  · rintro ⟨p, mem, ptag, plo, phi⟩
    obtain ⟨r, rmem, piece⟩ := mem_filterMap.mp mem
    obtain ⟨_, hlo, hhi, htag⟩ := below_eq_some piece
    exact ⟨⟨r, rmem, htag ▸ ptag, by omega, by omega⟩, by omega⟩
  rintro ⟨⟨r, rmem, rtag, rlo, rhi⟩, hpoint⟩
  have piece : below cut r = some { r with hi := min r.hi (cut - 1) } := by
    rw [below, if_pos (by omega)]
  refine ⟨_, mem_filterMap.mpr ⟨r, rmem, piece⟩, rtag, rlo, ?_⟩
  show point ≤ min r.hi (cut - 1)
  omega

theorem holds_above (spans : List (Span τ)) (cut point : Int) (tag : τ) :
    Holds (spans.filterMap (above cut)) point tag ↔ Holds spans point tag ∧ cut < point := by
  constructor
  · rintro ⟨p, mem, ptag, plo, phi⟩
    obtain ⟨r, rmem, piece⟩ := mem_filterMap.mp mem
    obtain ⟨_, hlo, hhi, htag⟩ := above_eq_some piece
    exact ⟨⟨r, rmem, htag ▸ ptag, by omega, by omega⟩, by omega⟩
  rintro ⟨⟨r, rmem, rtag, rlo, rhi⟩, hpoint⟩
  have piece : above cut r = some { r with lo := max r.lo (cut + 1) } := by
    rw [above, if_pos (by omega)]
  refine ⟨_, mem_filterMap.mpr ⟨r, rmem, piece⟩, rtag, ?_, rhi⟩
  show max r.lo (cut + 1) ≤ point
  omega

/-- Outside the window nothing changes, and inside it only `new` counts. -/
theorem holds_carve (spans new : List (Span τ)) (lo hi point : Int) (tag : τ) :
    Holds (carve lo hi new spans) point tag ↔
      Holds new point tag ∨ Holds spans point tag ∧ (point < lo ∨ hi < point) := by
  rw [carve, holds_append, holds_append, holds_below, holds_above]
  tauto

theorem nonempty_carve {new : List (Span τ)} {lo hi : Int} (nonempty : ∀ r ∈ spans, r.lo ≤ r.hi)
    (fresh : ∀ r ∈ new, r.lo ≤ r.hi) : ∀ r ∈ carve lo hi new spans, r.lo ≤ r.hi := by
  intro p mem
  simp only [carve, mem_append, mem_filterMap] at mem
  rcases mem with (⟨r, rmem, piece⟩ | pnew) | ⟨r, rmem, piece⟩
  · obtain ⟨_, hlo, hhi, _⟩ := below_eq_some piece
    have := nonempty r rmem
    omega
  · exact fresh p pnew
  · obtain ⟨_, hlo, hhi, _⟩ := above_eq_some piece
    have := nonempty r rmem
    omega

section
variable (sorted : spans.Pairwise Apart)
include sorted

/-- In order, at most one range covers a point. -/
theorem holds_unique {point : Int}
    {s t : τ} (hs : Holds spans point s) (ht : Holds spans point t) : s = t := by
  induction spans with
  | nil => simp [Holds] at hs
  | cons r rest ih =>
    obtain ⟨hr, hrest⟩ := pairwise_cons.mp sorted
    obtain ⟨a, ha, rfl, halo, hahi⟩ := hs
    obtain ⟨b, hb, rfl, hblo, hbhi⟩ := ht
    rcases mem_cons.mp ha with rfl | ha' <;> rcases mem_cons.mp hb with rfl | hb'
    · rfl
    · have := (hr b hb').1
      omega
    · have := (hr a ha').1
      omega
    · exact ih hrest ⟨a, ha', rfl, halo, hahi⟩ ⟨b, hb', rfl, hblo, hbhi⟩

theorem pairwise_below (cut : Int) : (spans.filterMap (below cut)).Pairwise Apart := by
  rw [pairwise_filterMap]
  refine sorted.imp ?_
  intro a b apart p hp q hq
  obtain ⟨_, _, phi, ptag⟩ := below_eq_some hp
  obtain ⟨_, qlo, _, qtag⟩ := below_eq_some hq
  refine ⟨by have := apart.1; omega, fun same => ?_⟩
  have := apart.2 (by rw [← ptag, same, qtag])
  omega

theorem pairwise_above (cut : Int) : (spans.filterMap (above cut)).Pairwise Apart := by
  rw [pairwise_filterMap]
  refine sorted.imp ?_
  intro a b apart p hp q hq
  obtain ⟨_, _, phi, ptag⟩ := above_eq_some hp
  obtain ⟨_, qlo, _, qtag⟩ := above_eq_some hq
  refine ⟨by have := apart.1; omega, fun same => ?_⟩
  have := apart.2 (by rw [← ptag, same, qtag])
  omega

theorem pairwise_carve_nil {lo hi : Int} (window : lo ≤ hi) :
    (carve lo hi [] spans).Pairwise Apart := by
  rw [carve, append_nil, pairwise_append]
  refine ⟨pairwise_below sorted lo, pairwise_above sorted hi, ?_⟩
  intro p hp q hq
  obtain ⟨_, _, hp⟩ := mem_filterMap.mp hp
  obtain ⟨_, _, hq⟩ := mem_filterMap.mp hq
  have hpart := below_eq_some hp
  have hqart := above_eq_some hq
  exact ⟨by omega, fun _ => by omega⟩

/-- A new range that absorbs the ranges of its tag keeps the normal form. -/
theorem pairwise_carve_single {lo hi : Int} {tag : τ} (window : lo ≤ hi)
    (absorbs : Absorbs lo hi tag spans) : (carve lo hi [⟨lo, hi, tag⟩] spans).Pairwise Apart := by
  rw [carve, pairwise_append, pairwise_append]
  refine ⟨⟨pairwise_below sorted lo, pairwise_singleton _ _, ?_⟩, pairwise_above sorted hi, ?_⟩
  · intro p hp q hq
    obtain ⟨r, rmem, hp⟩ := mem_filterMap.mp hp
    obtain ⟨rlo, _, phi, ptag⟩ := below_eq_some hp
    cases mem_singleton.mp hq
    refine ⟨by simp only; omega, fun same => ?_⟩
    have := absorbs r rmem (ptag ▸ same)
    simp only
    omega
  intro p hp q hq
  obtain ⟨r, rmem, hq⟩ := mem_filterMap.mp hq
  obtain ⟨rhi, qlo, _, qtag⟩ := above_eq_some hq
  rcases mem_append.mp hp with hp | hp
  · obtain ⟨_, _, hp⟩ := mem_filterMap.mp hp
    have hpart := below_eq_some hp
    exact ⟨by omega, fun _ => by omega⟩
  cases mem_singleton.mp hp
  refine ⟨by simp only; omega, fun same => ?_⟩
  have := absorbs r rmem (by rw [← qtag, ← same])
  simp only
  omega

end

end Span

end Linux318.Lib
