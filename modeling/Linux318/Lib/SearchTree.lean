import Mathlib.Data.List.Basic

/-!
Binary search trees, judged by the sequence of their values. A search asks each value for a
direction; along the sequence the directions are first `gt`, then at most one `eq`, then `lt`.
-/
namespace Linux318.Lib
open List

inductive SearchTree (α : Type) where
  | nil
  | node (left : SearchTree α) (value : α) (right : SearchTree α)
  deriving DecidableEq, Repr

namespace SearchTree

variable {α : Type}

def toList : SearchTree α → List α
  | nil => []
  | node left value right => left.toList ++ value :: right.toList

/-- The value where a search ends: a hit, or the last value on the path. -/
def descend (dir : α → Ordering) : SearchTree α → Option α → Option α
  | nil, last => last
  | node left value right, _ =>
    match dir value with
    | .lt => left.descend dir (some value)
    | .gt => right.descend dir (some value)
    | .eq => some value

/-- The tree with a value in the place where a search ends. -/
def link (dir : α → Ordering) (new : α) : SearchTree α → SearchTree α
  | nil => node nil new nil
  | node left value right =>
    if dir value = .lt then node (left.link dir new) value right
    else node left value (right.link dir new)

/-- The directions of two values that follow each other in the sequence. -/
def Steered (dir : α → Ordering) (a b : α) : Prop := dir a = .gt ∨ dir b = .lt

theorem descend_some {dir : α → Ordering} {t : SearchTree α} (steered : t.toList.Pairwise (Steered dir))
    (last : Option α) : (t.toList = [] ∧ t.descend dir last = last) ∨
      ∃ v pre post, t.descend dir last = some v ∧ t.toList = pre ++ v :: post ∧
        (dir v ≠ .gt → ∀ a ∈ pre, dir a = .gt) ∧ (dir v ≠ .lt → ∀ b ∈ post, dir b = .lt) := by
  induction t generalizing last with
  | nil => exact .inl ⟨rfl, rfl⟩
  | node left value right ihl ihr =>
    right
    rw [toList] at steered ⊢
    obtain ⟨sl, sr, across⟩ := pairwise_append.mp steered
    obtain ⟨head, sr⟩ := pairwise_cons.mp sr
    rw [descend]
    cases h : dir value with
    | lt =>
      have behind (b : α) (mem : b ∈ right.toList) : dir b = .lt := by
        rcases head b mem with gt | lt
        · simp [h] at gt
        · exact lt
      rcases ihl sl (some value) with ⟨empty, res⟩ | ⟨v, pre, post, res, split, before, after⟩
      · exact ⟨value, [], right.toList, res, by simp [empty], by simp, fun _ => behind⟩
      refine ⟨v, pre, post ++ value :: right.toList, res, by simp [split], before, ?_⟩
      intro ne b mem
      rcases mem_append.mp mem with inLeft | mem
      · exact after ne b inLeft
      rcases mem_cons.mp mem with rfl | inRight
      · exact h
      · exact behind b inRight
    | gt =>
      have front (a : α) (mem : a ∈ left.toList) : dir a = .gt := by
        rcases across a mem value mem_cons_self with gt | lt
        · exact gt
        · simp [h] at lt
      rcases ihr sr (some value) with ⟨empty, res⟩ | ⟨v, pre, post, res, split, before, after⟩
      · exact ⟨value, left.toList, [], res, by simp [empty], fun _ => front, by simp⟩
      refine ⟨v, left.toList ++ value :: pre, post, res, by simp [split], ?_, after⟩
      intro ne a mem
      rcases mem_append.mp mem with inLeft | mem
      · exact front a inLeft
      rcases mem_cons.mp mem with rfl | inPre
      · exact h
      · exact before ne a inPre
    | eq =>
      refine ⟨value, left.toList, right.toList, rfl, rfl, fun _ a mem => ?_, fun _ b mem => ?_⟩
      · rcases across a mem value mem_cons_self with gt | lt
        · exact gt
        · simp [h] at lt
      · rcases head b mem with gt | lt
        · simp [h] at gt
        · exact lt

/-- A new value stands between the values on its two sides. -/
theorem link_toList {dir : α → Ordering} (new : α) {t : SearchTree α}
    (steered : t.toList.Pairwise (Steered dir)) (miss : ∀ v ∈ t.toList, dir v ≠ .eq) :
    ∃ pre post, t.toList = pre ++ post ∧ (t.link dir new).toList = pre ++ new :: post ∧
      (∀ a ∈ pre, dir a = .gt) ∧ ∀ b ∈ post, dir b = .lt := by
  induction t with
  | nil => exact ⟨[], [], rfl, rfl, by simp, by simp⟩
  | node left value right ihl ihr =>
    rw [toList] at steered miss ⊢
    obtain ⟨sl, sr, across⟩ := pairwise_append.mp steered
    obtain ⟨head, sr⟩ := pairwise_cons.mp sr
    rw [link]
    by_cases h : dir value = .lt
    · obtain ⟨pre, post, split, linked, before, after⟩ := ihl sl fun v m => miss v (by simp [m])
      rw [if_pos h, toList]
      refine ⟨pre, post ++ value :: right.toList, by simp [split], by simp [linked], before, ?_⟩
      intro b mem
      rcases mem_append.mp mem with inLeft | mem
      · exact after b inLeft
      rcases mem_cons.mp mem with rfl | inRight
      · exact h
      rcases head b inRight with gt | lt
      · simp [h] at gt
      · exact lt
    have gt : dir value = .gt := by
      cases h' : dir value with
      | lt => exact absurd h' h
      | gt => rfl
      | eq => exact absurd h' (miss value (by simp))
    obtain ⟨pre, post, split, linked, before, after⟩ := ihr sr fun v m => miss v (by simp [m])
    rw [if_neg h, toList]
    refine ⟨left.toList ++ value :: pre, post, by simp [split], by simp [linked], ?_, after⟩
    intro a mem
    rcases mem_append.mp mem with inLeft | mem
    · rcases across a inLeft value mem_cons_self with gt' | lt
      · exact gt'
      · simp [gt] at lt
    · rcases mem_cons.mp mem with rfl | inPre
      · exact gt
      · exact before a inPre

def ofList : List α → SearchTree α
  | [] => nil
  | v :: rest => node nil v (ofList rest)

theorem toList_ofList (l : List α) : (ofList l).toList = l := by
  induction l with
  | nil => rfl
  | cons v rest ih => simp [ofList, toList, ih]

end SearchTree

/-- A balancing that keeps the sequence of the values. -/
structure Shape (α : Type) where
  tree : List α → SearchTree α
  inorder : ∀ l, (tree l).toList = l

def Shape.line (α : Type) : Shape α := ⟨SearchTree.ofList, SearchTree.toList_ofList⟩

end Linux318.Lib
