import Linux318.Lib.Run
import Linux318.Source.Rbtree.IntervalQuery

/-!
# Interval trees

Source: include/linux/interval_tree_generic.h. A query of a tree that was built by any run of
insertions and removals gives the intervals that intersect the given one, once each and in the order
of their starts.
-/
namespace Linux318.Guarantees
open Lib Lib.RedBlack Lib.RedBlack.RbTree Source.Rbtree List

section IntervalTree

variable {β : Type}

abbrev Intervals (β : Type) := Nat → Option (β × β)

inductive ItOp (β : Type) where
  | insert (node : Nat) (start last : β)
  | remove (node : Nat)

def ItOp.store (m : Intervals β) : ItOp β → Intervals β
  | insert a start last => Function.update m a (some (start, last))
  | remove a => Function.update m a none

/-- A new node is inserted, at an address where one can be, and a stored one is removed. -/
def ItOp.Valid (m : Intervals β) : ItOp β → Prop
  | insert a _ _ => m a = none ∧ a ≠ 0 ∧ a % 4 = 0
  | remove a => m a ≠ none

def ItValid : Intervals β → List (ItOp β) → Prop
  | _, [] => True
  | m, op :: rest => op.Valid m ∧ ItValid (op.store m) rest

variable [LinearOrder β]

def ItOp.run (rounds : Nat) (s : ItState β) : ItOp β → Option (ItState β)
  | insert a start last => itInsert rounds s a start last
  | remove a => itRemove rounds s a

/-- The nodes of the tree are those that are stored, with their intervals. -/
def Stores (s : ItState β) (l : List Nat) (m : Intervals β) : Prop :=
  ∀ a, m a = if a ∈ l then some (s.start a, s.last a) else none

omit [LinearOrder β] in
theorem Stores.mem {s : ItState β} {l : List Nat} {m : Intervals β} (stores : Stores s l m) {a : Nat}
    (stored : m a ≠ none) : a ∈ l := by
  by_contra out
  exact stored (by rw [stores a, if_neg out])

section
variable {rounds : Nat} {s : ItState β} {t : RbTree Nat} {m : Intervals β} (ok : ItOk s t)
  (stores : Stores s t.toList m)
include ok stores

/-- Every operation keeps the tree. -/
theorem ItOp.run_ok {op : ItOp β} (valid : op.Valid m) (enough : t.toList.length < rounds) :
    ∃ s' t', op.run rounds s = some s' ∧ ItOk s' t' ∧ Stores s' t'.toList (op.store m) ∧
      t'.toList.length ≤ t.toList.length + 1 := by
  cases op with
  | insert a start last =>
    obtain ⟨free, address⟩ := valid
    have fresh : a ∉ t.toList := by
      intro mem
      rw [stores a, if_pos mem] at free
      cases free
    obtain ⟨rb, t', run, ok', list⟩ := itInsert_ok ok fresh address start last enough
    refine ⟨_, t', run, ok', ?_, Nat.le_of_eq list.length_eq⟩
    intro b
    rw [ItOp.store]
    by_cases here : b = a
    · subst here
      simp [list.mem_iff]
    · simp [list.mem_iff, here, stores b]
  | remove a =>
    have mem := stores.mem valid
    obtain ⟨rb, t', run, ok', list⟩ := itRemove_ok ok mem enough
    refine ⟨_, t', run, ok', ?_, ?_⟩
    · intro b
      rw [ItOp.store]
      by_cases here : b = a
      · subst here
        simp [list, ok.shows.nodes.left.distinct.mem_erase_iff]
      · simp [list, here, stores b]
    · rw [list]
      exact Nat.le_trans length_erase_le (Nat.le_succ _)

theorem foldlM_ok {ops : List (ItOp β)} (valid : ItValid m ops)
    (enough : t.toList.length + ops.length < rounds) :
    ∃ s' t', ops.foldlM (ItOp.run rounds) s = some s' ∧ ItOk s' t' ∧
      Stores s' t'.toList (ops.foldl ItOp.store m) ∧ t'.toList.length < rounds := by
  let inv (rest : List (ItOp β)) (s : ItState β) : Prop := ∃ t' m', ItOk s t' ∧
    Stores s t'.toList m' ∧ ItValid m' rest ∧ t'.toList.length + rest.length < rounds ∧
    rest.foldl ItOp.store m' = ops.foldl ItOp.store m
  obtain ⟨s', run, t', m', ok', stores', _, large, rfl⟩ := foldlM_invariant inv
    (fun op rest s ⟨t, m, ok, stores, valid, enough, all⟩ => by
      rw [length_cons] at enough
      obtain ⟨s1, t1, run, ok1, stores1, longer⟩ := ItOp.run_ok ok stores valid.1
        (show t.toList.length < rounds by omega)
      exact ⟨s1, run, t1, _, ok1, stores1, valid.2, by omega, all⟩)
    ops s ⟨t, m, ok, stores, valid, enough, rfl⟩
  exact ⟨s', t', run, ok', stores', large⟩

end

/-- After every run from an empty tree, following `_iter_next` from `_iter_first` up to NULL gives
exactly the stored intervals that intersect the given one, once each and in the order of their
starts. The ends of the intervals may be in any order. -/
theorem itRun_query {rounds : Nat} {s : ItState β} (empty : s.rb.root = 0) {ops : List (ItOp β)}
    (valid : ItValid (fun _ => none) ops) (enough : ops.length < rounds) :
    ∃ s', ops.foldlM (ItOp.run rounds) s = some s' ∧ ∀ lo hi, ∃ found,
      itQuery rounds s' lo hi = some found ∧ found.Nodup ∧
      (found.Pairwise fun a b => ∀ x y, ops.foldl ItOp.store (fun _ => none) a = some x →
        ops.foldl ItOp.store (fun _ => none) b = some y → x.1 ≤ y.1) ∧
      ∀ a, a ∈ found ↔ ∃ start last,
        ops.foldl ItOp.store (fun _ => none) a = some (start, last) ∧ start ≤ hi ∧ lo ≤ last := by
  have ok : ItOk s nil := ⟨shows_nil empty, ⟨rfl, trivial, 0, rfl⟩, trivial, List.Pairwise.nil⟩
  obtain ⟨s', t, run, ok', stores, large⟩ := @foldlM_ok _ _ _ s nil (fun _ => none) ok
    (fun a => by simp [toList]) ops valid (by simpa [toList] using enough)
  refine ⟨s', run, fun lo hi => ⟨_, itQuery_eq ok' large, ?_, ?_, ?_⟩⟩
  · exact ok'.shows.nodes.left.distinct.filter _
  · refine (ok'.sorted.imp fun {a b} order x y here there => ?_).filter _
    rw [stores a] at here
    rw [stores b] at there
    split_ifs at here there
    cases here
    cases there
    exact order
  · intro a
    rw [stores a, answers, mem_filter, decide_eq_true_iff]
    by_cases member : a ∈ t.toList <;> simp

end IntervalTree

/-- Two equal intervals and one around them. Another one behind is removed again. -/
def overlapRun : List (ItOp Nat) :=
  [.insert 4 3 5, .insert 8 0 9, .insert 12 3 5, .insert 16 7 8, .remove 16]

theorem itRun_query_overlap : ∃ s', overlapRun.foldlM (ItOp.run 9)
        ⟨⟨fun _ => ⟨0, 0, 0⟩, 0, fun _ => 0⟩, fun _ => 0, fun _ => 0⟩ = some s' ∧
      ∃ found, itQuery 9 s' 6 7 = some found ∧ found.Nodup ∧ ∀ a, a ∈ found ↔ a = 8 := by
  have valid : ItValid (fun _ => none) overlapRun := by
    simp [overlapRun, ItValid, ItOp.Valid, ItOp.store]
  obtain ⟨s', run, query⟩ := @itRun_query Nat _ 9
    ⟨⟨fun _ => ⟨0, 0, 0⟩, 0, fun _ => 0⟩, fun _ => 0, fun _ => 0⟩ rfl overlapRun valid (by decide)
  obtain ⟨found, run', distinct, _, exact⟩ := query 6 7
  refine ⟨s', run, found, run', distinct, fun a => (exact a).trans ?_⟩
  simp only [overlapRun, foldl_cons, foldl_nil, ItOp.store, Function.update_apply]
  split_ifs <;> simp_all

end Linux318.Guarantees
