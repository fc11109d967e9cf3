import Linux318.Source.Rbtree.IntervalTree

/-!
The queries of an interval tree. A search in a subtree gives the first answer in it, and going on
from an answer gives the first one behind it.
-/
namespace Linux318.Source.Rbtree
open Lib.RedBlack Lib.RedBlack.RbTree

variable {k : List (Frame Nat)} {l : List Nat} {a fuel : Nat} {c : Color}

section Query

variable {β : Type} [LinearOrder β] {s : ItState β} {lo hi : β}

def answers (s : ItState β) (lo hi : β) (l : List Nat) : List Nat :=
  l.filter fun a => s.start a ≤ hi ∧ lo ≤ s.last a

def firstOf (l : List Nat) : Nat := l.head?.getD 0

theorem answers_append (l m : List Nat) : answers s lo hi (l ++ m) = answers s lo hi l ++
    answers s lo hi m :=
  List.filter_append ..

theorem answers_eq_nil (short : ∀ a ∈ l, ¬ lo ≤ s.last a) : answers s lo hi l = [] :=
  List.filter_eq_nil_iff.mpr fun a mem => by simp [short a mem]

theorem answers_late (late : ∀ a ∈ l, hi < s.start a) : answers s lo hi l = [] :=
  List.filter_eq_nil_iff.mpr fun a mem => by simp [not_le.mpr (late a mem)]

/-- If some interval of the first part reaches `lo`, the first answer is in it. -/
theorem firstOf_append {m : List Nat} (sorted : (l ++ m).Pairwise fun a b => s.start a ≤ s.start b)
    (reach : ∃ a ∈ l, lo ≤ s.last a) :
    firstOf (answers s lo hi (l ++ m)) = firstOf (answers s lo hi l) := by
  rw [answers_append]
  cases here : answers s lo hi l with
  | cons a rest => rfl
  | nil =>
    obtain ⟨a, mem, reaches⟩ := reach
    have late : hi < s.start a := by
      by_contra early
      have answer : a ∈ answers s lo hi l :=
        List.mem_filter.mpr ⟨mem, by simp [not_lt.mp early, reaches]⟩
      rw [here] at answer
      cases answer
    rw [List.nil_append, answers_late fun b later =>
      late.trans_le ((List.pairwise_append.mp sorted).2.2 a mem b later)]

theorem subtreeSearch_eq {t : RbTree Nat} {parent : Nat} (holds : Holds s.rb.node parent t)
    (nodes : Nodes t.toList)
    (exact : Exact (fun a => computeSubtreeLast (s.last a)) s.rb.augmented t)
    (sorted : t.toList.Pairwise fun a b => s.start a ≤ s.start b)
    (reach : ∃ a ∈ t.toList, lo ≤ s.last a) (enough : t.toList.length ≤ fuel) :
    subtreeSearch s lo hi fuel (ptr t) = some (firstOf (answers s lo hi t.toList)) := by
  induction t generalizing parent fuel with
  | nil =>
    obtain ⟨a, none, _⟩ := reach
    cases none
  | node c l a r ihl ihr =>
    obtain ⟨fuel, rfl⟩ : ∃ m, fuel = m + 1 := ⟨fuel - 1, by simp [toList] at enough; omega⟩
    obtain ⟨here, holdsL, holdsR⟩ := holds
    obtain ⟨_, exactL, exactR⟩ := exact
    have nodesL : Nodes l.toList := nodes.sublist (by simp [toList])
    have nodesR : Nodes r.toList := nodes.sublist (by simp [toList])
    have someA := (nodes.address a (by simp [toList])).1
    have goLeft := subtreeLast_bound nodesL exactL lo
    have goRight := subtreeLast_bound nodesR exactR lo
    have lengths : l.toList.length ≤ fuel ∧ r.toList.length ≤ fuel := by
      simp [toList] at enough
      omega
    obtain ⟨sortedL, sortedR, _⟩ := List.pairwise_append.mp sorted
    obtain ⟨above, sortedR⟩ := List.pairwise_cons.mp sortedR
    simp only [subtreeSearch, ptr_node, load_eq someA, here, Option.bind_eq_bind, Option.bind_some,
      goLeft, goRight]
    by_cases left : ∃ b ∈ l.toList, lo ≤ s.last b
    · rw [if_pos left, ihl holdsL nodesL exactL sortedL left lengths.1]
      exact congrArg some (firstOf_append sorted left).symm
    rw [if_neg left]
    push Not at left
    have skip : answers s lo hi (RbTree.node c l a r).toList = answers s lo hi (a :: r.toList) := by
      rw [toList, answers_append, answers_eq_nil fun b mem => not_le.mpr (left b mem),
        List.nil_append]
    rw [skip]
    by_cases early : s.start a ≤ hi
    · rw [if_pos early]
      by_cases reaches : lo ≤ s.last a
      · simp [answers, early, reaches, firstOf]
      have skipA : answers s lo hi (a :: r.toList) = answers s lo hi r.toList := by
        simp [answers, reaches]
      rw [if_neg reaches, skipA]
      by_cases right : ∃ b ∈ r.toList, lo ≤ s.last b
      · rw [if_pos right, ihr holdsR nodesR exactR sortedR right lengths.2]
      rw [if_neg right]
      push Not at right
      rw [answers_eq_nil fun b mem => not_le.mpr (right b mem)]
      rfl
    · rw [if_neg early, answers_late]
      · rfl
      intro b mem
      rcases List.mem_cons.mp mem with rfl | mem
      · exact not_le.mp early
      · exact (not_le.mp early).trans_le (above b mem)

/-- The frames from the first one on that is reached from the left. -/
def leftUp (k : List (Frame Nat)) : List (Frame Nat) := k.dropWhile fun f => f.side = .right

theorem behind_leftUp (k : List (Frame Nat)) : behind (leftUp k) = behind k := by
  induction k with
  | nil => rfl
  | cons f k ih =>
    cases side : f.side with
    | left => simp [leftUp, side]
    | right =>
      rw [behind, ← ih]
      simp [leftUp, side]

theorem leftUp_spec (k : List (Frame Nat)) :
    ∃ ups, k = ups ++ leftUp k ∧ ∀ f k', leftUp k = f :: k' → f.side = .left := by
  refine ⟨k.takeWhile fun f => f.side = .right, (List.takeWhile_append_dropWhile ..).symm, ?_⟩
  intro f k' same
  have first := List.head?_dropWhile_not (fun f : Frame Nat => f.side = .right) k
  rw [show k.dropWhile (fun f => decide (f.side = .right)) = f :: k' from same] at first
  cases side : f.side with
  | left => rfl
  | right => simp [side] at first

omit [LinearOrder β] in
theorem Shows.parent {rb : RbState β} {t : RbTree Nat} (shows : Shows rb k t)
    (some : t ≠ nil) : rbParent (rb.node (ptr t)).parentColor = topKey k := by
  cases t with
  | nil => exact absurd rfl some
  | node c l a r =>
    rw [ptr_node, shows.focus.1, rbParent_word (topKey_aligned shows.nodes.right)]

omit [LinearOrder β] in
theorem climb_eq {t : RbTree Nat} {bound : Nat} (shows : Shows s.rb k t) (some : t ≠ nil)
    (enough : k.length < bound) : climb s bound (ptr t) = .some (topKey (leftUp k)) := by
  induction k generalizing t bound with
  | nil =>
    obtain ⟨bound, rfl⟩ : ∃ m, bound = m + 1 := ⟨bound - 1, by simp at enough; omega⟩
    have someT := (ptr_eq_zero shows.nodes.left).not.mpr some
    have parent : rbParent (s.rb.node (ptr t)).parentColor = 0 := shows.parent some
    simp only [climb, load_eq someT, Option.bind_eq_bind, Option.bind_some, parent, if_true]
    rfl
  | cons f k ih =>
    obtain ⟨bound, rfl⟩ : ∃ m, bound = m + 1 := ⟨bound - 1, by simp at enough; omega⟩
    have someT := (ptr_eq_zero shows.nodes.left).not.mpr some
    have someF := (shows.nodes.address f.key (by simp [mem_around_cons])).1
    have parent : rbParent (s.rb.node (ptr t)).parentColor = f.key := shows.parent some
    simp only [climb, load_eq someT, load_eq someF, Option.bind_eq_bind, Option.bind_some, parent,
      if_neg someF, shows.above.1]
    cases side : f.side with
    | left =>
      have notSib : ptr t ≠ ptr f.sib := by
        refine ptr_ne (fun mem => ?_) someT
        exact shows.nodes.apart (mem_around_cons.mpr (.inr (.inl mem))) (ptr_mem some)
      rw [record, if_neg notSib]
      simp [leftUp, side]
    | right =>
      rw [record, if_pos rfl]
      have up := ih (shows_cons.mp shows) make_ne_nil
        (show k.length < bound by simp at enough; omega)
      rw [ptr_make] at up
      rw [up]
      simp [leftUp, side]

theorem answers_cons_late (sorted : (a :: l).Pairwise fun a b => s.start a ≤ s.start b)
    (late : hi < s.start a) : answers s lo hi (a :: l) = [] := by
  apply answers_late
  intro b mem
  rcases List.mem_cons.mp mem with rfl | mem
  · exact late
  · exact late.trans_le ((List.pairwise_cons.mp sorted).1 b mem)

variable {t : RbTree Nat} {bound : Nat}

theorem ItOk.at_place (ok : ItOk s t) {l r : RbTree Nat} (place : t = plug k (.node c l a r)) :
    Shows s.rb k (.node c l a r) ∧
      Exact (fun a => computeSubtreeLast (s.last a)) s.rb.augmented r ∧
      (a :: (r.toList ++ behind k)).Pairwise fun a b => s.start a ≤ s.start b := by
  obtain ⟨shows, _, exact, sorted⟩ := ok
  subst place
  have shows := shows_plug.mpr shows
  refine ⟨shows, ((exact_plug.mp exact).1).2.2, ?_⟩
  refine sorted.sublist ?_
  rw [toList_plug, toList]
  simp

section
variable (ok : ItOk s t) (large : t.toList.length < bound)
include ok large

/-- Going on from a node gives the first answer behind it. -/
theorem iterNextLoop_eq {l r : RbTree Nat} (place : t = plug k (.node c l a r))
    (enough : k.length < fuel) : iterNextLoop bound s lo hi fuel a =
      some (firstOf (answers s lo hi (r.toList ++ behind k))) := by
  induction fuel generalizing k c l r a with
  | zero => omega
  | succ fuel ih =>
    obtain ⟨shows, exactR, sorted⟩ := ok.at_place place
    have size : t.toList.length = (node c l a r).toList.length + (around k).length := by
      rw [place, (perm_plug k _).length_eq, List.length_append]
    have nodesR : Nodes r.toList := shows.nodes.left.sublist (by simp [toList])
    have someA := (shows.nodes.left.address a (by simp [toList])).1
    simp only [iterNextLoop, load_eq someA, shows.focus.1, Option.bind_eq_bind, Option.bind_some,
      subtreeLast_bound nodesR exactR lo]
    by_cases right : ∃ b ∈ r.toList, lo ≤ s.last b
    · have short : r.toList.length ≤ bound := by
        simp [toList] at size
        omega
      rw [if_pos right, firstOf_append (List.pairwise_cons.mp sorted).2 right]
      exact subtreeSearch_eq shows.focus.2.2 nodesR exactR
        (List.pairwise_append.mp (List.pairwise_cons.mp sorted).2).1 right short
    rw [if_neg right]
    push Not at right
    rw [answers_append, answers_eq_nil fun b mem => not_le.mpr (right b mem)]
    have short : k.length < bound := by
      have := length_le_around k
      omega
    have up := climb_eq shows (by simp) short
    rw [ptr_node] at up
    rw [up, Option.bind_some, ← behind_leftUp k]
    obtain ⟨ups, split, fromLeft⟩ := leftUp_spec k
    cases above : leftUp k with
    | nil => rfl
    | cons f k' =>
      have side := fromLeft f k' above
      rw [above] at split
      have place' : t = plug k' (.node f.color (plug ups (.node c l a r)) f.key f.sib) := by
        rw [place, split, plug_append, plug, side]
        rfl
      obtain ⟨shows', _, sorted'⟩ := ok.at_place place'
      have someF := (shows'.nodes.left.address f.key (by simp [toList])).1
      have after : behind (f :: k') = f.key :: (f.sib.toList ++ behind k') := by
        simp [behind, side]
      rw [topKey_cons, if_neg someF, after]
      by_cases late : hi < s.start f.key
      · rw [if_pos late, answers_cons_late sorted' late]
        rfl
      rw [if_neg late]
      by_cases reaches : lo ≤ s.last f.key
      · simp [answers, not_lt.mp late, reaches, firstOf]
      have skip : answers s lo hi (f.key :: (f.sib.toList ++ behind k')) =
          answers s lo hi (f.sib.toList ++ behind k') := by
        simp [answers, reaches]
      rw [if_neg reaches, skip]
      refine ih place' ?_
      have := congrArg List.length split
      simp at this
      omega

theorem iterNext_eq {pre post : List Nat} (split : t.toList = pre ++ a :: post) :
    iterNext bound s a lo hi = some (firstOf (answers s lo hi post)) := by
  obtain ⟨k, c, l, r, place⟩ := exists_place (show a ∈ t.toList by simp [split])
  have split' : t.toList = (before k ++ l.toList) ++ a :: (r.toList ++ behind k) := by
    rw [place, toList_plug, toList]
    simp
  have nodup := ok.shows.nodes.left.distinct
  rw [split] at nodup
  have same : post = r.toList ++ behind k := by
    refine ((List.append_cons_inj_of_notMem ?_ ?_).mp (split.symm.trans split')).2.2
    · exact fun mem => (List.nodup_append.mp nodup).2.2 a mem a (by simp) rfl
    · exact (List.nodup_cons.mp (List.nodup_append.mp nodup).2.1).1
  rw [same]
  refine iterNextLoop_eq ok large place ?_
  have size : t.toList.length = (node c l a r).toList.length + (around k).length := by
    rw [place, (perm_plug k _).length_eq, List.length_append]
  have := length_le_around k
  omega

theorem itFollow_eq {pre post : List Nat} (split : t.toList = pre ++ post)
    (enough : post.length < fuel) : itFollow bound s lo hi fuel (firstOf (answers s lo hi post)) =
      some (answers s lo hi post) := by
  induction fuel generalizing pre post with
  | zero => omega
  | succ fuel ih =>
    cases found : answers s lo hi post with
    | nil => rfl
    | cons a rest =>
      obtain ⟨skipped, left, rfl, _, _, behind⟩ := List.filter_eq_cons_iff.mp found
      have split' : t.toList = (pre ++ skipped) ++ a :: left := by rw [split, List.append_assoc]
      have someA := (ok.shows.nodes.left.address a (by simp [split'])).1
      have next : iterNext bound s a lo hi = _ := iterNext_eq ok large split'
      have follow := @ih (pre ++ skipped ++ [a]) left (by simp [split']) (by simp at enough; omega)
      rw [show answers s lo hi left = rest from behind] at next follow
      show itFollow bound s lo hi (fuel + 1) a = _
      simp [itFollow, if_neg someA, next, follow]

end

theorem iterFirst_eq (ok : ItOk s t) (large : t.toList.length ≤ bound) :
    iterFirst bound s lo hi = some (firstOf (answers s lo hi t.toList)) := by
  have root : s.rb.root = ptr t := ok.shows.root
  have reach := subtreeLast_bound ok.shows.nodes.left ok.exact lo
  rw [iterFirst, root]
  by_cases none : ptr t = 0
  · rw [(ptr_eq_zero ok.shows.nodes.left).mp none]
    rfl
  split_ifs with below
  · rw [answers_eq_nil]
    · rfl
    · intro a mem reaches
      exact absurd (reach.mpr ⟨a, mem, reaches⟩).2 (not_le.mpr below)
  · exact subtreeSearch_eq ok.shows.focus ok.shows.nodes.left ok.exact ok.sorted
      (reach.mp ⟨none, not_lt.mp below⟩) large

/-- A query gives the nodes whose intervals intersect the given one, in the order of the tree. -/
theorem itQuery_eq (ok : ItOk s t) (large : t.toList.length < bound) :
    itQuery bound s lo hi = some (answers s lo hi t.toList) := by
  rw [itQuery, iterFirst_eq ok large.le]
  exact itFollow_eq ok large (List.nil_append _).symm large

end Query

end Linux318.Source.Rbtree
