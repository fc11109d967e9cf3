import Mathlib.Order.MinMax
import Linux318.Source.Rbtree.Ops

/-!
# Interval trees

Source: include/linux/interval_tree_generic.h:40-191. The type of the endpoints is any linear order.
-/
namespace Linux318.Source.Rbtree
open Lib.RedBlack Function List

variable {path : List (Frame Nat)} {t : RbTree Nat} {fuel a : Nat}

/-- The nodes of a tree, with the endpoints of their intervals. `ITSUBTREE` is the augmented
value. -/
structure ItState (β : Type) where
  rb : RbState β
  start : Nat → β
  last : Nat → β

section Model

variable {β : Type} [LinearOrder β]

def computeSubtreeLast (last : β) (left right : Option β) : β :=
  let max := last
  let max :=
    match left with
    | some subtreeLast => if max < subtreeLast then subtreeLast else max
    | none => max
  match right with
  | some subtreeLast => if max < subtreeLast then subtreeLast else max
  | none => max

def itAugment (last : Nat → β) : RbAugmentCallbacks β :=
  rbDeclareCallbacks fun a => computeSubtreeLast (last a)

/-- The loop of `_insert`. The link is the child of `parent` on `side`, and has the value `link`. -/
def itInsertLoop (itStart : Nat → β) (start last : β) :
    Nat → RbState β → Nat → Nat → Side → Option (RbState β × Nat × Side)
  | 0, _, _, _, _ => none
  | rounds + 1, s, link, parent, side =>
    if link = 0 then some (s, parent, side)
    else do
      let n ← load s link
      let s :=
        if s.augmented link < last then
          { s with augmented := update s.augmented link last }
        else s
      if start < itStart link then itInsertLoop itStart start last rounds s n.left link .left
      else itInsertLoop itStart start last rounds s n.right link .right

/-- `_insert`, of a node with the interval [start, last]. -/
def itInsert (rounds : Nat) (s : ItState β) (node : Nat) (start last : β) : Option (ItState β) := do
  let itStart := update s.start node start
  let itLast := update s.last node last
  let (rb, parent, side) ← itInsertLoop itStart start last rounds s.rb s.rb.root 0 .left
  let rb := { rb with augmented := update rb.augmented node last }
  let rb ← rbLinkNode rb node parent side
  let rb ← rbInsert (itAugment itLast) rounds rb node
  some ⟨rb, itStart, itLast⟩

def itRemove (rounds : Nat) (s : ItState β) (node : Nat) : Option (ItState β) := do
  let rb ← rbEraseWith (itAugment s.last) rounds s.rb node
  some { s with rb := rb }

def subtreeSearch (s : ItState β) (start last : β) : Nat → Nat → Option Nat
  | 0, _ => none
  | rounds + 1, node => do
    let n ← load s.rb node
    if n.left ≠ 0 ∧ start ≤ s.rb.augmented n.left then subtreeSearch s start last rounds n.left
    else if s.start node ≤ last then
      if start ≤ s.last node then some node
      else if n.right ≠ 0 ∧ start ≤ s.rb.augmented n.right then
        subtreeSearch s start last rounds n.right
      else some 0
    else some 0

def iterFirst (rounds : Nat) (s : ItState β) (start last : β) : Option Nat :=
  if s.rb.root = 0 then some 0
  else if s.rb.augmented s.rb.root < start then some 0
  else subtreeSearch s start last rounds s.rb.root

/-- The inner loop of `_iter_next`: up to the first node that is reached from its left child, or
NULL. -/
def climb (s : ItState β) : Nat → Nat → Option Nat
  | 0, _ => none
  | rounds + 1, node => do
    let n ← load s.rb node
    let rb := rbParent n.parentColor
    if rb = 0 then some 0
    else do
      let p ← load s.rb rb
      if node = p.right then climb s rounds rb else some rb

/-- The loop of `_iter_next`. `bound` is for the loops inside. -/
def iterNextLoop (bound : Nat) (s : ItState β) (start last : β) : Nat → Nat → Option Nat
  | 0, _ => none
  | rounds + 1, node => do
    let n ← load s.rb node
    if n.right ≠ 0 ∧ start ≤ s.rb.augmented n.right then subtreeSearch s start last bound n.right
    else do
      let node ← climb s bound node
      if node = 0 then some 0
      else if last < s.start node then some 0
      else if start ≤ s.last node then some node
      else iterNextLoop bound s start last rounds node

def iterNext (rounds : Nat) (s : ItState β) (node : Nat) (start last : β) : Option Nat :=
  iterNextLoop rounds s start last rounds node

/-- The nodes that `_iter_next` gives one after the other, up to NULL. -/
def itFollow (bound : Nat) (s : ItState β) (start last : β) : Nat → Nat → Option (List Nat)
  | 0, _ => none
  | rounds + 1, node =>
    if node = 0 then some []
    else do
      let next ← iterNext bound s node start last
      let rest ← itFollow bound s start last rounds next
      some (node :: rest)

def itQuery (rounds : Nat) (s : ItState β) (start last : β) : Option (List Nat) := do
  let first ← iterFirst rounds s start last
  itFollow rounds s start last rounds first

end Model

open Lib.RedBlack.RbTree

section Largest

variable {β : Type} [LinearOrder β]

theorem computeSubtreeLast_eq (last : β) (left right : Option β) :
    computeSubtreeLast last left right = right.elim (left.elim last (max last)) fun y =>
      max (left.elim last (max last)) y := by
  cases left <;> cases right <;> simp [computeSubtreeLast, max_def_lt]

theorem rotationLaw_subtreeLast (last : Nat → β) :
    RotationLaw fun a => computeSubtreeLast (last a) := by
  intro g p x y u
  simp only [computeSubtreeLast_eq]
  cases x <;> cases y <;> cases u <;> simp [max_comm, max_left_comm]

variable {last : Nat → β} {augmented : Nat → β}

theorem le_computeSubtreeLast {lo d : β} {x y : Nat} :
    lo ≤ computeSubtreeLast d (childValue augmented x) (childValue augmented y) ↔
      lo ≤ d ∨ (x ≠ 0 ∧ lo ≤ augmented x) ∨ (y ≠ 0 ∧ lo ≤ augmented y) := by
  rw [computeSubtreeLast_eq]
  unfold childValue
  split_ifs <;> simp_all [or_assoc]

/-- Some interval of the subtree reaches `lo`. -/
theorem subtreeLast_bound (nodes : Nodes t.toList)
    (exact : Exact (fun a => computeSubtreeLast (last a)) augmented t) (lo : β) :
    (ptr t ≠ 0 ∧ lo ≤ augmented (ptr t)) ↔ ∃ a ∈ t.toList, lo ≤ last a := by
  induction t with
  | nil => simp [toList]
  | node c l a r ihl ihr =>
    obtain ⟨here, left, right⟩ := exact
    have someA := (nodes.address a (by simp [toList])).1
    rw [ptr_node, here, le_computeSubtreeLast, ihl (nodes.sublist (by simp [toList])) left,
      ihr (nodes.sublist (by simp [toList])) right]
    simp only [toList, mem_append, mem_cons, or_and_right, exists_or, exists_eq_left]
    rw [and_iff_right someA, or_left_comm]

end Largest

section Insert

variable {β : Type} [LinearOrder β] {itStart itLast : Nat → β}

def raise (last : β) (augmented : Nat → β) (path : List (Frame Nat)) (a : Nat) : β :=
  if a ∈ path.map Frame.key then max (augmented a) last else augmented a

theorem raise_nil (last : β) (augmented : Nat → β) : raise last augmented [] = augmented := by
  funext a
  simp [raise]

theorem raise_append (last : β) (augmented : Nat → β) (path : List (Frame Nat)) (f : Frame Nat) :
    raise last (update augmented f.key (max (augmented f.key) last)) path =
      raise last augmented (path ++ [f]) := by
  funext a
  by_cases here : a = f.key
  · subst here
    simp [raise]
  · simp [raise, here]

theorem ite_raise (s : RbState β) (a : Nat) (last : β) :
    (if s.augmented a < last then { s with augmented := update s.augmented a last } else s) =
      { s with augmented := update s.augmented a (max (s.augmented a) last) } := by
  split_ifs with less
  · rw [max_eq_right less.le]
  · rw [max_eq_left (not_lt.mp less), update_eq_self]

theorem LinkOf.append {f : Frame Nat} {parent parent' : Nat} {side side' : Side}
    (link : LinkOf path f.key f.side parent' side') :
    LinkOf (path ++ [f]) parent side parent' side' := by
  cases path with
  | nil => exact link
  | cons g path => exact link

/-- The walk of `_insert` ends at the place of the new node. -/
theorem itInsertLoop_eq {start last : β} {t : RbTree Nat} {s : RbState β} {parent : Nat} {side : Side}
    {fuel : Nat} (holds : Holds s.node parent t) (nodes : Nodes t.toList)
    (sorted : t.toList.Pairwise fun a b => itStart a ≤ itStart b) (enough : t.toList.length < fuel) :
    ∃ path parent' side', itInsertLoop itStart start last fuel s (ptr t) parent side =
        some ({ s with augmented := raise last s.augmented path }, parent', side') ∧
      t = plug path nil ∧ (∀ a ∈ before path, itStart a ≤ start) ∧
      (∀ a ∈ behind path, start ≤ itStart a) ∧ LinkOf path parent side parent' side' := by
  obtain ⟨fuel, rfl⟩ : ∃ m, fuel = m + 1 := ⟨fuel - 1, by omega⟩
  induction t generalizing s parent side fuel with
  | nil =>
    refine ⟨[], parent, side, ?_, rfl, by simp [before], by simp [behind], rfl, rfl⟩
    rw [raise_nil, itInsertLoop, ptr_nil, if_pos rfl]
  | node c l a r ihl ihr =>
    obtain ⟨here, holdsL, holdsR⟩ := holds
    have someA := (nodes.address a (by simp [toList])).1
    obtain ⟨fuel, rfl⟩ : ∃ m, fuel = m + 1 := ⟨fuel - 1, by simp [toList] at enough; omega⟩
    simp only [toList, pairwise_append, pairwise_cons, mem_cons] at sorted
    obtain ⟨sortedL, ⟨aboveA, sortedR⟩, below⟩ := sorted
    rw [ptr_node, itInsertLoop, if_neg someA, load_eq someA, here]
    simp only [Option.bind_eq_bind, Option.bind_some, ite_raise]
    by_cases less : start < itStart a
    · obtain ⟨path, parent', side', run, whole, le, ge, link⟩ := @ihl
        { s with augmented := update s.augmented a (max (s.augmented a) last) } a .left
        holdsL (nodes.sublist (by simp [toList])) sortedL fuel (by simp [toList] at enough; omega)
      refine ⟨path ++ [⟨.left, c, a, r⟩], parent', side', ?_, ?_, ?_, ?_, link.append⟩
      · rw [if_pos less, run, raise_append last s.augmented path ⟨.left, c, a, r⟩]
      · rw [plug_append, ← whole]
        rfl
      · simpa [before_append, before] using le
      intro b mem
      simp only [behind_append, behind, mem_append, mem_cons, append_nil] at mem
      rcases mem with inner | rfl | right
      · exact ge b inner
      · exact less.le
      · exact less.le.trans (aboveA b right)
    obtain ⟨path, parent', side', run, whole, le, ge, link⟩ := @ihr
      { s with augmented := update s.augmented a (max (s.augmented a) last) } a .right
      holdsR (nodes.sublist (by simp [toList])) sortedR fuel (by simp [toList] at enough; omega)
    refine ⟨path ++ [⟨.right, c, a, l⟩], parent', side', ?_, ?_, ?_, ?_, link.append⟩
    · rw [if_neg less, run, raise_append last s.augmented path ⟨.right, c, a, l⟩]
    · rw [plug_append, ← whole]
      rfl
    · intro b mem
      simp only [before_append, before, mem_append, mem_cons, nil_append,
        not_mem_nil, or_false] at mem
      rcases mem with (left | rfl) | inner
      · exact (below b left a (.inl rfl)).trans (not_lt.mp less)
      · exact not_lt.mp less
      · exact le b inner
    · simpa [behind_append, behind] using ge

theorem computeAt_raise (side : Side) (last : β) (a : Nat) (child sib : Option β) :
    computeAt (fun a => computeSubtreeLast (itLast a)) side a
        (some (child.elim last (max · last))) sib =
      max (computeAt (fun a => computeSubtreeLast (itLast a)) side a child sib) last := by
  cases side <;> simp only [computeAt, computeSubtreeLast_eq] <;> cases child <;> cases sib <;>
    simp [max_comm, max_left_comm]

/-- The values above a place, when a node with a larger or equal endpoint is added there. -/
theorem ExactAbove.raise (last : β) {augmented augmented' itLast' : Nat → β} {child child' : Nat}
    (exact : ExactAbove (fun a => computeSubtreeLast (itLast a)) augmented child path)
    (nodes : Nodes (around path))
    (raised : ∀ f ∈ path, augmented' f.key = max (augmented f.key) last)
    (same : ∀ a ∈ around path, a ∉ path.map Frame.key → augmented' a = augmented a)
    (sameLast : ∀ a ∈ around path, itLast' a = itLast a) (value : childValue augmented' child' =
      some ((childValue augmented child).elim last (max · last))) :
    ExactAbove (fun a => computeSubtreeLast (itLast' a)) augmented' child' path := by
  induction path generalizing child child' with
  | nil => trivial
  | cons f path ih =>
    obtain ⟨here, sib, above⟩ := exact
    have flat := (nodes_perm (perm_around f path)).mp nodes
    have notKeys : ∀ a ∈ f.sib.toList, a ∉ (f :: path).map Frame.key := by
      intro a mem other
      rcases mem_cons.mp other with rfl | inner
      · exact (nodup_cons.mp flat.distinct).1 (mem_append_left _ mem)
      · obtain ⟨g, inPath, rfl⟩ := mem_map.mp inner
        exact flat.tail.apart (key_mem_around inPath) mem
    have inSib : ∀ a ∈ f.sib.toList, a ∈ around (f :: path) := fun a mem =>
      mem_around_cons.mpr (.inr (.inl mem))
    have sameSib : ∀ a ∈ f.sib.toList, augmented' a = augmented a := fun a mem =>
      same a (inSib a mem) (notKeys a mem)
    have someF := (nodes.address f.key (mem_around_cons.mpr (.inl rfl))).1
    have newF := raised f (mem_cons_self ..)
    have lastF := sameLast f.key (mem_around_cons.mpr (.inl rfl))
    refine ⟨?_, (sib.congr sameSib).recompute fun a mem => ?_, ih above flat.tail.right
      (fun g mem => raised g (mem_cons_of_mem f mem)) (fun a mem notIn => ?_)
      (fun a mem => sameLast a (mem_around_cons.mpr (.inr (.inr mem)))) ?_⟩
    · rw [newF, here, value, childValue_congr sameSib, ← computeAt_raise]
      cases f.side <;> simp only [computeAt, lastF]
    · rw [sameLast a (inSib a mem)]
    · refine same a (mem_around_cons.mpr (.inr (.inr mem))) fun other => ?_
      rcases mem_cons.mp other with rfl | inner
      · exact (nodup_cons.mp flat.distinct).1 (mem_append_right _ mem)
      · exact notIn inner
    · rw [childValue_of_ne someF, childValue_of_ne someF, newF]
      rfl

structure ItOk (s : ItState β) (t : RbTree Nat) : Prop where
  shows : Shows s.rb [] t
  tree : IsRedBlack t
  exact : Exact (fun a => computeSubtreeLast (s.last a)) s.rb.augmented t
  sorted : t.toList.Pairwise fun a b => s.start a ≤ s.start b

theorem itInsert_ok {s : ItState β} (ok : ItOk s t) (fresh : a ∉ t.toList)
    (address : a ≠ 0 ∧ a % 4 = 0) (start last : β) (enough : t.toList.length < fuel) :
    ∃ rb t', itInsert fuel s a start last =
        some ⟨rb, update s.start a start, update s.last a last⟩ ∧
      ItOk ⟨rb, update s.start a start, update s.last a last⟩ t' ∧
      t'.toList.Perm (a :: t.toList) := by
  obtain ⟨shows, tree, exact, sorted⟩ := ok
  have sameStart : ∀ b ∈ t.toList, update s.start a start b = s.start b := fun b mem =>
    update_of_ne (ne_of_mem_of_not_mem mem fresh) _ _
  have sorted' : t.toList.Pairwise fun b c =>
      update s.start a start b ≤ update s.start a start c :=
    sorted.imp_of_mem fun inB inC le => by rwa [sameStart _ inB, sameStart _ inC]
  obtain ⟨path, parent, side, run, rfl, le, ge, link⟩ :=
    @itInsertLoop_eq _ _ (update s.start a start) start last t s.rb 0 .left fuel shows.focus
      shows.nodes.left sorted' enough
  have shows' := shows_plug.mpr shows
  have fresh' : a ∉ around path := fun other => fresh ((perm_plug path nil).mem_iff.mpr other)
  have nodes : Nodes (around path) := shows'.nodes.right
  obtain ⟨augmented, haug⟩ : ∃ augmented, augmented =
    update (raise last s.rb.augmented path) a last := ⟨_, rfl⟩
  have fits : Exact (fun b => computeSubtreeLast (update s.last a last b)) augmented
      (plug path (.node .red nil a nil)) := by
    refine exact_plug.mpr ⟨⟨?_, trivial, trivial⟩, (exact_plug.mp exact).2.raise last nodes
      (fun f mem => ?_) (fun b mem notIn => ?_) (fun b mem => ?_) ?_⟩
    · simp only [haug, update_self]
      rfl
    · have ne : f.key ≠ a := ne_of_mem_of_not_mem (key_mem_around mem) fresh'
      rw [haug, update_of_ne ne, raise, if_pos (mem_map_of_mem mem)]
    · rw [haug, update_of_ne (ne_of_mem_of_not_mem mem fresh'), raise, if_neg notIn]
    · exact update_of_ne (ne_of_mem_of_not_mem mem fresh') _ _
    · rw [ptr_node, childValue_of_ne address.1, haug, update_self]
      rfl
  obtain ⟨rb, t', inserted, tracked, tree', list⟩ := @insertAt_tracked _
    (itAugment (update s.last a last)) _ _ { s.rb with augmented := augmented }
    (tracks_rbDeclareCallbacks (rotationLaw_subtreeLast _)) path a parent side .left fuel
    ⟨shows'.focus, shows'.above, shows'.root, shows'.nodes⟩ tree fresh' address link enough fits
  refine ⟨rb, t', ?_, ⟨tracked.shows, tree', tracked.fits, ?_⟩, ?_⟩
  · have root : s.rb.root = ptr (plug path nil) := shows.root
    obtain ⟨rb1, linked, balanced⟩ := Option.bind_eq_some_iff.mp inserted
    rw [haug] at linked
    rw [← root] at run
    simp [itInsert, run, linked, balanced]
  · have split : t'.toList = before path ++ a :: behind path := by
      rw [list, toList_plug]
      simp [toList]
    rw [toList_plug, toList, append_nil, pairwise_append] at sorted'
    obtain ⟨sortedBefore, sortedBehind, across⟩ := sorted'
    have newStart : update s.start a start a = start := update_self ..
    rw [split]
    refine pairwise_append.mpr ⟨sortedBefore, pairwise_cons.mpr ⟨fun b mem => ?_,
      sortedBehind⟩, fun b mem c later => ?_⟩
    · show update s.start a start a ≤ _
      rw [newStart]
      exact ge b mem
    rcases mem_cons.mp later with rfl | later
    · show _ ≤ update s.start c start c
      rw [newStart]
      exact le b mem
    · exact across b mem c later
  · rw [list, toList_plug, toList_plug]
    simp only [append_assoc]
    exact perm_middle

theorem itRemove_ok {s : ItState β} (ok : ItOk s t) (mem : a ∈ t.toList)
    (enough : t.toList.length < fuel) :
    ∃ rb t', itRemove fuel s a = some { s with rb := rb } ∧ ItOk { s with rb := rb } t' ∧
      t'.toList = t.toList.erase a := by
  obtain ⟨rb, t', run, tracked, tree', list⟩ := erase_tracked
    (tracks_rbDeclareCallbacks (rotationLaw_subtreeLast s.last)) ⟨ok.shows, ok.exact⟩ ok.tree mem
    enough
  refine ⟨rb, t', ?_, ⟨tracked.shows, tree', tracked.fits, ?_⟩, list⟩
  · rw [itRemove, itAugment, run]
    rfl
  · rw [list]
    exact ok.sorted.sublist (erase_sublist ..)

end Insert

end Linux318.Source.Rbtree
