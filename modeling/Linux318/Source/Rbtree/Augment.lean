import Linux318.Source.Rbtree.Heap

/-!
What the callbacks of a tree keep. `E` says that the values fit a tree, `A` that they fit the nodes
above a place, where the value of the innermost of them may be out of date.
-/
namespace Linux318.Source.Rbtree
open Lib.RedBlack Lib.RedBlack.RbTree Function

variable {k path : List (Frame Nat)} {t : RbTree Nat} {node : Nat → RbNode} {a : Nat} {side : Side}

/-- The nodes of a path in memory: each has its children, and the next one as its parent. -/
def Climbs (node : Nat → RbNode) (stop : Nat) : Nat → List (Frame Nat) → Prop
  | _, [] => True
  | child, f :: k => (node f.key).child f.side = child ∧ (node f.key).child f.side.other = ptr f.sib ∧
      rbParent (node f.key).parentColor = (if k = [] then stop else topKey k) ∧
      Climbs node stop f.key k

structure Tracks {α : Type} (augment : RbAugmentCallbacks α) (E : (Nat → α) → RbTree Nat → Prop)
    (A : (Nat → α) → List (Frame Nat) → Prop) : Prop where
  recolor : ∀ {augmented t t'}, bare t = bare t' → E augmented t → E augmented t'
  rotate : ∀ {augmented k side c c' x p y g u} (node : Nat → RbNode) (d d' : Color),
    Nodes ((make side c (make side c' x p y) g u).toList ++ around k) →
    (node g).child side = ptr y → (node g).child side.other = ptr u →
    E augmented (plug k (make side c (make side c' x p y) g u)) →
    ∃ augmented', augment.rotate node augmented g p = some augmented' ∧
      E augmented' (plug k (make side d x p (make side d' y g u)))
  whole : ∀ augmented, A augmented []
  drop : ∀ {augmented k side c a t}, E augmented (plug k (make side c nil a t)) →
    E augmented t ∧ A augmented k
  copy : ∀ {augmented k c l old path c' new r} (node : Nat → RbNode),
    Nodes ((RbTree.node c l old (plug path (.node c' nil new r))).toList ++ around k) →
    E augmented (plug k (.node c l old (plug path (.node c' nil new r)))) →
    ∃ augmented', augment.copy node augmented old new = some augmented' ∧ E augmented' r ∧
      A augmented' path ∧ A augmented' (⟨.right, c, new, l⟩ :: k)
  propagate : ∀ {rounds node augmented path k t}, E augmented t → A augmented path → A augmented k →
    Nodes (t.toList ++ around (path ++ k)) →
    Climbs node (topKey k) (ptr t) path → path.length < rounds →
    ∃ augmented', augment.propagate rounds node augmented (topKey (path ++ k)) (topKey k) =
      some augmented' ∧ E augmented' (plug path t) ∧ A augmented' k

theorem tracks_dummyCallbacks {α : Type} :
    Tracks (dummyCallbacks : RbAugmentCallbacks α) (fun _ _ => True) (fun _ _ => True) where
  recolor _ _ := trivial
  rotate _ _ _ _ _ _ _ := ⟨_, rfl, trivial⟩
  whole _ := trivial
  drop _ := ⟨trivial, trivial⟩
  copy _ _ _ := ⟨_, rfl, trivial, trivial, trivial⟩
  propagate _ _ _ _ _ _ := ⟨_, rfl, trivial, trivial⟩

section Exact

variable {α : Type} (compute : Nat → Option α → Option α → α)

def computeAt (side : Side) (a : Nat) (near far : Option α) : α :=
  match side with
  | .left => compute a near far
  | .right => compute a far near

/-- Every node has the value that its data and the values of its children give. -/
def Exact (augmented : Nat → α) : RbTree Nat → Prop
  | nil => True
  | .node _ l a r =>
    augmented a = compute a (childValue augmented (ptr l)) (childValue augmented (ptr r)) ∧
      Exact augmented l ∧ Exact augmented r

def ExactAbove (augmented : Nat → α) : Nat → List (Frame Nat) → Prop
  | _, [] => True
  | child, f :: k =>
    augmented f.key = computeAt compute f.side f.key (childValue augmented child)
        (childValue augmented (ptr f.sib)) ∧
      Exact compute augmented f.sib ∧ ExactAbove augmented f.key k

/-- The same, but the value of the innermost node above the place may be out of date. -/
def ExactBehind (augmented : Nat → α) : List (Frame Nat) → Prop
  | [] => True
  | f :: k => Exact compute augmented f.sib ∧ ExactAbove compute augmented f.key k

variable {compute} {augmented augmented' : Nat → α}

theorem exact_make {c : Color} {near far : RbTree Nat} :
    Exact compute augmented (make side c near a far) ↔
      augmented a = computeAt compute side a (childValue augmented (ptr near))
          (childValue augmented (ptr far)) ∧
        Exact compute augmented near ∧ Exact compute augmented far := by
  cases side
  · rfl
  · exact and_congr_right fun _ => and_comm

theorem exact_plug : Exact compute augmented (plug k t) ↔
      Exact compute augmented t ∧ ExactAbove compute augmented (ptr t) k := by
  induction k generalizing t with
  | nil => exact (and_true _).symm.to_iff
  | cons f k ih =>
    rw [plug, ih, exact_make, ptr_make, ExactAbove]
    tauto

theorem ExactAbove.behind {child : Nat}
    (exact : ExactAbove compute augmented child k) : ExactBehind compute augmented k := by
  cases k with
  | nil => trivial
  | cons f k => exact exact.2

theorem childValue_congr (same : ∀ a ∈ t.toList, augmented' a = augmented a) :
    childValue augmented' (ptr t) = childValue augmented (ptr t) := by
  cases t with
  | nil => rfl
  | node c l a r => rw [childValue, childValue, ptr, same a (by simp [toList])]

theorem Exact.congr (exact : Exact compute augmented t)
    (same : ∀ a ∈ t.toList, augmented' a = augmented a) : Exact compute augmented' t := by
  induction t with
  | nil => trivial
  | node c l a r ihl ihr =>
    obtain ⟨here, left, right⟩ := exact
    simp only [toList, List.mem_append, List.mem_cons] at same
    have sameLeft := fun b mem => same b (.inl mem)
    have sameRight := fun b mem => same b (.inr (.inr mem))
    refine ⟨?_, ihl left sameLeft, ihr right sameRight⟩
    rw [same a (.inr (.inl rfl)), here, childValue_congr sameLeft, childValue_congr sameRight]

theorem Exact.recompute {compute' : Nat → Option α → Option α → α}
    (exact : Exact compute augmented t) (same : ∀ a ∈ t.toList, compute' a = compute a) :
    Exact compute' augmented t := by
  induction t with
  | nil => trivial
  | node c l a r ihl ihr =>
    obtain ⟨here, left, right⟩ := exact
    simp only [toList, List.mem_append, List.mem_cons] at same
    refine ⟨?_, ihl left fun b mem => same b (.inl mem),
      ihr right fun b mem => same b (.inr (.inr mem))⟩
    rw [same a (.inr (.inl rfl)), here]

theorem ExactAbove.congr {child child' : Nat} (exact : ExactAbove compute augmented child k)
    (value : childValue augmented' child' = childValue augmented child)
    (same : ∀ a ∈ around k, augmented' a = augmented a) :
    ExactAbove compute augmented' child' k := by
  induction k generalizing child child' with
  | nil => trivial
  | cons f k ih =>
    obtain ⟨here, sib, above⟩ := exact
    simp only [mem_around_cons] at same
    have sameSib := fun b mem => same b (.inr (.inl mem))
    have sameKey := same f.key (.inl rfl)
    refine ⟨?_, sib.congr sameSib, ih above ?_ fun a mem => same a (.inr (.inr mem))⟩
    · rw [sameKey, here, value, childValue_congr sameSib]
    · rw [childValue, childValue, sameKey]

theorem ExactBehind.congr (exact : ExactBehind compute augmented k)
    (same : ∀ a ∈ around k, augmented' a = augmented a) : ExactBehind compute augmented' k := by
  cases k with
  | nil => trivial
  | cons f k =>
    simp only [mem_around_cons] at same
    refine ⟨exact.1.congr fun a mem => same a (.inr (.inl mem)),
      exact.2.congr ?_ fun a mem => same a (.inr (.inr mem))⟩
    rw [childValue, childValue, same f.key (.inl rfl)]

theorem Exact.recolor {t' : RbTree Nat} (same : bare t = bare t')
    (exact : Exact compute augmented t) : Exact compute augmented t' := by
  have shape : ∀ t, Exact compute augmented t ↔ Exact compute augmented t.bare := fun t => by
    induction t with
    | nil => rfl
    | node c l a r ihl ihr =>
      have ptrs : ∀ t : RbTree Nat, ptr t.bare = ptr t := fun t => (by cases t <;> rfl)
      rw [bare, Exact, Exact, ihl, ihr, ptrs, ptrs]
  rwa [shape, ← same, ← shape]

/-- The value of a subtree does not change when it is rotated. -/
def RotationLaw (compute : Nat → Option α → Option α → α) : Prop :=
  ∀ g p x y u, compute g (some (compute p x y)) u = compute p x (some (compute g y u))

theorem RotationLaw.computeAt (law : RotationLaw compute) (side : Side) (g p : Nat)
    (x y u : Option α) : computeAt compute side g (some (computeAt compute side p x y)) u =
      computeAt compute side p x (some (computeAt compute side g y u)) := by
  cases side
  · exact law g p x y u
  · exact (law p g u y x).symm

theorem childValue_of_ne (some : a ≠ 0) (augmented : Nat → α) :
    childValue augmented a = .some (augmented a) := if_neg some

theorem rbCompute_of_children (some : a ≠ 0) (side : Side) : rbCompute compute node augmented a =
      .some (computeAt compute side a (childValue augmented ((node a).child side))
        (childValue augmented ((node a).child side.other))) := by
  rw [rbCompute, if_neg some]
  cases side <;> rfl

theorem exact_iff {parent : Nat} (holds : Holds node parent t) (nodes : Nodes t.toList) :
    Exact compute augmented t ↔
      ∀ a ∈ t.toList, rbCompute compute node augmented a = some (augmented a) := by
  induction t generalizing parent with
  | nil => exact ⟨fun _ a mem => absurd mem List.not_mem_nil, fun _ => trivial⟩
  | node c l a r ihl ihr =>
    obtain ⟨here, left, right⟩ := holds
    have someA := (nodes.address a (by simp [toList])).1
    have value : rbCompute compute node augmented a =
        some (compute a (childValue augmented (ptr l)) (childValue augmented (ptr r))) := by
      rw [rbCompute, if_neg someA, here]
    rw [Exact, ihl left (nodes.sublist (by simp [toList])),
      ihr right (nodes.sublist (by simp [toList]))]
    simp only [toList, List.mem_append, List.mem_cons]
    constructor
    · rintro ⟨exactA, exactL, exactR⟩ b (mem | rfl | mem)
      · exact exactL b mem
      · rw [value, exactA]
      · exact exactR b mem
    intro all
    refine ⟨?_, fun b mem => all b (.inl mem), fun b mem => all b (.inr (.inr mem))⟩
    have := all a (.inr (.inl rfl))
    rw [value, Option.some.injEq] at this
    exact this.symm

variable [DecidableEq α]

theorem rotate_exact (law : RotationLaw compute) {c c' : Color} {x y u : RbTree Nat} {p g : Nat}
    (node : Nat → RbNode) (d d' : Color)
    (nodes : Nodes ((make side c (make side c' x p y) g u).toList ++ around k))
    (near : (node g).child side = ptr y) (far : (node g).child side.other = ptr u)
    (exact : Exact compute augmented (plug k (make side c (make side c' x p y) g u))) :
    ∃ augmented', (rbDeclareCallbacks compute).rotate node augmented g p = some augmented' ∧
      Exact compute augmented' (plug k (make side d x p (make side d' y g u))) := by
  have someG := (nodes.address g (by simp [mem_make])).1
  have someP := (nodes.address p (by simp [mem_make])).1
  have nodup := nodes.distinct
  simp only [List.nodup_append', nodup_make, mem_make, List.disjoint_left] at nodup
  obtain ⟨⟨⟨notG, gu⟩, ⟨⟨px, py⟩, _, _, _⟩, _, pu⟩, _, out⟩ := nodup
  push Not at notG
  obtain ⟨ne, gx, gy⟩ := notG
  rw [exact_plug, exact_make, exact_make, ptr_make, ptr_make, childValue_of_ne someP] at exact
  obtain ⟨⟨atG, ⟨atP, exactX, exactY⟩, exactU⟩, above⟩ := exact
  obtain ⟨value, hvalue⟩ : ∃ value, value = computeAt compute side g
    (childValue augmented (ptr y)) (childValue augmented (ptr u)) := ⟨_, rfl⟩
  obtain ⟨augmented', haug⟩ : ∃ augmented', augmented' =
    update (update augmented p (augmented g)) g value := ⟨_, rfl⟩
  have same : ∀ a, a ≠ g → a ≠ p → augmented' a = augmented a := fun a notG notP => by
    rw [haug, update_of_ne notG, update_of_ne notP]
  have newP : augmented' p = augmented g := by
    rw [haug, update_of_ne (Ne.symm ne), update_self]
  have sameX : ∀ a ∈ x.toList, augmented' a = augmented a := fun a mem =>
    same a (ne_of_mem_of_not_mem mem gx) (ne_of_mem_of_not_mem mem px)
  have sameY : ∀ a ∈ y.toList, augmented' a = augmented a := fun a mem =>
    same a (ne_of_mem_of_not_mem mem gy) (ne_of_mem_of_not_mem mem py)
  have sameU : ∀ a ∈ u.toList, augmented' a = augmented a := fun a mem =>
    same a (ne_of_mem_of_not_mem mem gu) (ne_of_mem_of_not_mem mem (pu p (.inl rfl)))
  have sameAbove : ∀ a ∈ around k, augmented' a = augmented a := fun a mem =>
    same a (ne_of_mem_of_not_mem mem (out (.inl rfl)))
      (ne_of_mem_of_not_mem mem (out (.inr (.inl (.inl rfl)))))
  refine ⟨augmented', ?_, ?_⟩
  · have before : ∀ t : RbTree Nat, p ∉ t.toList →
        childValue (update augmented p (augmented g)) (ptr t) =
          childValue augmented (ptr t) := fun t notIn =>
      childValue_congr fun a mem =>
        update_of_ne (ne_of_mem_of_not_mem mem notIn) _ _
    simp [rbDeclareCallbacks, rbCompute_of_children someG side, near, far, before y py,
      before u (pu p (.inl rfl)), ← hvalue, haug]
  rw [exact_plug, exact_make, exact_make, ptr_make, ptr_make, childValue_of_ne someG,
    childValue_congr sameX, childValue_congr sameY, childValue_congr sameU]
  have newG : augmented' g = value := by rw [haug, update_self]
  refine ⟨⟨?_, exactX.congr sameX, ?_, exactY.congr sameY, exactU.congr sameU⟩,
    above.congr ?_ sameAbove⟩
  · rw [newP, newG, atG, atP, hvalue]
    exact law.computeAt side g p _ _ _
  · rw [newG, hvalue]
  · rw [childValue_of_ne someP, childValue_of_ne someG, newP]

/-- The value of the removed node goes to its successor. -/
theorem copy_exact {c c' : Color} {l r : RbTree Nat} {old new : Nat} (node : Nat → RbNode)
    (nodes : Nodes ((RbTree.node c l old (plug path (.node c' nil new r))).toList ++ around k))
    (exact : Exact compute augmented (plug k (.node c l old (plug path (.node c' nil new r))))) :
    ∃ augmented', (rbDeclareCallbacks compute).copy node augmented old new = some augmented' ∧
      Exact compute augmented' r ∧ ExactBehind compute augmented' path ∧
      ExactBehind compute augmented' (⟨.right, c, new, l⟩ :: k) := by
  rw [exact_plug, Exact, exact_plug] at exact
  obtain ⟨⟨_, exactL, ⟨_, _, exactR⟩, exactPath⟩, above⟩ := exact
  have someOld := (nodes.address old (by simp [toList])).1
  have someNew := (nodes.address new (by simp [toList, toList_plug])).1
  have nodup := nodes.distinct
  simp only [toList, toList_plug, List.nodup_append', List.nodup_cons, List.disjoint_left] at nodup
  refine ⟨_, rfl, exactR.congr fun a mem => update_of_ne ?_ _ _,
    exactPath.behind.congr fun a mem => update_of_ne ?_ _ _,
    exactL.congr fun a mem => update_of_ne ?_ _ _, above.congr ?_ fun a mem => update_of_ne ?_ _ _⟩
  · grind
  · grind [around]
  · grind
  · rw [childValue_of_ne someNew, ptr, childValue_of_ne someOld, update_self]
  · grind

theorem propagate_exact {fuel : Nat} (exact : Exact compute augmented t)
    (stale : ExactBehind compute augmented path) (above : ExactBehind compute augmented k)
    (nodes : Nodes (t.toList ++ around (path ++ k))) (climbs : Climbs node (topKey k) (ptr t) path)
    (enough : path.length < fuel) :
    ∃ augmented', (rbDeclareCallbacks compute).propagate fuel node augmented (topKey (path ++ k))
      (topKey k) = some augmented' ∧ Exact compute augmented' (plug path t) ∧
      ExactBehind compute augmented' k := by
  induction path generalizing t augmented fuel with
  | nil =>
    obtain ⟨fuel, rfl⟩ : ∃ n, fuel = n + 1 := ⟨fuel - 1, by simp at enough; omega⟩
    exact ⟨augmented, if_pos rfl, exact, above⟩
  | cons f path ih =>
    obtain ⟨fuel, rfl⟩ : ∃ n, fuel = n + 1 := ⟨fuel - 1, by simp at enough; omega⟩
    obtain ⟨near, far, parent, climbs⟩ := climbs
    have nodes' := (nodes_perm (perm_around_cons f (path ++ k) t)).mp nodes
    have key := (nodes'.address f.key (by simp [mem_make])).1
    have nodup := nodes'.distinct
    simp only [List.nodup_append', nodup_make, List.disjoint_left] at nodup
    obtain ⟨⟨⟨notT, notSib⟩, _⟩, _, out⟩ := nodup
    have notAround := out (mem_make.mpr (.inl rfl))
    rw [mem_around_append, not_or] at notAround
    obtain ⟨notPath, notAbove⟩ := notAround
    have notStop : f.key ≠ topKey k := fun same =>
      notAbove (same ▸ topKey_mem (same ▸ key))
    obtain ⟨value, hvalue⟩ : ∃ value, value = computeAt compute f.side f.key
      (childValue augmented (ptr t)) (childValue augmented (ptr f.sib)) := ⟨_, rfl⟩
    have computed : rbCompute compute node augmented f.key = some value := by
      rw [rbCompute_of_children key f.side, near, far, hvalue]
    have unfolded : (rbDeclareCallbacks compute).propagate (fuel + 1) node augmented
        (topKey (f :: path ++ k)) (topKey k) =
          if augmented f.key = value then some augmented
          else propagateLoop compute node (topKey k) fuel
            (update augmented f.key value) (topKey (path ++ k)) := by
      have next : (if path = [] then topKey k else topKey path) = topKey (path ++ k) := by
        cases path <;> simp
      simp [rbDeclareCallbacks, propagateLoop, if_neg notStop, computed, parent, next]
    rw [unfolded]
    by_cases same : augmented f.key = value
    · -- nothing changes from here on
      rw [if_pos same]
      exact ⟨augmented, rfl, exact_plug.mpr ⟨exact, same.trans hvalue, stale⟩, above⟩
    rw [if_neg same]
    have frame : ∀ a, a ≠ f.key → update augmented f.key value a = augmented a :=
      fun a ne => update_of_ne ne _ _
    have sameT : ∀ a ∈ t.toList, _ := fun a mem => frame a (ne_of_mem_of_not_mem mem notT)
    have sameSib : ∀ a ∈ f.sib.toList, _ := fun a mem =>
      frame a (ne_of_mem_of_not_mem mem notSib)
    refine ih (exact_make.mpr ⟨?_, exact.congr sameT, stale.1.congr sameSib⟩)
      (stale.2.behind.congr fun a mem => frame a (ne_of_mem_of_not_mem mem notPath))
      (above.congr fun a mem => frame a (ne_of_mem_of_not_mem mem notAbove))
      nodes' ?_ (by simpa using enough)
    · rw [update_self, childValue_congr sameT, childValue_congr sameSib, hvalue]
    · rwa [ptr_make]

theorem tracks_rbDeclareCallbacks (law : RotationLaw compute) :
    Tracks (rbDeclareCallbacks compute) (Exact compute) (ExactBehind compute) where
  recolor := Exact.recolor
  rotate := rotate_exact law
  whole _ := trivial
  drop exact := by
    rw [exact_plug, exact_make] at exact
    exact ⟨exact.1.2.2, exact.2.behind⟩
  copy := copy_exact
  propagate := propagate_exact

end Exact

end Linux318.Source.Rbtree
