import Linux318.Source.Rbtree.Insert

/-!
The loop of `____rb_erase_color` computes `eraseFix` in memory.
-/
namespace Linux318.Source.Rbtree
open Option (bind_eq_bind bind_some)
open Lib.RedBlack Lib.RedBlack.RbTree Function

/-- A node gets another parent and keeps its color, unless it is NULL. -/
def adopt (node : Nat → RbNode) (a parent : Nat) : Nat → RbNode :=
  setWord node a (rbColor (node a).parentColor ||| parent)

variable {t : RbTree Nat} {f : Frame Nat} {n fuel : Nat} {c : Color}

theorem adopt_congr {node node' : Nat → RbNode} {a b : Nat} (same : node' b = node b) (parent : Nat) :
    adopt node' a parent b = adopt node a parent b := by
  by_cases here : b = a
  · subst here
    unfold adopt
    rw [same]
    exact setWord_congr same _
  · unfold adopt
    rw [setWord_of_ne here, setWord_of_ne here, same]

theorem ite_rbSetParent {α : Type} (s : RbState α) (a parent : Nat) :
    (if a ≠ 0 then rbSetParent s a parent else some s) =
      some { s with node := adopt s.node a parent } := by
  by_cases here : a = 0
  · simp [adopt, setWord, here]
  · simp [rbSetParent, load_eq here, store_eq here, adopt, setWord, if_neg here, RbNode.withWord]

theorem Holds.adopt {node : Nat → RbNode} {parent parent' : Nat} (holds : Holds node parent t)
    (aligned : parent % 4 = 0) (nodes : Nodes t.toList) :
    Holds (adopt node (ptr t) parent') parent' t := by
  cases t with
  | nil => trivial
  | node c l a r =>
    have word : rbColor (node a).parentColor ||| parent' = word parent' c := by
      rw [holds.1, rbColor_word aligned, Nat.or_comm, word]
    have moved := holds.setWord nodes parent' c
    rwa [← word] at moved

section EraseColor

variable {α : Type} {augment : RbAugmentCallbacks α} {E : (Nat → α) → RbTree Nat → Prop}
  {A : (Nat → α) → List (Frame Nat) → Prop} {s : RbState α} {k : List (Frame Nat)}

/-- Case 4 on the level of records: the sibling takes the place of the parent. -/
theorem eraseCase4_run {side : Side} {p sb tmp1 tmp2 : Nat} (hangs : Hangs s k p)
    (nodes : Nodes (sb :: p :: around k)) (child : (s.node sb).child side = tmp2)
    (some1 : tmp1 ≠ 0) (apart1 : tmp1 ∉ sb :: p :: around k) (apart2 : tmp2 ∉ sb :: p :: around k)
    (parent : rbParent (s.node p).parentColor = topKey k) :
    ∃ s1, eraseCase4 augment side s p sb tmp1 = augmentRotate augment s1 p sb ∧ Hangs s1 k sb ∧
      s1.augmented = s.augmented ∧
      s1.node sb = ((s.node sb).withChild side p).withWord (s.node p).parentColor ∧
      s1.node p = ((s.node p).withChild side.other tmp2).withWord (word sb .black) ∧
      ∀ a, a ∉ sb :: p :: around k →
        s1.node a = adopt (setWord s.node tmp1 (word sb .black)) tmp2 p a := by
  have someSb := (nodes.address sb (by simp)).1
  have ne : sb ≠ p := fun same => (List.nodup_cons.mp nodes.distinct).1 (by simp [same])
  obtain ⟨s1, run, ends⟩ := rotate_above hangs
    (fun node => adopt (setWord node tmp1 (word sb .black)) tmp2 p)
    ((s.node p).withChild side.other tmp2) ((s.node sb).withChild side p) rbBlack nodes parent
    (by cases side <;> rfl) (fun same => adopt_congr (setWord_congr same _) _) (fun _ a mem => by
      rw [adopt, setWord_of_ne (ne_of_mem_of_not_mem mem apart2),
        setWord_of_ne (ne_of_mem_of_not_mem mem apart1)])
  refine ⟨s1, ?_, ends⟩
  simp only [eraseCase4, load_eq someSb, child, setChild_eq hangs.some, setChild_eq someSb,
    rbSetParentColor_eq some1, ite_rbSetParent, bind_eq_bind, bind_some, update_of_ne ne]
  rw [setWord, if_neg some1] at run
  simp only [word, colorBit] at run
  rw [run, bind_some]

theorem siblings_perm (side : Side) (c cs : Color) (t near far : RbTree Nat) (p sb : Nat)
    (l : List Nat) : ((make side c t p (make side cs near sb far)).toList ++ l).Perm
      ((sb :: p :: l) ++ (t.toList ++ (near.toList ++ far.toList))) := by
  rw [List.perm_iff_count]
  simp only [List.count_append, List.count_cons, count_make, beq_iff_eq]
  omega

theorem eraseCase4_tracked (tracks : Tracks augment E A) {side : Side} {cs : Color}
    {near far : RbTree Nat} {p sb : Nat} (red : far.isRed = true)
    (tracked : Tracked E s k (make side c t p (make side cs near sb far))) :
    ∃ s', eraseCase4 augment side s p sb (ptr far) = some s' ∧
      Tracked E s' k (make side c (make side .black t p near) sb (far.paint .black)) := by
  obtain ⟨shows, fits⟩ := tracked
  have hangs := shows.hangs make_ne_nil
  obtain ⟨focus, above, root, nodes⟩ := shows
  rw [holds_make, holds_make] at focus
  obtain ⟨atP, holdsT, atSb, holdsNear, holdsFar⟩ := focus
  have flat := (nodes_perm (siblings_perm ..)).mp nodes
  have off : ∀ a ∈ t.toList ++ (near.toList ++ far.toList), a ∉ sb :: p :: around k := fun _ =>
    flat.apart
  rw [ptr_make] at hangs
  have someFar : ptr far ≠ 0 := by
    rw [Ne, ptr_eq_zero flat.right.right.right]
    rintro rfl
    cases red
  obtain ⟨s1, run, hangs1, augmented, newSb, newP, same⟩ :=
    @eraseCase4_run _ augment s k side p sb (ptr far) (ptr near) hangs flat.left
      (by rw [atSb, child_record]) someFar (ptr_notMem flat fun a mem => by simp [mem])
      (ptr_notMem flat fun a mem => by simp [mem])
      (by rw [atP, parentColor_record, rbParent_word (topKey_aligned nodes.right)])
  rw [atP, atSb, withChild_record, withWord_record, parentColor_record] at newSb
  rw [atP, withChild_other_record, withWord_record] at newP
  rw [← augmented] at fits
  have mirror : make side c t p (make side cs near sb far) =
      make side.other c (make side.other cs far sb near) p t := by
    rw [make_other, make_other]
  rw [mirror] at fits
  obtain ⟨augmented', rotated, fits'⟩ := tracks.rotate s1.node c .black (mirror ▸ nodes)
    (by rw [newP, child_other_record]) (by rw [newP, Side.other_other, child_record]) fits
  rw [make_other, make_other] at fits'
  refine ⟨{ s1 with augmented := augmented' }, ?_, Hangs.tracked ?_ (holds_make.mpr
    ⟨?_, holds_make.mpr ⟨newP, holdsT.congr ?_, ?_⟩, ?_⟩) nodes ?_ ?_⟩
  · rw [run, augmentRotate, rotated]
    rfl
  · rwa [ptr_make]
  · rw [newSb, ptr_make, ptr_paint]
  · intro a mem
    rw [same a (off a (by simp [mem])), adopt,
      setWord_apart (flat.right.sublist (by simp)).swap mem,
      setWord_apart (flat.right.sublist (by simp)).swap mem]
  · have mid : Holds (setWord s.node (ptr far) (word sb .black)) sb near :=
      holdsNear.congr fun a mem => setWord_apart flat.right.right.swap mem _
    refine (mid.adopt (flat.address sb (by simp)).2 flat.right.right.left).congr fun a mem => ?_
    exact same a (off a (by simp [mem]))
  · refine (holdsFar.setWord flat.right.right.right sb .black).congr fun a mem => ?_
    rw [toList_paint] at mem
    rw [same a (off a (by simp [mem])), adopt, setWord_apart flat.right.right mem]
  · cases side <;> simp [make, toList]
  · exact tracks.recolor (bare_plug_congr (by simp)) fits'

/-- The first rotation of case 3, on the level of records. -/
theorem eraseCase3_run {side : Side} {p sb x tmp : Nat} (someP : p ≠ 0) (someSb : sb ≠ 0)
    (someX : x ≠ 0) (neX : x ≠ sb) (nePX : p ≠ x) (nePSb : p ≠ sb)
    (child : (s.node x).child side.other = tmp) (tmpX : tmp ≠ x) (tmpSb : tmp ≠ sb) (tmpP : tmp ≠ p) :
    ∃ node, eraseCase3 augment side s p sb x =
        (do
          let s ← augmentRotate augment { s with node := node } sb x
          eraseCase4 augment side s p x sb) ∧
      node p = (s.node p).withChild side.other x ∧ node sb = (s.node sb).withChild side tmp ∧
      node x = (s.node x).withChild side.other sb ∧
      ∀ a, a ≠ p → a ≠ sb → a ≠ x → node a = setWord s.node tmp (word sb .black) a := by
  refine ⟨setWord (update (update (update s.node sb
    ((s.node sb).withChild side tmp)) x ((s.node x).withChild side.other sb)) p
      ((s.node p).withChild side.other x)) tmp (word sb .black), ?_, ?_, ?_, ?_, ?_⟩
  · simp only [eraseCase3, load_eq someX, child, setChild_eq someSb, setChild_eq someX,
      setChild_eq someP, ite_rbSetParentColor, bind_eq_bind, bind_some,
      update_of_ne neX, update_of_ne nePX, update_of_ne nePSb, word, colorBit]
  · rw [setWord_of_ne (Ne.symm tmpP), update_self]
  · rw [setWord_of_ne (Ne.symm tmpSb), update_of_ne (Ne.symm nePSb),
      update_of_ne (Ne.symm neX), update_self]
  · rw [setWord_of_ne (Ne.symm tmpX), update_of_ne (Ne.symm nePX), update_self]
  · intro a notP notSb notX
    exact setWord_congr (by rw [update_of_ne notP, update_of_ne notX, update_of_ne notSb]) _

theorem nephews_perm (side : Side) (c cs cx : Color) (t a b far : RbTree Nat) (p sb x : Nat)
    (l : List Nat) : ((make side c t p (make side cs (make side cx a x b) sb far)).toList ++ l).Perm
      ((x :: p :: l) ++ (sb :: (t.toList ++ (a.toList ++ (b.toList ++ far.toList))))) := by
  rw [List.perm_iff_count]
  simp only [List.count_append, List.count_cons, count_make, beq_iff_eq]
  omega

/-- Cases 3 and 4. Between the two rotations the nodes are not a tree. -/
theorem eraseCase3_tracked (tracks : Tracks augment E A) {side : Side} {cs cx : Color}
    {l r far : RbTree Nat} {p sb x : Nat}
    (tracked : Tracked E s k (make side c t p (make side cs (make side cx l x r) sb far))) :
    ∃ s', eraseCase3 augment side s p sb x = some s' ∧
      Tracked E s' k (make side c (make side .black t p l) x
        (make side .black (r.paint .black) sb far)) := by
  obtain ⟨shows, fits⟩ := tracked
  have hangs := shows.hangs make_ne_nil
  obtain ⟨focus, above, root, nodes⟩ := shows
  rw [holds_make, holds_make, holds_make] at focus
  rw [ptr_make] at hangs
  obtain ⟨atP, holdsT, atSb, ⟨atX, holdsL, holdsR⟩, holdsFar⟩ := focus
  have flat := (nodes_perm (nephews_perm ..)).mp nodes
  have off : ∀ a ∈ sb :: (t.toList ++ (l.toList ++ (r.toList ++ far.toList))),
    a ∉ x :: p :: around k := fun _ => flat.apart
  have neX : x ≠ sb := fun same => off sb (by simp) (by simp [same])
  have neP : p ≠ sb := fun same => off sb (by simp) (by simp [same])
  have apartX := (List.nodup_cons.mp flat.distinct).1
  have nePX : p ≠ x := fun same => apartX (by simp [same])
  have apartSb := (List.nodup_cons.mp flat.right.distinct).1
  obtain ⟨someP, _⟩ := flat.address p (by simp)
  obtain ⟨someX, alignedX⟩ := flat.address x (by simp)
  obtain ⟨someSb, _⟩ := flat.address sb (by simp)
  have rest := flat.right.tail
  have freshL : ptr l ∉ x :: p :: around k := ptr_notMem flat fun a mem => by simp [mem]
  have freshR : ptr r ∉ x :: p :: around k := ptr_notMem flat fun a mem => by simp [mem]
  have sbR : sb ≠ ptr r := ptr_ne (fun mem => apartSb (by simp [mem])) someSb
  have sbL : sb ≠ ptr l := ptr_ne (fun mem => apartSb (by simp [mem])) someSb
  obtain ⟨node, run, midP, midSb, midX, same⟩ := @eraseCase3_run _ augment s side p sb x (ptr r)
    someP someSb someX neX nePX neP (by rw [atX, child_other_record])
    (fun same => freshR (by simp [same])) sbR.symm (fun same => freshR (by simp [same]))
  rw [atP, withChild_other_record] at midP
  rw [atSb, withChild_record] at midSb
  rw [atX, withChild_other_record] at midX
  -- the first rotation
  have mirror : make side c t p (make side cs (make side cx l x r) sb far) =
      make side.other c (make side cs (make side cx l x r) sb far) p t := (make_other ..).symm
  have inner := (nodes_perm (perm_around_cons ⟨side.other, c, p, t⟩ k _)).mpr (mirror ▸ nodes)
  rw [mirror] at fits
  obtain ⟨augmented, rotated, fits⟩ := @Tracks.rotate _ _ _ _ tracks s.augmented
    (⟨side.other, c, p, t⟩ :: k) side cs cx l x r sb far node .red .red inner
    (by rw [midSb, child_record]) (by rw [midSb, child_other_record]) fits
  rw [← make_other side .red (make side .red r sb far) l x] at fits
  -- the second one
  have hangs' : Hangs { s with node := node, augmented := augmented } k p :=
    hangs.congr fun a mem => by
      have out : a ≠ ptr r := fun same => freshR (by simp [← same, mem])
      rw [same a (ne_of_mem_of_not_mem mem hangs.fresh)
        (fun same => off sb (by simp) (by simp [← same, mem]))
        (fun same => apartX (by simp [← same, mem])), setWord_of_ne out]
  obtain ⟨s1, run1, hangs1, augmented1, newX, newP, same1⟩ :=
    @eraseCase4_run _ augment _ k side p x sb (ptr l) hangs' flat.left (by
        show (node x).child side = _
        rw [midX, child_record])
      someSb (off sb (by simp)) freshL
      (by
        show rbParent (node p).parentColor = _
        rw [midP, parentColor_record, rbParent_word (topKey_aligned nodes.right)])
  simp only [midX, midP, withChild_other_record, withChild_record, withWord_record,
    parentColor_record] at newX newP
  have augmented1 : s1.augmented = augmented := augmented1
  rw [← augmented1] at fits
  have list : ∀ c c' c'',
      (make side.other c (make side.other c' (make side c'' r sb far) x l) p t).toList =
        (make side c t p (make side cs (make side cx l x r) sb far)).toList := by
    cases side <;> simp [make, toList, Side.other]
  obtain ⟨augmented', rotated', fits'⟩ := @Tracks.rotate _ _ _ _ tracks _ k side.other c .red
    (make side .red r sb far) x l p t s1.node c .black (by rwa [list])
    (by rw [newP, child_other_record]) (by rw [newP, Side.other_other, child_record]) fits
  rw [make_other, make_other] at fits'
  have final : ∀ a ∈ t.toList ++ (l.toList ++ (r.toList ++ far.toList)), s1.node a =
      adopt (setWord s.node (ptr r) (word sb .black)) (ptr l) p a := by
    intro a mem
    have out := off a (List.mem_cons_of_mem sb mem)
    have notSb : a ≠ sb := ne_of_mem_of_not_mem mem apartSb
    rw [same1 a out]
    refine adopt_congr ?_ _
    rw [setWord_of_ne notSb]
    exact same a (fun same => out (by simp [same])) notSb (fun same => out (by simp [same]))
  refine ⟨{ s1 with augmented := augmented' }, ?_, Hangs.tracked ?_ (holds_make.mpr
    ⟨?_, holds_make.mpr ⟨newP, holdsT.congr ?_, ?_⟩, holds_make.mpr ⟨?_, ?_, holdsFar.congr ?_⟩⟩)
      nodes ?_ ?_⟩
  · simp [run, augmentRotate, rotated, run1, rotated']
  · rwa [ptr_make]
  · rw [newX, ptr_make, ptr_make]
  · intro a mem
    rw [final a (by simp [mem]), adopt, setWord_apart (rest.sublist (by simp)).swap mem,
      setWord_apart (rest.sublist (by simp)).swap mem]
  · have mid : Holds (setWord s.node (ptr r) (word sb .black)) x l :=
      holdsL.congr fun a mem =>
        setWord_apart (rest.right.sublist (by simp)).swap mem _
    refine (mid.adopt alignedX rest.right.left).congr fun a mem => ?_
    exact final a (by simp [mem])
  · rw [same1 sb (off sb (by simp)), adopt, setWord_of_ne sbL, setWord_self someSb, ptr_paint]
    exact (congrArg (RbNode.withWord · _) midSb).trans (withWord_record ..)
  · refine (holdsR.setWord rest.right.right.left sb .black).congr fun a mem => ?_
    rw [toList_paint] at mem
    rw [final a (by simp [mem]), adopt, setWord_apart rest.right (by simp [mem])]
  · intro a mem
    rw [final a (by simp [mem]), adopt, setWord_apart rest.right (by simp [mem]),
      setWord_apart rest.right.right mem]
  · cases side <;> simp [make, toList]
  · exact tracks.recolor (bare_plug_congr (by simp)) fits'

/-- Case 1 is the last rotation of an insertion, seen from the other side. -/
theorem eraseCase1_eq {side : Side} {p sb tmp : Nat} (someSb : sb ≠ 0) (some : tmp ≠ 0)
    (child : (s.node sb).child side = tmp) : eraseCase1 augment side s p sb =
      (insertCase3 augment side.other s sb p tmp).map fun s => (tmp, s) := by
  simp only [eraseCase1, insertCase3, load_eq someSb, child, Side.other_other, bind_eq_bind,
    bind_some, if_pos some, Option.map_eq_bind, Option.bind_assoc]
  rfl

theorem eraseCase1_tracked (tracks : Tracks augment E A) {side : Side} {near far : RbTree Nat}
    {p sb : Nat} (some : near ≠ nil)
    (tracked : Tracked E s k (make side c t p (make side .red near sb far))) :
    ∃ s', eraseCase1 augment side s p sb = .some (ptr near, s') ∧
      Tracked E s' k (make side c (make side .red t p (near.paint .black)) sb far) := by
  have flat := (nodes_perm (siblings_perm ..)).mp tracked.shows.nodes
  have focus := tracked.shows.focus
  rw [holds_make, holds_make] at focus
  obtain ⟨_, _, atSb, _, _⟩ := focus
  have mirror : make side c t p (make side .red near sb far) =
      make side.other c (make side.other .red far sb near) p t := by
    rw [make_other, make_other]
  rw [mirror] at tracked
  obtain ⟨s', run, tracked'⟩ := insertCase3_tracked tracks tracked
  rw [make_other, make_other] at tracked'
  refine ⟨s', ?_, tracked'⟩
  rw [eraseCase1_eq (flat.address sb (by simp)).1
    ((ptr_eq_zero flat.right.right.left).not.mpr some) (by rw [atSb, child_record]), run]
  rfl

theorem rbSetBlack_eq {a parent : Nat} (some : a ≠ 0)
    (here : (s.node a).parentColor = word parent c) :
    rbSetBlack s a = rbSetParentColor s a parent rbBlack := by
  have word : word parent c ||| rbBlack = parent ||| rbBlack := by
    rw [Rbtree.word, Nat.or_assoc]
    cases c <;> rfl
  simp [rbSetBlack, rbSetParentColor, load_eq some, here, word]

/-- The loop has nothing left to do above `p`, or it goes on there. -/
def GoesOn (E : (Nat → α) → RbTree Nat → Prop) (k : List (Frame Nat))
    (again : RbState α → Nat → Nat → Option (RbState α)) (up : RbTree Nat → RbTree Nat) (p : Nat) :
    Prop :=
  ∀ s' t', ptr t' = p → Tracked E s' k t' → ∃ s'',
    (if topKey k ≠ 0 then again s' p (topKey k) else some s') = some s'' ∧ Tracked E s'' [] (up t')

section
variable (tracks : Tracks augment E A) {again : RbState α → Nat → Nat → Option (RbState α)}
  {up : RbTree Nat → RbTree Nat} {side : Side}
include tracks

/-- Case 2: the sibling gets red. -/
theorem eraseFlip_tracked {c cs : Color} {t near far : RbTree Nat} {p sb : Nat}
    (tracked : Tracked E s k (make side c t p (make side cs near sb far)))
    (goesOn : c = .black → GoesOn E k again up p) : ∃ s', (do
        let s ← rbSetParentColor s sb p rbRed
        let n ← load s p
        if rbIsRed n then rbSetBlack s p
        else if rbParent n.parentColor ≠ 0 then again s p (rbParent n.parentColor) else some s) =
          some s' ∧
      Tracked E s' [] (if c = .red then plug k (make side .black t p (make side .red near sb far))
        else up (make side c t p (make side .red near sb far))) := by
  have someP := (tracked.shows.nodes.address p (by simp [mem_make])).1
  have aligned := topKey_aligned tracked.shows.nodes.right
  have sibling : Tracked E s (⟨side.other, c, p, t⟩ :: k) (make side cs near sb far) := by
    rw [tracked_plug] at tracked ⊢
    simpa only [plug, make_other] using tracked
  obtain ⟨s1, run1, tracked1⟩ := sibling.paint tracks make_ne_nil .red
  rw [ptr_make, topKey_cons] at run1
  have tracked1 : Tracked E s1 k (make side c t p (make side .red near sb far)) := by
    rw [tracked_plug] at tracked1 ⊢
    simpa only [plug, paint_make, make_other] using tracked1
  have atP := (holds_make.mp tracked1.shows.focus).1
  have wordP : (s1.node p).parentColor = word (topKey k) c := by rw [atP, parentColor_record]
  have run1 : rbSetParentColor s sb p rbRed = some s1 := run1
  simp only [run1, load_eq someP, bind_eq_bind, bind_some, rbIsRed, wordP,
    rbColor_word aligned, rbParent_word aligned]
  cases c with
  | red =>
    obtain ⟨s2, run2, tracked2⟩ := tracked1.paint tracks make_ne_nil .black
    rw [ptr_make] at run2
    refine ⟨s2, ?_, by simpa using tracked_plug.mp tracked2⟩
    rw [rbSetBlack_eq someP wordP]
    exact run2
  | black =>
    obtain ⟨s2, run2, tracked2⟩ := goesOn rfl s1 _ (ptr_make ..) tracked1
    refine ⟨s2, ?_, by simpa using tracked2⟩
    exact run2

/-- The part of a round below a black sibling. The tree may have to go on above. -/
theorem eraseSibling_tracked {c : Color} {t sib : RbTree Nat} {p : Nat} (some : sib ≠ nil)
    (tracked : Tracked E s k (make side c t p sib))
    (goesOn : c = .black → GoesOn E k again up p) :
    ∃ s', eraseSibling augment again side s p (ptr sib) = .some s' ∧
      Tracked E s' [] (siblingFix side c t p sib (plug k) up) := by
  obtain ⟨cs, near, sb, far, rfl⟩ := exists_make side some
  have flat := (nodes_perm (siblings_perm ..)).mp tracked.shows.nodes
  have focus := tracked.shows.focus
  rw [holds_make, holds_make] at focus
  obtain ⟨atP, holdsT, atSb, holdsNear, holdsFar⟩ := focus
  obtain ⟨someSb, alignedSb⟩ := flat.address sb (by simp)
  have farTest := (color_iff holdsFar alignedSb flat.right.right.right).2
  have nearTest := (color_iff holdsNear alignedSb flat.right.right.left).2
  rw [ptr_make]
  simp only [eraseSibling, load_eq someSb, atSb, child_other_record, child_record,
    bind_eq_bind, bind_some, farTest, nearTest, siblingFix, view_make]
  cases farRed : far.isRed with
  | true =>
    obtain ⟨s', run, tracked'⟩ := eraseCase4_tracked tracks farRed tracked
    exact ⟨s', by simpa using run, by simpa using tracked_plug.mp tracked'⟩
  | false =>
    cases nearRed : near.isRed with
    | true =>
      have someNear : near ≠ nil := by
        rintro rfl
        cases nearRed
      obtain ⟨cx, l, x, r, rfl⟩ := exists_make side someNear
      obtain rfl : cx = .red := by simpa using nearRed
      obtain ⟨s', run, tracked'⟩ := eraseCase3_tracked tracks tracked
      exact ⟨s', by simpa using run, by simpa using tracked_plug.mp tracked'⟩
    | false =>
      have notRed : ∀ l x r, near.view side ≠ .some (.red, l, x, r) := fun l x r shape => by
        rw [view_eq_some.mp shape] at nearRed
        simp at nearRed
      have flipped := @eraseFlip_tracked _ augment E A s k tracks again up side c cs t near far p sb
        tracked goesOn
      obtain ⟨s', run, tracked'⟩ := flipped
      refine ⟨s', by simpa using run, ?_⟩
      rw [if_neg (by simp)]
      split
      · exact absurd ‹_› (notRed _ _ _)
      · exact tracked'

end

theorem eraseColorLoop_cases (shows : Shows s (f :: k) t) (some : f.sib ≠ nil) :
    eraseColorLoop augment (fuel + 1) s (ptr t) f.key =
      eraseCases augment (eraseColorLoop augment fuel) f.side s f.key (ptr f.sib) := by
  obtain ⟨focus, ⟨atF, sibF, above⟩, root, nodes⟩ := shows
  obtain ⟨someF, _⟩ := nodes.address f.key (by simp [mem_around_cons])
  have mem : ptr f.sib ∈ around (f :: k) := mem_around_cons.mpr (.inr (.inl (ptr_mem some)))
  have ne : ptr t ≠ ptr f.sib := by
    refine (ptr_ne (nodes.apart mem) (nodes.right.address _ mem).1).symm
  simp only [eraseColorLoop, load_eq someF, atF]
  cases f.side with
  | left => exact if_pos ne
  | right => exact if_neg (not_not.mpr rfl)

theorem balanced_succ_ne_nil (balanced : t.Balanced (n + 1)) : t ≠ nil := by
  rintro rfl
  cases balanced

theorem eraseCases_tracked (tracks : Tracks augment E A)
    {again : RbState α → Nat → Nat → Option (RbState α)} (place : PlaceOk (f :: k) (n + 1))
    (tracked : Tracked E s (f :: k) t)
    (goesOn : f.color = .black → GoesOn E k again (eraseFix k) f.key) :
    ∃ s', eraseCases augment again f.side s f.key (ptr f.sib) = some s' ∧
      Tracked E s' [] (eraseFix (f :: k) t) := by
  have someSib := balanced_succ_ne_nil place.1
  obtain ⟨_, ⟨_, holdsSib, _⟩, _, nodes⟩ := tracked.shows
  have sibNodes := ((nodes_perm (perm_around f k)).mp nodes.right).tail.left
  have someS := (ptr_eq_zero sibNodes).not.mpr someSib
  have test := (color_iff holdsSib (nodes.address f.key (by simp [mem_around_cons])).2 sibNodes).1
  simp only [eraseCases, load_eq someS, bind_eq_bind, bind_some]
  rw [tracked_plug, plug, ← tracked_plug] at tracked
  by_cases isRed : ∃ near sb far, f.sib.view f.side = some (.red, near, sb, far)
  · -- a red sibling: its child is the sibling after a rotation
    obtain ⟨near, sb, far, shape⟩ := isRed
    have whole := view_eq_some.mp shape
    rw [eraseFix, shape]
    rw [whole] at tracked test ⊢
    have someNear : near ≠ nil := by
      have balanced := place.1
      rw [whole] at balanced
      obtain ⟨m, same, nearBalanced, _⟩ := balanced_make.mp balanced
      obtain rfl : n + 1 = m := same
      exact balanced_succ_ne_nil nearBalanced
    obtain ⟨s1, run1, tracked1⟩ := eraseCase1_tracked tracks someNear tracked
    have inner : Tracked E s1 (⟨f.side, f.color, sb, far⟩ :: k)
        (make f.side .red t f.key (near.paint .black)) := by
      rw [tracked_plug] at tracked1 ⊢
      exact tracked1
    obtain ⟨s2, run2, tracked2⟩ := @eraseSibling_tracked _ augment E A s1 _ tracks again
      (plug (⟨f.side, f.color, sb, far⟩ :: k)) _ _ _ _ _ (by cases near <;> simp_all [paint]) inner
      fun black => (by cases black)
    refine ⟨s2, ?_, tracked2⟩
    rw [if_pos (test.mpr (by simp)).2, ptr_make, run1]
    rwa [ptr_paint] at run2
  · push Not at isRed
    have black := isRed_eq_false isRed
    have fix : eraseFix (f :: k) t = siblingFix f.side f.color t f.key f.sib (plug k) (eraseFix k) := by
      rw [eraseFix]
      split
      · exact absurd ‹_› (isRed _ _ _)
      · rfl
    rw [fix]
    obtain ⟨s1, run1, tracked1⟩ := @eraseSibling_tracked _ augment E A s _ tracks again (eraseFix k)
      _ _ _ _ _ someSib tracked goesOn
    refine ⟨s1, ?_, tracked1⟩
    rw [if_neg fun red => ?_]
    · exact run1
    · rw [test.mp ⟨someS, red⟩] at black
      cases black

/-- The loop of `____rb_erase_color`. -/
theorem eraseColorLoop_tracked (tracks : Tracks augment E A) (place : PlaceOk (f :: k) (n + 1))
    (enough : k.length < fuel) (tracked : Tracked E s (f :: k) t) :
    ∃ s', eraseColorLoop augment fuel s (ptr t) f.key = .some s' ∧
      Tracked E s' [] (eraseFix (f :: k) t) := by
  obtain ⟨fuel, rfl⟩ : ∃ m, fuel = m + 1 := ⟨fuel - 1, by omega⟩
  induction k generalizing f t s n fuel with
  | nil =>
    rw [eraseColorLoop_cases tracked.shows (balanced_succ_ne_nil place.1)]
    exact eraseCases_tracked tracks place tracked fun _ s' t' _ tracked' => ⟨s', rfl, tracked'⟩
  | cons g k ih =>
    rw [eraseColorLoop_cases tracked.shows (balanced_succ_ne_nil place.1)]
    refine eraseCases_tracked tracks place tracked fun black s' t' key tracked' => ?_
    have above := place.2.2.2
    rw [black] at above
    obtain ⟨fuel, rfl⟩ : ∃ m, fuel = m + 1 := ⟨fuel - 1, by simp at enough; omega⟩
    have someG := (tracked'.shows.nodes.address g.key (by simp [mem_around_cons])).1
    rw [topKey_cons, if_pos someG, ← key]
    exact ih above tracked' fuel (by simpa using enough)

end EraseColor

end Linux318.Source.Rbtree
