import Linux318.Source.Rbtree.Augment

/-!
The loop of `__rb_insert` computes `insertFix` in memory.
-/
namespace Linux318.Source.Rbtree
open Option (bind_eq_bind bind_some)
open Lib.RedBlack Lib.RedBlack.RbTree Function

variable {t : RbTree Nat} {fuel : Nat} {side : Side}

structure Tracked {α : Type} (E : (Nat → α) → RbTree Nat → Prop) (s : RbState α)
    (k : List (Frame Nat)) (t : RbTree Nat) : Prop where
  shows : Shows s k t
  fits : E s.augmented (plug k t)

section
variable {α : Type} {E : (Nat → α) → RbTree Nat → Prop} {s : RbState α} {k : List (Frame Nat)}

theorem tracked_plug : Tracked E s k t ↔ Tracked E s [] (plug k t) :=
  ⟨fun tracked => ⟨shows_plug.mp tracked.shows, tracked.fits⟩, fun tracked =>
    ⟨shows_plug.mpr tracked.shows, tracked.fits⟩⟩

/-- Another tree of the same nodes has got the place. -/
theorem Hangs.tracked {t' : RbTree Nat} (hangs : Hangs s k (ptr t'))
    (focus : Holds s.node (topKey k) t') (nodes : Nodes (t.toList ++ around k))
    (same : t'.toList = t.toList) {augmented : Nat → α} (fits : E augmented (plug k t')) :
    Tracked E { s with augmented := augmented } k t' :=
  ⟨⟨focus, hangs.above, hangs.root, same ▸ nodes⟩, fits⟩

end

/-- Another color for the root of the tree at a place. -/
theorem Tracked.paint {α : Type} {augment : RbAugmentCallbacks α}
    {E : (Nat → α) → RbTree Nat → Prop} {A : (Nat → α) → List (Frame Nat) → Prop}
    (tracks : Tracks augment E A) {s : RbState α} {k : List (Frame Nat)}
    (tracked : Tracked E s k t) (some : t ≠ nil) (c : Color) :
    ∃ s', rbSetParentColor s (ptr t) (topKey k) (colorBit c) = .some s' ∧
      Tracked E s' k (t.paint c) := by
  obtain ⟨shows, fits⟩ := tracked
  have hangs := shows.hangs some
  refine ⟨_, rbSetParentColor_eq hangs.some .., ⟨?_, ?_, ?_, ?_⟩,
    tracks.recolor (bare_plug_congr (bare_paint c t).symm) fits⟩
  · have painted := shows.focus.setWord shows.nodes.left (topKey k) c
    rwa [setWord, if_neg hangs.some] at painted
  · rw [ptr_paint]
    exact shows.above.congr fun a mem =>
      update_of_ne (ne_of_mem_of_not_mem mem hangs.fresh) _ _
  · rw [ptr_paint]
    exact shows.root
  · rw [toList_paint]
    exact shows.nodes

section Insert

variable {α : Type} {augment : RbAugmentCallbacks α} {E : (Nat → α) → RbTree Nat → Prop}
  {A : (Nat → α) → List (Frame Nat) → Prop} {s : RbState α} {k : List (Frame Nat)}

/-- The last rotation, on the level of records: `p` takes the place of `g`. -/
theorem insertCase3_run {side : Side} {p g tmp : Nat} (hangs : Hangs s k g)
    (nodes : Nodes (p :: g :: around k)) (apart : tmp ∉ p :: g :: around k)
    (parent : rbParent (s.node g).parentColor = topKey k) :
    ∃ s1, insertCase3 augment side s p g tmp = augmentRotate augment s1 g p ∧ Hangs s1 k p ∧
      s1.augmented = s.augmented ∧
      s1.node p = ((s.node p).withChild side.other g).withWord (s.node g).parentColor ∧
      s1.node g = ((s.node g).withChild side tmp).withWord (word p .red) ∧
      ∀ a, a ∉ p :: g :: around k → s1.node a = setWord s.node tmp (word g .black) a := by
  have ne : p ≠ g := fun same => (List.nodup_cons.mp nodes.distinct).1 (by simp [same])
  obtain ⟨s1, run, ends⟩ := rotate_above hangs (fun node => setWord node tmp (word g .black))
    ((s.node g).withChild side tmp) ((s.node p).withChild side.other g) rbRed nodes parent
    (by cases side <;> rfl) (fun same => setWord_congr same _)
    (fun _ a mem => setWord_of_ne (ne_of_mem_of_not_mem mem apart) _)
  refine ⟨s1, ?_, ends⟩
  simp only [insertCase3, setChild_eq hangs.some, setChild_eq (nodes.address p (by simp)).1,
    ite_rbSetParentColor, bind_eq_bind, bind_some, update_of_ne ne]
  simp only [word, colorBit] at run
  rw [run, bind_some]

theorem rotation_perm (side : Side) (cg cp : Color) (x y u : RbTree Nat) (p g : Nat) (l : List Nat) :
    ((make side cg (make side cp x p y) g u).toList ++ l).Perm
      ((p :: g :: l) ++ (x.toList ++ (y.toList ++ u.toList))) := by
  rw [List.perm_iff_count]
  simp only [List.count_append, List.count_cons, count_make, beq_iff_eq]
  omega

theorem insertCase3_tracked (tracks : Tracks augment E A) {cg cp : Color} {x y u : RbTree Nat}
    {p g : Nat} (tracked : Tracked E s k (make side cg (make side cp x p y) g u)) :
    ∃ s', insertCase3 augment side s p g (ptr y) = some s' ∧
      Tracked E s' k (make side cg x p (make side .red (y.paint .black) g u)) := by
  obtain ⟨shows, fits⟩ := tracked
  have hangs := shows.hangs make_ne_nil
  obtain ⟨focus, above, root, nodes⟩ := shows
  rw [holds_make, holds_make] at focus
  obtain ⟨atG, ⟨atP, holdsX, holdsY⟩, holdsU⟩ := focus
  have flat := (nodes_perm (rotation_perm ..)).mp nodes
  have off : ∀ a ∈ x.toList ++ (y.toList ++ u.toList), a ∉ p :: g :: around k := fun _ => flat.apart
  rw [ptr_make] at hangs
  obtain ⟨s1, run, hangs1, augmented, newP, newG, same⟩ :=
    @insertCase3_run _ augment s k side p g (ptr y) hangs flat.left
      (ptr_notMem flat fun a mem => by simp [mem])
      (by rw [atG, parentColor_record, rbParent_word (topKey_aligned nodes.right)])
  rw [atP, atG, withChild_other_record, withWord_record, parentColor_record] at newP
  rw [atG, withChild_record, withWord_record] at newG
  rw [← augmented] at fits
  obtain ⟨augmented', rotated, fits'⟩ := tracks.rotate s1.node cg .red nodes
    (by rw [newG, child_record]) (by rw [newG, child_other_record]) fits
  refine ⟨{ s1 with augmented := augmented' }, ?_, Hangs.tracked ?_ (holds_make.mpr
    ⟨?_, holdsX.congr ?_, holds_make.mpr ⟨?_, ?_, holdsU.congr ?_⟩⟩) nodes ?_ ?_⟩
  · rw [run, augmentRotate, rotated]
    rfl
  · rwa [ptr_make]
  · rw [newP, ptr_make]
  · intro a mem
    rw [same a (off a (by simp [mem])), setWord_apart (flat.right.sublist (by simp)).swap mem]
  · rw [newG, ptr_paint]
  · refine (holdsY.setWord flat.right.right.left g .black).congr fun a mem => ?_
    rw [toList_paint] at mem
    exact same a (off a (by simp [mem]))
  · intro a mem
    rw [same a (off a (by simp [mem])), setWord_apart (flat.right.right) mem]
  · cases side <;> simp [make, toList]
  · exact tracks.recolor (bare_plug_congr (by simp)) fits'

theorem doubleRotation_perm (side : Side) (cg cp cn : Color) (near far x u : RbTree Nat)
    (n p g : Nat) (l : List Nat) :
    ((make side cg (make side.other cp (make side.other cn far n near) p x) g u).toList ++ l).Perm
      ((n :: g :: l) ++ (p :: (x.toList ++ (near.toList ++ (far.toList ++ u.toList))))) := by
  rw [List.perm_iff_count]
  simp only [List.count_append, List.count_cons, count_make, beq_iff_eq]
  omega

/-- The first rotation of case 2, on the level of records. -/
theorem insertCase2_run {side : Side} {n p tmp : Nat} (g : Nat) (someN : n ≠ 0) (someP : p ≠ 0)
    (ne : n ≠ p) (child : (s.node n).child side = tmp) (tmpN : tmp ≠ n) (tmpP : tmp ≠ p) :
    ∃ node, insertCase2 augment side s n p g =
        (do
          let s ← augmentRotate augment { s with node := node } p n
          insertCase3 augment side s n g ((s.node n).child side.other)) ∧
      node p = ((s.node p).withChild side.other tmp).withWord (word n .red) ∧
      node n = (s.node n).withChild side p ∧
      ∀ a, a ≠ n → a ≠ p → node a = setWord s.node tmp (word p .black) a := by
  obtain ⟨node, hnode⟩ : ∃ node, node = setWord (update (update s.node p
    ((s.node p).withChild side.other tmp)) n ((s.node n).withChild side p)) tmp
      (word p .black) := ⟨_, rfl⟩
  have atP : node p = (s.node p).withChild side.other tmp := by
    rw [hnode, setWord_of_ne (Ne.symm tmpP), update_of_ne (Ne.symm ne), update_self]
  have atN : node n = (s.node n).withChild side p := by
    rw [hnode, setWord_of_ne (Ne.symm tmpN), update_self]
  refine ⟨update node p ((node p).withWord (word n .red)), ?_, ?_, ?_, ?_⟩
  · simp only [insertCase2, load_eq someN, setChild_eq someP, setChild_eq someN,
      rbSetParentColor_eq someP, child, ite_rbSetParentColor, bind_eq_bind,
      bind_some, update_of_ne ne, hnode, word, colorBit]
  · rw [update_self, atP]
  · rw [update_of_ne ne, atN]
  · intro a notN notP
    rw [update_of_ne notP, hnode]
    exact setWord_congr (by rw [update_of_ne notN, update_of_ne notP]) _

/-- Cases 2 and 3. Between the two rotations the nodes are not a tree. -/
theorem insertCase2_tracked (tracks : Tracks augment E A) {cg cp cn : Color}
    {near far x u : RbTree Nat} {n p g : Nat}
    (tracked : Tracked E s k (make side cg (make side.other cp (make side.other cn far n near) p x)
      g u)) : ∃ s', insertCase2 augment side s n p g = some s' ∧
      Tracked E s' k (make side cg (make side .red x p (near.paint .black)) n
        (make side .red (far.paint .black) g u)) := by
  obtain ⟨shows, fits⟩ := tracked
  have hangs := shows.hangs make_ne_nil
  obtain ⟨focus, above, root, nodes⟩ := shows
  rw [holds_make, holds_make, holds_make, record_other, record_other] at focus
  rw [ptr_make] at hangs
  obtain ⟨atG, ⟨atP, ⟨atN, holdsFar, holdsNear⟩, holdsX⟩, holdsU⟩ := focus
  have flat := (nodes_perm (doubleRotation_perm ..)).mp nodes
  have off : ∀ a ∈ p :: (x.toList ++ (near.toList ++ (far.toList ++ u.toList))),
    a ∉ n :: g :: around k := fun _ => flat.apart
  have ne : n ≠ p := fun same => off p (by simp) (by simp [same])
  have neG : g ≠ p := fun same => off p (by simp) (by simp [same])
  have someP := (flat.address p (by simp)).1
  have someN := (flat.address n (by simp)).1
  have rest := flat.right.tail
  have nearFresh : ptr near ∉ n :: g :: around k :=
    ptr_notMem flat fun a mem => by simp [mem]
  have farFresh : ptr far ∉ n :: g :: around k :=
    ptr_notMem flat fun a mem => by simp [mem]
  have nearP : p ≠ ptr near := ptr_ne
    (fun mem => (List.nodup_cons.mp flat.right.distinct).1 (by simp [mem])) someP
  have farP : p ≠ ptr far := ptr_ne
    (fun mem => (List.nodup_cons.mp flat.right.distinct).1 (by simp [mem])) someP
  obtain ⟨node, run, newP, midN, same⟩ := @insertCase2_run _ augment s side n p (ptr near) g someN
    someP ne (by rw [atN, child_record]) (fun same => nearFresh (by simp [same])) nearP.symm
  rw [atP, withChild_other_record, withWord_record] at newP
  rw [atN, withChild_record] at midN
  have frame : ∀ a, a ≠ n → a ≠ p → a ≠ ptr near → node a = s.node a := fun a notN notP notNear => by
    rw [same a notN notP, setWord_of_ne notNear]
  have apartN := (List.nodup_cons.mp flat.distinct).1
  have midG : node g = s.node g := frame g (fun same => apartN (by simp [same])) neG
    fun same => nearFresh (by simp [← same])
  have list : ∀ c c' c'', (make side c (make side c' (make side c'' x p near) n far) g u).toList =
      (make side cg (make side.other cp (make side.other cn far n near) p x) g u).toList := by
    cases side <;> simp [make, toList, Side.other]
  -- the first rotation
  have inner := (nodes_perm (perm_around_cons ⟨side, cg, g, u⟩ k _)).mpr nodes
  obtain ⟨augmented, rotated, fits⟩ := @Tracks.rotate _ _ _ _ tracks s.augmented
    (⟨side, cg, g, u⟩ :: k) side.other cp cn far n near p x node .red .red inner
    (by rw [newP, child_other_record]) (by rw [newP, Side.other_other, child_record]) fits
  rw [make_other, make_other] at fits
  -- the second one
  have hangs' : Hangs { s with node := node, augmented := augmented } k g :=
    hangs.congr fun a mem => frame a (fun same => apartN (by simp [← same, mem]))
      (fun same => off p (by simp) (by simp [← same, mem]))
      fun same => nearFresh (by simp [← same, mem])
  obtain ⟨s1, run1, hangs1, augmented1, newN, newG, same1⟩ :=
    @insertCase3_run _ augment _ k side n g (ptr far) hangs' flat.left farFresh (by
        show rbParent (node g).parentColor = _
        rw [midG, atG, parentColor_record, rbParent_word (topKey_aligned nodes.right)])
  simp only [midG, atG, midN, withChild_other_record, withChild_record, withWord_record,
    parentColor_record] at newN newG
  have augmented1 : s1.augmented = augmented := augmented1
  rw [← augmented1] at fits
  obtain ⟨augmented', rotated', fits'⟩ := @Tracks.rotate _ _ _ _ tracks _ k side cg .red
    (make side .red x p near) n far g u s1.node cg .red (by rwa [list])
    (by rw [newG, child_record]) (by rw [newG, child_other_record]) fits
  have final : ∀ a ∈ x.toList ++ (near.toList ++ (far.toList ++ u.toList)), s1.node a =
      setWord (setWord s.node (ptr near) (word p .black)) (ptr far) (word g .black) a := by
    intro a mem
    have out := off a (List.mem_cons_of_mem p mem)
    rw [same1 a out]
    refine setWord_congr (same a (fun same => out (by simp [same])) fun same => ?_) _
    exact (List.nodup_cons.mp flat.right.distinct).1 (same ▸ mem)
  refine ⟨{ s1 with augmented := augmented' }, ?_, Hangs.tracked ?_ (holds_make.mpr
    ⟨?_, holds_make.mpr ⟨?_, holdsX.congr ?_, ?_⟩, holds_make.mpr ⟨?_, ?_, holdsU.congr ?_⟩⟩)
      nodes ?_ ?_⟩
  · simp [run, augmentRotate, rotated, midN, run1, rotated']
  · rwa [ptr_make]
  · rw [newN, ptr_make, ptr_make]
  · rw [same1 p (off p (by simp)), setWord_of_ne farP, ptr_paint]
    exact newP
  · intro a mem
    rw [final a (by simp [mem]), setWord_apart (rest.sublist (by simp)).swap mem,
      setWord_apart (rest.sublist (by simp)).swap mem]
  · refine (holdsNear.setWord rest.right.left p .black).congr fun a mem => ?_
    rw [toList_paint] at mem
    rw [final a (by simp [mem]), setWord_apart (rest.right.sublist (by simp)).swap mem]
  · rw [newG, ptr_paint]
  · have mid : Holds (setWord s.node (ptr near) (word p .black)) n far :=
      holdsFar.congr fun a mem => setWord_apart rest.right (by simp [mem]) _
    refine (mid.setWord rest.right.right.left g .black).congr fun a mem => ?_
    rw [toList_paint] at mem
    exact final a (by simp [mem])
  · intro a mem
    rw [final a (by simp [mem]), setWord_apart rest.right.right mem,
      setWord_apart rest.right (by simp [mem])]
  · cases side <;> simp [make, toList, Side.other]
  · exact tracks.recolor (bare_plug_congr (by simp)) fits'

/-- A red uncle: both get black, and the node above them red. -/
theorem flip_tracked (tracks : Tracks augment E A) {f g : Frame Nat}
    (tracked : Tracked E s (f :: g :: k) t) (red : g.sib.isRed = true) :
    ∃ s1 s2 s3, rbSetParentColor s (ptr g.sib) g.key rbBlack = some s1 ∧
      rbSetParentColor s1 f.key g.key rbBlack = some s2 ∧
      rbParent (s2.node g.key).parentColor = topKey k ∧
      rbSetParentColor s2 g.key (topKey k) rbRed = some s3 ∧
      Tracked E s3 k
        (make g.side .red (make f.side .black t f.key f.sib) g.key (g.sib.paint .black)) := by
  have someSib : g.sib ≠ nil := by
    intro none
    rw [none] at red
    cases red
  have uncle : Tracked E s (⟨g.side.other, g.color, g.key, make f.side f.color t f.key f.sib⟩ :: k)
    g.sib := by
    rw [tracked_plug] at tracked ⊢
    simpa only [plug, make_other] using tracked
  obtain ⟨s1, run1, tracked1⟩ := uncle.paint tracks someSib .black
  have parent : Tracked E s1 (⟨g.side, g.color, g.key, g.sib.paint .black⟩ :: k)
    (make f.side f.color t f.key f.sib) := by
    rw [tracked_plug] at tracked1 ⊢
    simpa only [plug, make_other] using tracked1
  obtain ⟨s2, run2, tracked2⟩ := parent.paint tracks make_ne_nil .black
  have grand : Tracked E s2 k (make g.side g.color (make f.side .black t f.key f.sib) g.key
    (g.sib.paint .black)) := by
    rw [tracked_plug] at tracked2 ⊢
    simpa only [plug, paint_make] using tracked2
  obtain ⟨s3, run3, tracked3⟩ := grand.paint tracks make_ne_nil .red
  rw [paint_make] at tracked3
  rw [ptr_make] at run2 run3
  refine ⟨s1, s2, s3, run1, run2, ?_, run3, tracked3⟩
  have focus := grand.shows.focus
  rw [holds_make] at focus
  rw [focus.1, parentColor_record, rbParent_word (topKey_aligned grand.shows.nodes.right)]

theorem insertLoop_black {f : Frame Nat} (shows : Shows s (f :: k) t) (black : f.color = .black) :
    insertLoop augment (fuel + 1) s (ptr t) f.key = some s := by
  obtain ⟨focus, ⟨atF, sibF, above⟩, root, nodes⟩ := shows
  obtain ⟨someF, _⟩ := nodes.address f.key (by simp [mem_around_cons])
  have aligned := topKey_aligned ((nodes_perm (perm_around f k)).mp nodes.right).tail.right
  have isBlack : rbIsBlack (s.node f.key) = true := by
    simp [atF, rbIsBlack, rbColor_word aligned, black, colorBit]
  simp [insertLoop, if_neg someF, load_eq someF, isBlack]

/-- A round of the loop below a red parent. -/
theorem insertLoop_red {f g : Frame Nat} (some : t ≠ nil) (shows : Shows s (f :: g :: k) t)
    (red : f.color = .red) : insertLoop augment (fuel + 1) s (ptr t) f.key =
      if g.sib.isRed then do
        let s ← rbSetParentColor s (ptr g.sib) g.key rbBlack
        let s ← rbSetParentColor s f.key g.key rbBlack
        let n ← load s g.key
        let s ← rbSetParentColor s g.key (rbParent n.parentColor) rbRed
        insertLoop augment fuel s g.key (rbParent n.parentColor)
      else if f.side = g.side then insertCase3 augment g.side s f.key g.key (ptr f.sib)
      else insertCase2 augment g.side s (ptr t) f.key g.key := by
  obtain ⟨focus, ⟨atF, sibF, atG, sibG, above⟩, root, nodes⟩ := shows
  obtain ⟨someF, _⟩ := nodes.address f.key (by simp [mem_around_cons])
  obtain ⟨someG, alignedG⟩ := nodes.address g.key (by simp [mem_around_cons])
  have outer := (nodes_perm (perm_around f (g :: k))).mp nodes.right
  have cases : insertLoop augment (fuel + 1) s (ptr t) f.key =
      insertCases augment (insertLoop augment fuel) g.side s (ptr t) f.key g.key := by
    have notSib : f.key ≠ ptr g.sib := by
      refine ptr_ne (fun mem => (List.nodup_cons.mp outer.distinct).1 ?_) someF
      simp [mem_around_cons, mem]
    rw [red, topKey_cons] at atF
    have notBlack : rbIsBlack (s.node f.key) = false := by
      simp [atF, rbIsBlack, rbColor_word alignedG, colorBit, rbRed, rbBlack]
    have gparent : (s.node f.key).parentColor = g.key := by rw [atF, parentColor_record, word_red]
    simp only [insertLoop, if_neg someF, load_eq someF, notBlack, gparent, load_eq someG,
      bind_eq_bind, bind_some, Bool.false_eq_true, if_false]
    cases side : g.side with
    | left => rw [if_pos (by rw [atG, side]; exact notSib)]
    | right => rw [if_neg (by rw [atG, side]; exact not_not.mpr rfl)]
  have uncle := (color_iff sibG alignedG
    ((nodes_perm (perm_around g k)).mp outer.tail.right).tail.left).1
  simp only [cases, insertCases, load_eq someG, load_eq someF, atG, atF, child_other_record,
    bind_eq_bind, bind_some, uncle]
  refine if_congr Iff.rfl rfl ?_
  by_cases same : f.side = g.side
  · have notSib : ptr t ≠ ptr f.sib := by
      refine ptr_ne (fun mem => ?_) (nodes.address _ (by simp [ptr_mem some])).1
      exact nodes.apart (mem_around_cons.mpr (.inr (.inl mem))) (ptr_mem some)
    rw [← same, child_other_record, if_neg notSib, if_pos rfl]
  · rw [Side.eq_other_of_ne same, child_record, if_pos rfl,
      if_neg (by cases g.side <;> simp [Side.other])]

/-- The loop of `__rb_insert`. -/
theorem insertLoop_tracked (tracks : Tracks augment E A) (some : t ≠ nil) {n : Nat}
    (place : PlaceOk k n) (enough : k.length < fuel) (tracked : Tracked E s k t) :
    ∃ s', insertLoop augment fuel s (ptr t) (topKey k) = .some s' ∧
      Tracked E s' [] (insertFix k t) := by
  obtain ⟨fuel, rfl⟩ : ∃ m, fuel = m + 1 := ⟨fuel - 1, by omega⟩
  induction k, t using insertFix.induct generalizing s n fuel with
  | case1 t => exact tracked.paint tracks some .black
  | case2 f t =>
    have black : f.color = .black := by
      by_contra notBlack
      obtain ⟨f', k', none, _⟩ := (place.2.2.1 (Color.eq_red_of_ne notBlack)).2
      cases none
    exact ⟨s, insertLoop_black tracked.shows black, tracked_plug.mp tracked⟩
  | case3 f g k t black =>
    rw [insertFix, if_pos black]
    exact ⟨s, insertLoop_black tracked.shows black, tracked_plug.mp tracked⟩
  | case4 f g k t notBlack red ih =>
    have isRed := Color.eq_red_of_ne notBlack
    rw [topKey_cons, insertLoop_red some tracked.shows isRed, if_pos red, insertFix,
      if_neg notBlack, if_pos red]
    obtain ⟨s1, s2, s3, run1, run2, up, run3, tracked3⟩ := flip_tracked tracks tracked red
    have someG := (tracked.shows.nodes.address g.key (by simp [mem_around_cons])).1
    simp only [run1, run2, load_eq someG, up, run3, bind_eq_bind, bind_some]
    obtain ⟨fuel, rfl⟩ : ∃ m, fuel = m + 1 := ⟨fuel - 1, by simp at enough; omega⟩
    have again := ih make_ne_nil (place_redParent place isRed).2.2.2.2.2
      tracked3 fuel (by simp at enough; omega)
    rwa [ptr_make] at again
  | case5 f g k t notBlack notRed outer =>
    have isRed := Color.eq_red_of_ne notBlack
    rw [topKey_cons, insertLoop_red some tracked.shows isRed,
      if_neg notRed, if_pos outer, insertFix, if_neg notBlack, if_neg notRed, if_pos outer]
    rw [tracked_plug, plug, plug, ← tracked_plug, outer] at tracked
    obtain ⟨s', run, tracked'⟩ := insertCase3_tracked tracks tracked
    exact ⟨s', run, tracked_plug.mp tracked'⟩
  | case6 f g k t notBlack notRed inner none => exact absurd (view_eq_none.mp none) some
  | case7 f g k t notBlack notRed inner c near x far shape =>
    have isRed := Color.eq_red_of_ne notBlack
    rw [topKey_cons, insertLoop_red some tracked.shows isRed,
      if_neg notRed, if_neg inner, insertFix, if_neg notBlack, if_neg notRed, if_neg inner, shape]
    rw [tracked_plug, plug, plug, ← tracked_plug, Side.eq_other_of_ne inner, view_eq_some.mp shape,
      ← make_other g.side c far near x] at tracked
    obtain ⟨s', run, tracked'⟩ := insertCase2_tracked tracks tracked
    rw [view_eq_some.mp shape, ptr_make]
    exact ⟨s', run, tracked_plug.mp tracked'⟩

end Insert

end Linux318.Source.Rbtree
