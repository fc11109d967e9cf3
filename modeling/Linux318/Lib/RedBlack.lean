import Mathlib.Data.List.Nodup
import Mathlib.Data.List.Perm.Basic

/-!
Red-black trees that are rebalanced from a node upwards. A place in a tree is the list of the
frames above it, the innermost first. A node is built from the child on one side and the other
child, so that a case and its mirror image are one.
-/
namespace Linux318.Lib.RedBlack
open List

inductive Color where
  | red | black
  deriving DecidableEq, Repr

def Color.weight : Color → Nat
  | red => 0
  | black => 1

theorem Color.eq_red_of_ne {c : Color} (ne : ¬c = .black) : c = .red := by
  cases c <;> simp_all

inductive Side where
  | left | right
  deriving DecidableEq, Repr

def Side.other : Side → Side
  | left => right
  | right => left

@[simp] theorem Side.other_other (side : Side) : side.other.other = side := by
  cases side <;> rfl

theorem Side.eq_other_of_ne {side side' : Side} (ne : ¬side = side') : side = side'.other := by
  cases side <;> cases side' <;> simp_all [Side.other]

inductive RbTree (κ : Type) where
  | nil
  | node (color : Color) (l : RbTree κ) (key : κ) (r : RbTree κ)
  deriving DecidableEq, Repr

/-- A node above the place: the place is its child on `side`, the other child is `sib`. -/
structure Frame (κ : Type) where
  side : Side
  color : Color
  key : κ
  sib : RbTree κ

namespace RbTree

variable {κ : Type} {a : κ} {n : Nat} {t : RbTree κ} {k : List (Frame κ)} {c : Color} {side : Side}

def toList : RbTree κ → List κ
  | nil => []
  | node _ l a r => l.toList ++ a :: r.toList

def isRed : RbTree κ → Bool
  | node .red _ _ _ => true
  | _ => false

def paint (c : Color) : RbTree κ → RbTree κ
  | nil => nil
  | node _ l a r => node c l a r

/-- The node with the child `near` on a side, and `far` on the other one. -/
def make (side : Side) (c : Color) (near : RbTree κ) (a : κ) (far : RbTree κ) : RbTree κ :=
  match side with
  | .left => node c near a far
  | .right => node c far a near

def view (side : Side) : RbTree κ → Option (Color × RbTree κ × κ × RbTree κ)
  | nil => none
  | node c l a r =>
    match side with
    | .left => some (c, l, a, r)
    | .right => some (c, r, a, l)

variable {near far : RbTree κ}

theorem view_eq_some : t.view side = some (c, near, a, far) ↔ t = make side c near a far := by
  cases t with
  | nil => cases side <;> simp [view, make]
  | node c' l a' r =>
    cases side
    · simp [view, make]
    · simp only [view, make, Option.some.injEq, Prod.mk.injEq, node.injEq]
      tauto

@[simp] theorem view_eq_none : t.view side = none ↔ t = nil := by
  cases t <;> cases side <;> simp [view]

@[simp] theorem view_make (side : Side) (c : Color) (near far : RbTree κ) (a : κ) :
    (make side c near a far).view side = some (c, near, a, far) :=
  view_eq_some.mpr rfl

theorem make_ne_nil : make side c near a far ≠ nil := by
  cases side <;> simp [make]

theorem exists_make (side : Side) (some : t ≠ nil) :
    ∃ c near a far, t = make side c near a far := by
  cases t with
  | nil => exact absurd rfl some
  | node c l a r =>
    cases side
    · exact ⟨c, l, a, r, rfl⟩
    · exact ⟨c, r, a, l, rfl⟩

theorem isRed_eq_false
    (notRed : ∀ near a far, t.view side ≠ some (.red, near, a, far)) : t.isRed = false := by
  cases t with
  | nil => rfl
  | node c l a r =>
    cases c with
    | black => rfl
    | red =>
      cases side
      · exact absurd rfl (notRed l a r)
      · exact absurd rfl (notRed r a l)

@[simp] theorem isRed_make (side : Side) (c : Color) (near far : RbTree κ) (a : κ) :
    (make side c near a far).isRed = (c = .red : Bool) := by
  cases side <;> cases c <;> rfl

@[simp] theorem paint_make (side : Side) (c c' : Color) (near far : RbTree κ) (a : κ) :
    (make side c near a far).paint c' = make side c' near a far := by
  cases side <;> rfl

theorem make_other (side : Side) (c : Color) (near far : RbTree κ) (a : κ) :
    make side.other c near a far = make side c far a near := by
  cases side <;> rfl

@[simp] theorem toList_paint (c : Color) (t : RbTree κ) : (t.paint c).toList = t.toList := by
  cases t <;> rfl

@[simp] theorem isRed_paint_black (t : RbTree κ) : (t.paint .black).isRed = false := by
  cases t <;> rfl

def plug : List (Frame κ) → RbTree κ → RbTree κ
  | [], t => t
  | f :: k, t => plug k (make f.side f.color t f.key f.sib)

def before : List (Frame κ) → List κ
  | [] => []
  | f :: k =>
    match f.side with
    | .left => before k
    | .right => before k ++ (f.sib.toList ++ [f.key])

def behind : List (Frame κ) → List κ
  | [] => []
  | f :: k =>
    match f.side with
    | .left => f.key :: f.sib.toList ++ behind k
    | .right => behind k

theorem toList_plug (k : List (Frame κ)) (t : RbTree κ) :
    (plug k t).toList = before k ++ t.toList ++ behind k := by
  induction k generalizing t with
  | nil => simp [plug, before, behind]
  | cons f k ih =>
    obtain ⟨side, c, a, sib⟩ := f
    rw [plug, ih]
    cases side <;> simp [make, toList, before, behind]

theorem toList_plug_congr {t' : RbTree κ} (same : t.toList = t'.toList) :
    (plug k t).toList = (plug k t').toList := by
  rw [toList_plug, toList_plug, same]

theorem plug_append (k k' : List (Frame κ)) (t : RbTree κ) :
    plug (k ++ k') t = plug k' (plug k t) := by
  induction k generalizing t with
  | nil => rfl
  | cons f k ih => exact ih _

/-- The keys that are not below a place. -/
def around (k : List (Frame κ)) : List κ := before k ++ behind k

theorem perm_around (f : Frame κ) (k : List (Frame κ)) :
    (around (f :: k)).Perm (f.key :: (f.sib.toList ++ around k)) := by
  classical
  obtain ⟨side, c, a, sib⟩ := f
  rw [perm_iff_count]
  cases side <;> simp only [around, before, behind, count_append, count_cons, count_nil] <;> omega

theorem count_make [DecidableEq κ] (side : Side) (c : Color) (near far : RbTree κ) (a b : κ) :
    (make side c near a far).toList.count b =
      near.toList.count b + far.toList.count b + if a = b then 1 else 0 := by
  cases side <;> simp only [make, toList, count_append, count_cons, beq_iff_eq] <;> omega

theorem perm_make (side : Side) (c : Color) (near far : RbTree κ) (a : κ) :
    (make side c near a far).toList.Perm (a :: (near.toList ++ far.toList)) := by
  classical
  rw [perm_iff_count]
  intro b
  simp [count_make, count_cons]

theorem perm_around_cons (f : Frame κ) (k : List (Frame κ)) (t : RbTree κ) :
    (t.toList ++ around (f :: k)).Perm
      ((make f.side f.color t f.key f.sib).toList ++ around k) := by
  refine ((perm_around f k).append_left t.toList).trans ?_
  refine List.Perm.trans ?_ ((perm_make f.side f.color t f.sib f.key).append_right (around k)).symm
  simp

variable {f : Frame κ}

theorem mem_around_cons : a ∈ around (f :: k) ↔ a = f.key ∨ a ∈ f.sib.toList ∨ a ∈ around k := by
  rw [(perm_around f k).mem_iff, mem_cons, mem_append]

theorem key_mem_around (mem : f ∈ k) : f.key ∈ around k := by
  induction k with
  | nil => cases mem
  | cons g k ih =>
    rw [mem_around_cons]
    rcases mem_cons.mp mem with rfl | inner
    · exact .inl rfl
    · exact .inr (.inr (ih inner))

theorem mem_around_append {k' : List (Frame κ)} :
    a ∈ around (k ++ k') ↔ a ∈ around k ∨ a ∈ around k' := by
  induction k with
  | nil => simp [around, before, behind]
  | cons f k ih =>
    rw [cons_append, mem_around_cons, mem_around_cons]
    tauto

theorem mem_make {b : κ} :
    b ∈ (make side c near a far).toList ↔ b = a ∨ b ∈ near.toList ∨ b ∈ far.toList := by
  rw [(perm_make side c near far a).mem_iff, mem_cons, mem_append]

theorem nodup_make : (make side c near a far).toList.Nodup ↔
      (a ∉ near.toList ∧ a ∉ far.toList) ∧ near.toList.Nodup ∧ far.toList.Nodup ∧
        ∀ b ∈ near.toList, b ∉ far.toList := by
  rw [(perm_make side c near far a).nodup_iff, nodup_cons, mem_append, not_or, nodup_append']
  rfl

theorem exists_place (mem : a ∈ t.toList) : ∃ k c l r, t = plug k (node c l a r) := by
  induction t with
  | nil => cases mem
  | node c l b r ihl ihr =>
    rcases mem_append.mp mem with inLeft | here
    · obtain ⟨k, c', l', r', rfl⟩ := ihl inLeft
      exact ⟨k ++ [⟨.left, c, b, r⟩], c', l', r', by rw [plug_append]; rfl⟩
    rcases mem_cons.mp here with rfl | inRight
    · exact ⟨[], c, l, r, rfl⟩
    · obtain ⟨k, c', l', r', rfl⟩ := ihr inRight
      exact ⟨k ++ [⟨.right, c, b, l⟩], c', l', r', by rw [plug_append]; rfl⟩

def bare : RbTree κ → RbTree κ
  | nil => nil
  | node _ l a r => node .black l.bare a r.bare

@[simp] theorem bare_paint (c : Color) (t : RbTree κ) : (t.paint c).bare = t.bare := by
  cases t <;> rfl

@[simp] theorem bare_make (side : Side) (c : Color) (near far : RbTree κ) (a : κ) :
    (make side c near a far).bare = make side .black near.bare a far.bare := by
  cases side <;> rfl

theorem bare_plug_congr {t' : RbTree κ} (same : t.bare = t'.bare) :
    (plug k t).bare = (plug k t').bare := by
  induction k generalizing t t' with
  | nil => exact same
  | cons f k ih => exact ih (by rw [bare_make, bare_make, same])

/-- All paths to a leaf have `n` black nodes. -/
def Balanced : RbTree κ → Nat → Prop
  | nil, n => n = 0
  | node c l _ r, n => ∃ m, n = m + c.weight ∧ l.Balanced m ∧ r.Balanced m

/-- No red node has a red child. -/
def RedOk : RbTree κ → Prop
  | nil => True
  | node c l _ r => (c = .red → l.isRed = false ∧ r.isRed = false) ∧ l.RedOk ∧ r.RedOk

structure IsRedBlack (t : RbTree κ) : Prop where
  root : t.isRed = false
  colors : t.RedOk
  balanced : ∃ n, t.Balanced n

theorem balanced_make : (make side c near a far).Balanced n ↔
      ∃ m, n = m + c.weight ∧ near.Balanced m ∧ far.Balanced m := by
  cases side
  · rfl
  · exact exists_congr fun m => and_congr_right fun _ => and_comm

theorem redOk_make : (make side c near a far).RedOk ↔
      (c = .red → near.isRed = false ∧ far.isRed = false) ∧ near.RedOk ∧ far.RedOk := by
  cases side
  · rfl
  · exact and_congr (imp_congr_right fun _ => and_comm) and_comm

theorem Balanced.join (nearOk : near.Balanced n) (farOk : far.Balanced n) :
    (make side c near a far).Balanced (n + c.weight) :=
  balanced_make.mpr ⟨n, rfl, nearOk, farOk⟩

theorem RedOk.join (nearOk : near.RedOk) (farOk : far.RedOk) :
    (make side .black near a far).RedOk :=
  redOk_make.mpr ⟨fun isRed => (by cases isRed), nearOk, farOk⟩

theorem RedOk.paint_black (colors : t.RedOk) : (t.paint .black).RedOk := by
  cases t with
  | nil => trivial
  | node c l a r => exact ⟨fun red => (by cases red), colors.2⟩

theorem paint_black_eq_self (black : t.isRed = false) : t.paint .black = t := by
  cases t with
  | nil => rfl
  | node c l a r => cases c <;> simp_all [isRed, paint]

/-- Painting a red root black adds one to the height. -/
theorem Balanced.paint_black (balanced : t.Balanced n)
    (red : t.isRed = true) : (t.paint .black).Balanced (n + 1) := by
  cases t with
  | nil => cases red
  | node c l a r =>
    cases c with
    | black => cases red
    | red =>
      obtain ⟨m, same, left, right⟩ := balanced
      exact ⟨m, congrArg (· + 1) same, left, right⟩

def TopBlack (k : List (Frame κ)) : Prop := ∃ f k', k = f :: k' ∧ f.color = .black

/-- A place for a tree of height `n`. -/
def PlaceOk : List (Frame κ) → Nat → Prop
  | [], _ => True
  | f :: k, n => f.sib.Balanced n ∧ f.sib.RedOk ∧
      (f.color = .red → f.sib.isRed = false ∧ TopBlack k) ∧ PlaceOk k (n + f.color.weight)

theorem redBlack_plug (place : PlaceOk k n) (balanced : t.Balanced n) (colors : t.RedOk)
    (top : t.isRed = true → TopBlack k) : IsRedBlack (plug k t) := by
  induction k generalizing t n with
  | nil =>
    refine ⟨?_, colors, n, balanced⟩
    cases red : t.isRed with
    | false => exact red
    | true =>
      obtain ⟨f, k', none, _⟩ := top red
      cases none
  | cons f k ih =>
    obtain ⟨sibBalanced, sibColors, red, place⟩ := place
    refine ih place (balanced.join sibBalanced)
      (redOk_make.mpr ⟨fun isRed => ⟨?_, (red isRed).1⟩, colors, sibColors⟩) fun isRed => ?_
    · cases here : t.isRed with
      | false => rfl
      | true =>
        obtain ⟨f', k', same, black⟩ := top here
        cases same
        rw [isRed] at black
        cases black
    · exact (red (by simpa using isRed)).2

variable {path : List (Frame κ)}

/-- A place below a place, and the tree there. -/
theorem placeOk_append (place : PlaceOk k n)
    (balanced : (plug path t).Balanced n) (colors : (plug path t).RedOk)
    (top : (plug path t).isRed = true → TopBlack k) :
    ∃ m, PlaceOk (path ++ k) m ∧ t.Balanced m ∧ t.RedOk ∧
      (t.isRed = true → TopBlack (path ++ k)) := by
  induction path generalizing t with
  | nil => exact ⟨n, place, balanced, colors, top⟩
  | cons f path ih =>
    obtain ⟨m, inner, balanced, colors, top⟩ := ih balanced colors top
    obtain ⟨m, rfl, nearBalanced, farBalanced⟩ := balanced_make.mp balanced
    obtain ⟨red, nearColors, farColors⟩ := redOk_make.mp colors
    refine ⟨m, ⟨farBalanced, farColors, fun isRed => ⟨(red isRed).2, top (by simpa using isRed)⟩,
      inner⟩, nearBalanced, nearColors, fun isRed => ⟨f, path ++ k, rfl, ?_⟩⟩
    cases color : f.color with
    | black => rfl
    | red =>
      rw [(red color).1] at isRed
      cases isRed

theorem placeOk_of_isRedBlack (tree : IsRedBlack (plug k t)) :
    ∃ n, PlaceOk k n ∧ t.Balanced n ∧ t.RedOk ∧ (t.isRed = true → TopBlack k) := by
  obtain ⟨n, balanced⟩ := tree.balanced
  have whole := placeOk_append (k := []) trivial balanced tree.colors fun red => by
    rw [tree.root] at red
    cases red
  rwa [append_nil] at whole

/-- The tree after the place got a tree with a red root, which may have a red parent. -/
def insertFix : List (Frame κ) → RbTree κ → RbTree κ
  | [], t => t.paint .black
  | [f], t => plug [f] t
  | f :: g :: k, t =>
    if f.color = .black then plug (f :: g :: k) t
    else if g.sib.isRed then
      insertFix k (make g.side .red (make f.side .black t f.key f.sib) g.key (g.sib.paint .black))
    else if f.side = g.side then
      plug k (make g.side g.color t f.key (make g.side .red (f.sib.paint .black) g.key g.sib))
    else
      match t.view g.side with
      | none => plug (f :: g :: k) t
      | some (_, near, n, far) =>
        plug k (make g.side g.color (make g.side .red f.sib f.key (near.paint .black)) n
          (make g.side .red (far.paint .black) g.key g.sib))

theorem toList_insertFix (k : List (Frame κ)) (t : RbTree κ) :
    (insertFix k t).toList = (plug k t).toList := by
  induction k, t using insertFix.induct with
  | case1 t => simp [insertFix, plug]
  | case2 f t => rfl
  | case3 f g k t black => rw [insertFix, if_pos black]
  | case4 f g k t notBlack red ih =>
    rw [insertFix, if_neg notBlack, if_pos red, ih]
    refine toList_plug_congr ?_
    cases f.side <;> cases g.side <;> simp [make, toList]
  | case5 f g k t notBlack notRed outer =>
    rw [insertFix, if_neg notBlack, if_neg notRed, if_pos outer]
    refine toList_plug_congr ?_
    rw [outer]
    cases g.side <;> simp [make, toList]
  | case6 f g k t notBlack notRed inner none =>
    rw [insertFix, if_neg notBlack, if_neg notRed, if_neg inner, none]
  | case7 f g k t notBlack notRed inner c near n far shape =>
    rw [insertFix, if_neg notBlack, if_neg notRed, if_neg inner, shape]
    refine toList_plug_congr ?_
    rw [view_eq_some.mp shape, Side.eq_other_of_ne inner]
    cases g.side <;> simp [make, toList, Side.other]

/-- Below a red frame: the frame above it is black. -/
theorem place_redParent {g : Frame κ} (place : PlaceOk (f :: g :: k) n) (red : f.color = .red) :
    f.sib.Balanced n ∧ (f.sib.RedOk ∧ f.sib.isRed = false) ∧ g.sib.Balanced n ∧ g.sib.RedOk ∧
      g.color = .black ∧ PlaceOk k (n + 1) := by
  obtain ⟨sibBalanced, sibColors, below, uncleBalanced, uncleColors, _, above⟩ := place
  obtain ⟨sibBlack, g', k', same, black⟩ := below red
  cases same
  rw [red] at uncleBalanced above
  rw [black] at above
  exact ⟨sibBalanced, ⟨sibColors, sibBlack⟩, uncleBalanced, uncleColors, black, above⟩

theorem insertFix_isRedBlack (place : PlaceOk k n) (red : t.isRed = true) (balanced : t.Balanced n)
    (colors : t.RedOk) : IsRedBlack (insertFix k t) := by
  induction k, t using insertFix.induct generalizing n with
  | case1 t => exact ⟨isRed_paint_black t, colors.paint_black, n + 1, balanced.paint_black red⟩
  | case2 f t =>
    refine redBlack_plug place balanced colors fun _ => ⟨f, [], rfl, ?_⟩
    cases color : f.color with
    | black => rfl
    | red =>
      obtain ⟨g, k, none, _⟩ := (place.2.2.1 color).2
      cases none
  | case3 f g k t black =>
    rw [insertFix, if_pos black]
    exact redBlack_plug place balanced colors fun _ => ⟨f, _, rfl, black⟩
  | case4 f g k t notBlack uncleRed ih =>
    rw [insertFix, if_neg notBlack, if_pos uncleRed]
    obtain ⟨sibBalanced, ⟨sibColors, sibBlack⟩, uncleBalanced, uncleColors, black, above⟩ :=
      place_redParent place (Color.eq_red_of_ne notBlack)
    refine ih above (by simp) (.join ?_ (uncleBalanced.paint_black uncleRed))
      (redOk_make.mpr ⟨fun _ => by simp, ?_, uncleColors.paint_black⟩)
    · exact balanced.join sibBalanced
    · exact colors.join sibColors
  | case5 f g k t notBlack notRed outer =>
    rw [insertFix, if_neg notBlack, if_neg notRed, if_pos outer]
    obtain ⟨sibBalanced, ⟨sibColors, sibBlack⟩, uncleBalanced, uncleColors, black, above⟩ :=
      place_redParent place (Color.eq_red_of_ne notBlack)
    have uncleBlack : g.sib.isRed = false := by simpa using notRed
    rw [black, paint_black_eq_self sibBlack]
    refine redBlack_plug above (balanced.join ?_) (colors.join ?_) (by simp)
    · exact sibBalanced.join uncleBalanced
    · exact redOk_make.mpr ⟨fun _ => ⟨sibBlack, uncleBlack⟩, sibColors, uncleColors⟩
  | case6 f g k t notBlack notRed inner none =>
    rw [view_eq_none] at none
    subst none
    cases red
  | case7 f g k t notBlack notRed inner c near x far shape =>
    rw [insertFix, if_neg notBlack, if_neg notRed, if_neg inner, shape]
    obtain ⟨sibBalanced, ⟨sibColors, sibBlack⟩, uncleBalanced, uncleColors, black, above⟩ :=
      place_redParent place (Color.eq_red_of_ne notBlack)
    have uncleBlack : g.sib.isRed = false := by simpa using notRed
    rw [view_eq_some.mp shape] at red balanced colors
    obtain rfl : c = .red := by simpa using red
    obtain ⟨m, same, nearBalanced, farBalanced⟩ := balanced_make.mp balanced
    obtain rfl : n = m := same
    obtain ⟨blacks, nearColors, farColors⟩ := redOk_make.mp colors
    obtain ⟨nearBlack, farBlack⟩ := blacks rfl
    show IsRedBlack (plug k _)
    rw [black, paint_black_eq_self nearBlack, paint_black_eq_self farBlack]
    refine redBlack_plug above (.join ?_ ?_) (.join ?_ ?_) (by simp)
    · exact sibBalanced.join nearBalanced
    · exact farBalanced.join uncleBalanced
    · exact redOk_make.mpr ⟨fun _ => ⟨sibBlack, nearBlack⟩, sibColors, nearColors⟩
    · exact redOk_make.mpr ⟨fun _ => ⟨farBlack, uncleBlack⟩, farColors, uncleColors⟩

/-- One step below a black sibling. The result goes to `done`, or to `up` if it is still too low. -/
def siblingFix (side : Side) (c : Color) (t : RbTree κ) (p : κ) (sib : RbTree κ)
    (done up : RbTree κ → RbTree κ) : RbTree κ :=
  match sib.view side with
  | none => done (make side c t p sib)
  | some (_, near, s, far) =>
    if far.isRed then done (make side c (make side .black t p near) s (far.paint .black))
    else
      match near.view side with
      | some (.red, a, x, b) =>
        done (make side c (make side .black t p a) x (make side .black (b.paint .black) s far))
      | _ =>
        if c = .red then done (make side .black t p (make side .red near s far))
        else up (make side c t p (make side .red near s far))

/-- The tree after the place got a tree that is one too low. -/
def eraseFix : List (Frame κ) → RbTree κ → RbTree κ
  | [], t => t
  | f :: k, t =>
    match f.sib.view f.side with
    | some (.red, near, s, far) =>
      siblingFix f.side .red t f.key (near.paint .black) (plug (⟨f.side, f.color, s, far⟩ :: k))
        (plug (⟨f.side, f.color, s, far⟩ :: k))
    | _ => siblingFix f.side f.color t f.key f.sib (plug k) (eraseFix k)

theorem toList_siblingFix {sib : RbTree κ} {p : κ} {done up : RbTree κ → RbTree κ}
    {before behind : List κ} (doneList : ∀ t', (done t').toList = before ++ t'.toList ++ behind)
    (upList : ∀ t', (up t').toList = before ++ t'.toList ++ behind) :
    (siblingFix side c t p sib done up).toList =
      before ++ (make side c t p sib).toList ++ behind := by
  unfold siblingFix
  split
  · exact doneList _
  rename_i cs near s far shape
  rw [view_eq_some.mp shape]
  split
  · rw [doneList]
    cases side <;> simp [make, toList]
  split
  · rename_i a x b nearShape
    rw [doneList, view_eq_some.mp nearShape]
    cases side <;> simp [make, toList]
  split
  · rw [doneList]
    cases side <;> simp [make, toList]
  · rw [upList]
    cases side <;> simp [make, toList]

theorem toList_eraseFix (k : List (Frame κ)) (t : RbTree κ) :
    (eraseFix k t).toList = (plug k t).toList := by
  induction k generalizing t with
  | nil => rfl
  | cons f k ih =>
    rw [eraseFix]
    split
    · rename_i near s far shape
      rw [toList_siblingFix (toList_plug _) (toList_plug _), toList_plug (f :: k)]
      obtain ⟨side, c, p, sib⟩ := f
      simp only at shape ⊢
      rw [view_eq_some.mp shape]
      cases side <;> simp [before, behind, make, toList]
    · rw [toList_siblingFix (toList_plug k) fun t' => (ih t').trans (toList_plug k t'), plug,
        toList_plug]

/-- The step below a black sibling, for a tree that is one lower than the sibling. -/
theorem siblingFix_isRedBlack {sib : RbTree κ} {p : κ}
    {done up : RbTree κ → RbTree κ} (balanced : t.Balanced n) (colors : t.RedOk)
    (sibBalanced : sib.Balanced (n + 1)) (sibColors : sib.RedOk) (sibBlack : sib.isRed = false)
    (doneOk : ∀ t', t'.Balanced (n + 1 + c.weight) → t'.RedOk → (t'.isRed = true → c = .red) →
      IsRedBlack (done t'))
    (upOk : c = .black → ∀ t', t'.Balanced (n + 1) → t'.RedOk → t'.isRed = false →
      IsRedBlack (up t')) : IsRedBlack (siblingFix side c t p sib done up) := by
  unfold siblingFix
  split
  · rename_i none
    rw [view_eq_none] at none
    subst none
    cases sibBalanced
  rename_i cs near s far shape
  have whole := view_eq_some.mp shape
  subst whole
  obtain rfl : cs = .black := by
    cases cs
    · simp at sibBlack
    · rfl
  obtain ⟨m, same, nearBalanced, farBalanced⟩ := balanced_make.mp sibBalanced
  obtain rfl : n = m := Nat.succ.inj same
  obtain ⟨_, nearColors, farColors⟩ := redOk_make.mp sibColors
  split
  · rename_i farRed
    refine doneOk _ (.join ?_ (farBalanced.paint_black farRed))
      (redOk_make.mpr ⟨fun _ => by simp, ?_, farColors.paint_black⟩) (by simp)
    · exact balanced.join nearBalanced
    · exact colors.join nearColors
  rename_i farBlack
  have farBlack : far.isRed = false := by simpa using farBlack
  split
  · rename_i a x b nearShape
    have whole := view_eq_some.mp nearShape
    subst whole
    obtain ⟨m, same, aBalanced, bBalanced⟩ := balanced_make.mp nearBalanced
    obtain rfl : n = m := same
    obtain ⟨blacks, aColors, bColors⟩ := redOk_make.mp nearColors
    rw [paint_black_eq_self (blacks rfl).2]
    refine doneOk _ (.join ?_ ?_) (redOk_make.mpr ⟨fun _ => by simp, ?_, ?_⟩) (by simp)
    · exact balanced.join aBalanced
    · exact bBalanced.join farBalanced
    · exact colors.join aColors
    · exact bColors.join farColors
  rename_i notRed
  have nearBlack := isRed_eq_false notRed
  have flipped : (make side .red near s far).Balanced n :=
    nearBalanced.join farBalanced
  have flippedColors : (make side .red near s far).RedOk :=
    redOk_make.mpr ⟨fun _ => ⟨nearBlack, farBlack⟩, nearColors, farColors⟩
  split
  · rename_i isRed
    subst isRed
    exact doneOk _ (balanced.join flipped) (colors.join flippedColors) (by simp)
  rename_i notRed
  obtain rfl : c = .black := by
    cases c
    · exact absurd rfl notRed
    · rfl
  exact upOk rfl _ (balanced.join flipped) (colors.join flippedColors) (by simp)

theorem eraseFix_isRedBlack (place : PlaceOk k (n + 1)) (black : t.isRed = false)
    (balanced : t.Balanced n) (colors : t.RedOk) : IsRedBlack (eraseFix k t) := by
  induction k generalizing t n with
  | nil => exact ⟨black, colors, n, balanced⟩
  | cons f k ih =>
    obtain ⟨sibBalanced, sibColors, red, above⟩ := place
    rw [eraseFix]
    split
    · rename_i near s far shape
      -- a red sibling has black children and a black parent
      rw [view_eq_some.mp shape] at sibBalanced sibColors red
      obtain ⟨m, same, nearBalanced, farBalanced⟩ := balanced_make.mp sibBalanced
      obtain rfl : n + 1 = m := same
      obtain ⟨blacks, nearColors, farColors⟩ := redOk_make.mp sibColors
      have color : f.color = .black := by
        cases color : f.color with
        | black => rfl
        | red => simpa using (red color).1
      rw [color] at above
      have place : PlaceOk (⟨f.side, f.color, s, far⟩ :: k) (n + 1) :=
        ⟨farBalanced, farColors, fun isRed => (by rw [color] at isRed; cases isRed), by rwa [color]⟩
      rw [paint_black_eq_self (blacks rfl).1]
      refine siblingFix_isRedBlack balanced colors nearBalanced nearColors (blacks rfl).1
        (fun t' balanced' colors' _ => redBlack_plug place balanced' colors' fun _ => ?_)
        fun isBlack => (by cases isBlack)
      exact ⟨_, k, rfl, color⟩
    · rename_i notRed
      refine siblingFix_isRedBlack balanced colors sibBalanced sibColors (isRed_eq_false notRed)
        (fun t' balanced' colors' isRed => redBlack_plug above balanced' colors' fun here => ?_)
        fun isBlack t' balanced' colors' black' => ?_
      · exact (red (isRed here)).2
      · rw [isBlack] at above
        exact ih above black' balanced' colors'

/-- The place of the first key of a tree below a place, with its color, the key and its right
child. -/
def firstPlace : RbTree κ → List (Frame κ) → Option (List (Frame κ) × Color × κ × RbTree κ)
  | nil, _ => none
  | node c nil a r, k => some (k, c, a, r)
  | node c (node c' l' a' r') a r, k => firstPlace (node c' l' a' r') (⟨.left, c, a, r⟩ :: k)

/-- A node with at most one child has left its place. -/
def dropNode (k : List (Frame κ)) (c : Color) (child : RbTree κ) : RbTree κ :=
  match child with
  | nil => if c = .black then eraseFix k nil else plug k nil
  | node _ l a r => plug k (node .black l a r)

/-- The tree without the node at a place. If the node has two children, the next key takes its
place and color. -/
def eraseAt (k : List (Frame κ)) (c : Color) (l r : RbTree κ) : RbTree κ :=
  match l with
  | nil => dropNode k c r
  | node .. =>
    match firstPlace r [] with
    | none => dropNode k c l
    | some (path, c', s, r') => dropNode (path ++ ⟨.right, c, s, l⟩ :: k) c' r'

variable {r : RbTree κ}

theorem firstPlace_spec {s : κ} (found : firstPlace t k = some (path, c, s, r)) :
    ∃ path', path = path' ++ k ∧ (∀ f ∈ path', f.side = .left) ∧ t = plug path' (node c nil s r) := by
  induction t, k using firstPlace.induct with
  | case1 => cases found
  | case2 k c' a r' =>
    cases found
    exact ⟨[], rfl, by simp, rfl⟩
  | case3 c' cl ll al rl a r' k ih =>
    obtain ⟨path', rfl, left, whole⟩ := ih found
    refine ⟨path' ++ [⟨.left, c', a, r'⟩], by simp, ?_, ?_⟩
    · intro f mem
      rcases mem_append.mp mem with inner | outer
      · exact left f inner
      · rw [mem_singleton.mp outer]
    · rw [plug_append, ← whole]
      rfl

theorem firstPlace_eq_none : firstPlace t k = none ↔ t = nil := by
  induction t, k using firstPlace.induct with
  | case1 => simp [firstPlace]
  | case2 => simp [firstPlace]
  | case3 c' cl ll al rl a r' k ih =>
    rw [firstPlace, ih]
    simp

theorem before_left (left : ∀ f ∈ path, f.side = .left)
    (k : List (Frame κ)) : before (path ++ k) = before k := by
  induction path with
  | nil => rfl
  | cons f path ih =>
    rw [cons_append, before, left f (mem_cons_self ..)]
    exact ih fun g mem => left g (mem_cons_of_mem f mem)

theorem before_append (path k : List (Frame κ)) : before (path ++ k) = before k ++ before path := by
  induction path with
  | nil => simp [before]
  | cons f path ih =>
    cases side : f.side <;> simp [before, side, ih]

theorem behind_append (path k : List (Frame κ)) : behind (path ++ k) = behind path ++ behind k := by
  induction path with
  | nil => rfl
  | cons f path ih =>
    cases side : f.side <;> simp [behind, side, ih]

theorem toList_dropNode (k : List (Frame κ)) (c : Color) (child : RbTree κ) :
    (dropNode k c child).toList = before k ++ child.toList ++ behind k := by
  cases child with
  | nil =>
    rw [dropNode]
    split
    · rw [toList_eraseFix, toList_plug]
    · rw [toList_plug]
  | node c' l a r =>
    rw [dropNode, toList_plug]
    rfl

theorem toList_eraseAt (k : List (Frame κ)) (c : Color) (l r : RbTree κ) :
    (eraseAt k c l r).toList = before k ++ (l.toList ++ r.toList) ++ behind k := by
  unfold eraseAt
  split
  · rw [toList_dropNode]
    rfl
  split
  · rename_i none
    rw [toList_dropNode, firstPlace_eq_none.mp none]
    simp [toList]
  rename_i path c' s r' found
  obtain ⟨path', same, left, whole⟩ := firstPlace_spec found
  rw [append_nil] at same
  subst same
  rw [toList_dropNode, before_left left, behind_append, whole, toList_plug]
  have none : before path = [] := by simpa [before] using before_left left []
  simp [before, behind, none, toList]

/-- A single child is red, and then its parent is black. -/
theorem single_child {child : RbTree κ} (some : child ≠ nil)
    (balanced : (make side c nil a child).Balanced n) (colors : (make side c nil a child).RedOk) :
    child.isRed = true ∧ c = .black := by
  obtain ⟨m, rfl, none, childBalanced⟩ := balanced_make.mp balanced
  obtain rfl : m = 0 := none
  obtain ⟨blacks, _, childColors⟩ := redOk_make.mp colors
  have red : child.isRed = true := by
    cases child with
    | nil => exact absurd rfl some
    | node c' l x r =>
      obtain ⟨m, height, _, _⟩ := childBalanced
      cases c' with
      | red => rfl
      | black => simp [Color.weight] at height
  refine ⟨red, ?_⟩
  cases c with
  | black => rfl
  | red => exact absurd (blacks rfl).2 (by simp [red])

theorem dropNode_isRedBlack (side : Side) {child : RbTree κ} (place : PlaceOk k n)
    (balanced : (make side c nil a child).Balanced n)
    (colors : (make side c nil a child).RedOk) : IsRedBlack (dropNode k c child) := by
  have single := fun some => single_child some balanced colors
  obtain ⟨m, rfl, none, childBalanced⟩ := balanced_make.mp balanced
  obtain rfl : m = 0 := none
  obtain ⟨_, _, childColors⟩ := redOk_make.mp colors
  cases child with
  | nil =>
    rw [dropNode]
    split
    · rename_i black
      subst black
      exact eraseFix_isRedBlack place rfl rfl trivial
    · rename_i red
      obtain rfl := Color.eq_red_of_ne red
      exact redBlack_plug place rfl trivial fun isRed => (by cases isRed)
  | node c' l x r =>
    obtain ⟨red, rfl⟩ := single (by simp)
    exact redBlack_plug place (childBalanced.paint_black red) childColors.paint_black
      fun isRed => (by cases isRed)

/-- The place of the next key, when the key replaces the one above it. -/
theorem successor_place {c' : Color} {l r' : RbTree κ} {s : κ}
    (tree : IsRedBlack (plug k (node c l a r))) (found : firstPlace r [] = some (path, c', s, r')) :
    ∃ m, PlaceOk (path ++ ⟨.right, c, s, l⟩ :: k) m ∧ (node c' nil s r').Balanced m ∧
      (node c' nil s r').RedOk := by
  obtain ⟨n, place, balanced, colors, top⟩ := placeOk_of_isRedBlack tree
  obtain ⟨path', same, _, whole⟩ := firstPlace_spec found
  rw [append_nil] at same
  subst same
  obtain ⟨m, rfl, leftBalanced, rightBalanced⟩ := balanced
  obtain ⟨blacks, leftColors, rightColors⟩ := colors
  have frame : PlaceOk (⟨.right, c, s, l⟩ :: k) m :=
    ⟨leftBalanced, leftColors, fun red => ⟨(blacks red).1, top (by subst red; rfl)⟩, place⟩
  rw [whole] at rightBalanced rightColors blacks
  obtain ⟨m', place', balanced', colors', _⟩ := placeOk_append frame rightBalanced rightColors
    fun isRed => ⟨_, k, rfl, by
      cases c with
      | black => rfl
      | red =>
        rw [(blacks rfl).2] at isRed
        cases isRed⟩
  exact ⟨m', place', balanced', colors'⟩

theorem eraseAt_isRedBlack {l : RbTree κ}
    (tree : IsRedBlack (plug k (node c l a r))) : IsRedBlack (eraseAt k c l r) := by
  obtain ⟨n, place, balanced, colors, _⟩ := placeOk_of_isRedBlack tree
  cases l with
  | nil => exact dropNode_isRedBlack .left place balanced colors
  | node cl ll al rl =>
    rw [eraseAt]
    split
    · rename_i none
      rw [firstPlace_eq_none] at none
      subst none
      exact dropNode_isRedBlack .right place balanced colors
    · rename_i path c' s r' found
      obtain ⟨m, place', balanced', colors'⟩ := successor_place tree found
      exact dropNode_isRedBlack .left place' balanced' colors'

end RbTree

end Linux318.Lib.RedBlack
