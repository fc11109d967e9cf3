import Linux318.Source.Mm.PageAlloc
import Mathlib.Tactic.Ring
import Mathlib.Tactic.Linarith

/-!
What the lists and page orders of a zone say: a map from the first page of a free
block to its order and the type of its list. Taking a block off the lists, giving
one back, splitting, joining and moving blocks are described on this map and on
the map of the blocks in use.
-/
namespace Linux318.Source.Mm
open Function List Lib.BlockMap

/-- The free blocks by their first page: order and type of the list. -/
abbrev FreeMap := Nat → Option (Nat × MigrateType)

abbrev HeldMap := Nat → Option Nat

/-- The lists and the page orders of the zone agree with the map. -/
structure Shows (z : Zone) (free : FreeMap) : Prop where
  pageOrder (p : Nat) : z.pageOrder p = (free p).map Prod.fst
  mem (p o : Nat) (t : MigrateType) : p ∈ z.freeList o t ↔ free p = some (o, t)
  nodup (o : Nat) (t : MigrateType) : (z.freeList o t).Nodup

variable {order : Nat} {n : Int} {z z' : Zone} {mt : MigrateType}

theorem overTypes_add (f g : MigrateType → Int) :
    overTypes (fun t => f t + g t) = overTypes f + overTypes g := by
  simp only [overTypes]
  ring

theorem overTypes_single (mt : MigrateType) (c : Int) :
    overTypes (fun t => if t = mt then c else 0) = c := by
  cases mt <;> simp [overTypes]

variable (lengths : ∀ o t, ((z'.freeList o t).length : Int) =
  (z.freeList o t).length + if o = order ∧ t = mt then n else 0)

include lengths in
/-- The lists of one type and order gain `n` blocks. -/
theorem weighted_of_length (weight : MigrateType → Int) (o : Nat) :
    weighted z' weight o = weighted z weight o + if o = order then weight mt * n else 0 := by
  have each (t : MigrateType) : weight t * ((z'.freeList o t).length : Int) =
      weight t * (z.freeList o t).length +
        if t = mt then (if o = order then weight mt * n else 0) else 0 := by
    rw [lengths, mul_add]
    by_cases same : o = order <;> by_cases type : t = mt <;> simp [type]
  rw [weighted, funext each, overTypes_add, overTypes_single, weighted]

theorem freePagesBelow_of_weighted {c : Int}
    (change : ∀ o, weighted z' unlessIsolate o = weighted z unlessIsolate o + if o =
      order then c else 0) (n : Nat) :
    freePagesBelow z' n = freePagesBelow z n + if order < n then 2 ^ order * c else 0 := by
  induction n with
  | zero => simp [freePagesBelow]
  | succ n ih =>
    rw [freePagesBelow, freePagesBelow, ih, change]
    rcases Nat.lt_trichotomy order n with lt | rfl | gt
    · rw [if_pos lt, if_neg (by omega), if_pos (by omega)]
      ring
    · rw [if_neg (by omega), if_pos rfl, if_pos (by omega)]
      ring
    · rw [if_neg (by omega), if_neg (by omega), if_neg (by omega)]
      ring

theorem freePagesBelow_congr (lists : z'.freeList = z.freeList) (n : Nat) :
    freePagesBelow z' n = freePagesBelow z n := by
  induction n with
  | zero => rfl
  | succ n ih => rw [freePagesBelow, freePagesBelow, ih, weighted, weighted, lists]

theorem unisolatedFreePages_congr (cfg : ZoneConfig) (lists : z'.freeList = z.freeList) :
    unisolatedFreePages cfg z' = unisolatedFreePages cfg z :=
  freePagesBelow_congr lists cfg.maxOrder

theorem unisolatedFreePages_setFreepageMigratetype (cfg : ZoneConfig) (z : Zone) (page : Nat)
    (mt : MigrateType) :
    unisolatedFreePages cfg (setFreepageMigratetype z page mt) = unisolatedFreePages cfg z := by
  have lists : (setFreepageMigratetype z page mt).freeList = z.freeList := rfl
  exact unisolatedFreePages_congr cfg lists

theorem unisolatedFreePages_modZoneFreepageState (cfg : ZoneConfig) (z : Zone) (n : Int) :
    unisolatedFreePages cfg (modZoneFreepageState z n) = unisolatedFreePages cfg z := by
  have lists : (modZoneFreepageState z n).freeList = z.freeList := rfl
  exact unisolatedFreePages_congr cfg lists

/-- Lists that one block of an order joins (`n = 1`) or leaves (`n = -1`). -/
structure Listed (z z' : Zone) (order : Nat) (mt : MigrateType) (n : Int) : Prop where
  blocks (o : Nat) : listedBlocks z' o = listedBlocks z o + if o = order then n else 0
  pages (cfg : ZoneConfig) : order < cfg.maxOrder →
    unisolatedFreePages cfg z' = unisolatedFreePages cfg z + unlessIsolate mt * n * 2 ^ order

include lengths in
theorem listed_of_length : Listed z z' order mt n where
  blocks o := by
    have := weighted_of_length lengths (fun _ => 1) o
    rwa [one_mul] at this
  pages cfg lt := by
    have := freePagesBelow_of_weighted (weighted_of_length lengths unlessIsolate) cfg.maxOrder
    rw [if_pos lt] at this
    rw [unisolatedFreePages, this, unisolatedFreePages]
    ring

theorem Listed.congr {z'' : Zone} (listed : Listed z z' order mt n)
    (lists : z''.freeList = z'.freeList) : Listed z z'' order mt n where
  blocks o := by
    rw [← listed.blocks, listedBlocks, listedBlocks, weighted, weighted, lists]
  pages cfg lt := by
    rw [← listed.pages cfg lt]
    exact unisolatedFreePages_congr cfg lists

namespace Shows
variable {free : FreeMap} {p o : Nat} {t : MigrateType}

theorem congr (shows : Shows z free) (lists : z'.freeList = z.freeList)
    (orders : z'.pageOrder = z.pageOrder) : Shows z' free where
  pageOrder p := by rw [orders, shows.pageOrder]
  mem p o t := by rw [lists, shows.mem]
  nodup o t := by rw [lists]; exact shows.nodup o t

theorem freeList_listDel (shows : Shows z free) (there : free p = some (o, t)) :
    Listed z (listDel z p) o t (-1) := by
  refine listed_of_length fun o' t' => ?_
  show (((z.freeList o' t').erase p).length : Int) = _
  by_cases mem : p ∈ z.freeList o' t'
  · have same := (shows.mem p o' t').mp mem
    rw [there] at same
    obtain ⟨rfl, rfl⟩ := Prod.mk.inj (Option.some.inj same)
    have pos := length_pos_of_mem mem
    rw [length_erase_of_mem mem, if_pos ⟨rfl, rfl⟩]
    omega
  · rw [erase_of_not_mem mem, if_neg, add_zero]
    rintro ⟨rfl, rfl⟩
    exact mem ((shows.mem p o' t').mpr there)

theorem remove (shows : Shows z free) (p : Nat) :
    Shows (rmvPageOrder (listDel z p) p) (update free p none) where
  pageOrder q := by
    show update z.pageOrder p none q = _
    by_cases same : q = p
    · rw [same, update_self, update_self, Option.map_none]
    · rw [update_of_ne same, update_of_ne same, shows.pageOrder]
  mem q o' t' := by
    show q ∈ (z.freeList o' t').erase p ↔ _
    rw [(shows.nodup o' t').mem_erase_iff, shows.mem]
    by_cases same : q = p
    · simp [same]
    · simp [same]
  nodup o' t' := (shows.nodup o' t').erase p

def Adds (z z' : Zone) (p o : Nat) (t : MigrateType) : Prop :=
  ∀ o' t', (z'.freeList o' t').Perm
    (if o' = o ∧ t' = t then p :: z.freeList o' t' else z.freeList o' t')

theorem Adds.listed (lists : Adds z z' p o t) : Listed z z' o t 1 := by
  refine listed_of_length fun o' t' => ?_
  rw [(lists o' t').length_eq]
  split
  · simp
  · simp

theorem add (shows : Shows z free) (fresh : free p = none) (lists : Adds z z' p o t)
    (orders : z'.pageOrder = update z.pageOrder p (some o)) :
    Shows z' (update free p (some (o, t))) where
  pageOrder q := by
    rw [orders]
    by_cases same : q = p
    · rw [same, update_self, update_self, Option.map_some]
    · rw [update_of_ne same, update_of_ne same, shows.pageOrder]
  mem q o' t' := by
    rw [(lists o' t').mem_iff]
    by_cases same : q = p
    · subst same
      rw [update_self]
      have absent : q ∉ z.freeList o' t' := by rw [shows.mem, fresh]; simp
      by_cases its : o' = o ∧ t' = t
      · simp [its]
      rw [if_neg its]
      simp only [absent, false_iff]
      rintro ⟨rfl, rfl⟩
      exact its ⟨rfl, rfl⟩
    · rw [update_of_ne same, ← shows.mem]
      split
      · simp [same]
      · rfl
  nodup o' t' := by
    refine (lists o' t').nodup_iff.mpr ?_
    split
    · exact nodup_cons.mpr ⟨by rw [shows.mem, fresh]; simp, shows.nodup o' t'⟩
    · exact shows.nodup o' t'

theorem adds_listAdd (z : Zone) (p o : Nat) (t : MigrateType) : Adds z (listAdd z p o t) p o t :=
  fun _ _ => List.Perm.refl _

theorem adds_listAddTail (z : Zone) (p o : Nat) (t : MigrateType) :
    Adds z (listAddTail z p o t) p o t := by
  intro o' t'
  show (if o' = o ∧ t' = t then z.freeList o' t' ++ [p] else z.freeList o' t').Perm _
  split
  · exact perm_append_singleton p _
  · exact List.Perm.refl _

section
variable (shows : Shows z free) (there : free p = some (o, t)) (mt : MigrateType)
include shows there

/-- A free block that is moved to a list of another type. -/
theorem move : Shows (listMove z p o mt) (update free p (some (o, mt))) := by
  have removed := shows.remove p
  have added : Shows (setPageOrder (listMove z p o mt) p o)
      (update (update free p none) p (some (o, mt))) := by
    refine removed.add (update_self ..) (adds_listAdd (rmvPageOrder (listDel z p) p) p o mt) ?_
    show update z.pageOrder p (some o) = update (update z.pageOrder p none) p (some o)
    rw [update_idem]
  rw [update_idem] at added
  refine added.congr rfl ?_
  show z.pageOrder = update z.pageOrder p (some o)
  rw [eq_comm, update_eq_self_iff, shows.pageOrder, there, Option.map_some]

theorem listed_listMove (o' : Nat) : listedBlocks (listMove z p o mt) o' = listedBlocks z o' := by
  rw [listMove, (adds_listAdd (listDel z p) p o mt).listed.blocks, (shows.freeList_listDel there).blocks]
  split <;> omega

theorem pages_listMove (cfg : ZoneConfig) (lt : o < cfg.maxOrder) :
    unisolatedFreePages cfg (listMove z p o mt) =
      unisolatedFreePages cfg z + (unlessIsolate mt - unlessIsolate t) * 2 ^ o := by
  rw [listMove, (adds_listAdd (listDel z p) p o mt).listed.pages cfg lt,
    (shows.freeList_listDel there).pages cfg lt]
  ring

end

end Shows

/-- The order of the block that starts at a page, free or in use. -/
def blockOrder (free : FreeMap) (held : HeldMap) (p : Nat) : Option Nat :=
  ((free p).map Prod.fst).or (held p)

/-- The free blocks of the zone and the blocks in use are a division of the frames,
and `nr_free` is right. -/
structure Zoned (cfg : ZoneConfig) (frames : Nat → Prop) (z : Zone) (free : FreeMap)
    (held : HeldMap) : Prop where
  shows : Shows z free
  apart {p : Nat} {x : Nat × MigrateType} : free p = some x → held p = none
  blocks : Blocks cfg.maxOrder frames (blockOrder free held)
  counted (o : Nat) : z.nrFree o = listedBlocks z o

namespace Zoned
variable {cfg : ZoneConfig} {frames : Nat → Prop} {free : FreeMap} {held : HeldMap} {p o k : Nat}
  {t : MigrateType}

theorem blockOrder_free (there : free p = some (o, t)) : blockOrder free held p = some o := by
  rw [blockOrder, there, Option.map_some, Option.some_or]

section
variable (zoned : Zoned cfg frames z free held)
include zoned

theorem held_free (there : held p = some k) : free p = none := by
  cases h : free p with
  | none => rfl
  | some x =>
    rw [zoned.apart h] at there
    cases there

theorem not_free (q : Nat) (inUse : held q ≠ none) : free q = none := by
  obtain ⟨k, there⟩ := Option.ne_none_iff_exists'.mp inUse
  exact zoned.held_free there

theorem held_block (there : held p = some k) : blockOrder free held p = some k := by
  rw [blockOrder, zoned.held_free there, Option.map_none, Option.none_or, there]

theorem order_lt (there : free p = some (o, t)) : o < cfg.maxOrder :=
  zoned.blocks.order (blockOrder_free there)

theorem take (there : free p = some (o, t))
    (shows : Shows z' (update free p none)) (counted : ∀ o, z'.nrFree o = listedBlocks z' o) :
    Zoned cfg frames z' (update free p none) (update held p (some o)) where
  shows := shows
  apart := by
    intro q x h
    by_cases same : q = p
    · rw [same, update_self] at h
      cases h
    · rw [update_of_ne same] at h ⊢
      exact zoned.apart h
  blocks := by
    have same : blockOrder (update free p none) (update held p (some o)) =
        blockOrder free held := by
      funext q
      by_cases same : q = p
      · subst same
        rw [blockOrder_free there]
        simp [blockOrder]
      · simp [blockOrder, same]
    rw [same]
    exact zoned.blocks
  counted := counted

end

theorem give (zoned : Zoned cfg frames z free (update held p (some k)))
    (fresh : held p = none) (shows : Shows z' (update free p (some (k, t))))
    (counted : ∀ o, z'.nrFree o = listedBlocks z' o) :
    Zoned cfg frames z' (update free p (some (k, t))) held where
  shows := shows
  apart := by
    intro q x h
    by_cases same : q = p
    · rw [same, fresh]
    rw [update_of_ne same] at h
    have := zoned.apart h
    rwa [update_of_ne same] at this
  blocks := by
    have same : blockOrder (update free p (some (k, t))) held =
        blockOrder free (update held p (some k)) := by
      funext q
      by_cases same : q = p
      · subst same
        rw [zoned.held_block (update_self ..)]
        simp [blockOrder]
      · simp [blockOrder, same]
    rw [same]
    exact zoned.blocks
  counted := counted

section
variable (zoned : Zoned cfg frames z free (update held p (some (k + 1))))
include zoned

/-- The page after the first half of a block in use is not the first of any block. -/
theorem half_free : free (p + 2 ^ k) = none ∧ held (p + 2 ^ k) = none := by
  have pos := Nat.two_pow_pos k
  have none := zoned.blocks.none_inside (b := p + 2 ^ k)
    (zoned.held_block (update_self ..)) (by omega) (by rw [Nat.pow_succ]; omega)
  rw [blockOrder, Option.or_eq_none_iff, Option.map_eq_none_iff, update_of_ne (by omega)] at none
  exact none

/-- The second half of a block in use goes to a list. -/
theorem split (shows : Shows z' (update free (p + 2 ^ k) (some (k, t))))
    (counted : ∀ o, z'.nrFree o = listedBlocks z' o) :
    Zoned cfg frames z' (update free (p + 2 ^ k) (some (k, t))) (update held p (some k)) where
  shows := shows
  apart := by
    have pos := Nat.two_pow_pos k
    intro q x h
    by_cases half : q = p + 2 ^ k
    · subst half
      rw [update_of_ne (by omega)]
      exact zoned.half_free.2
    rw [update_of_ne half] at h
    have ne : q ≠ p := by
      rintro rfl
      rw [zoned.held_free (update_self ..)] at h
      cases h
    have := zoned.apart h
    rwa [update_of_ne ne] at this ⊢
  blocks := by
    have same : blockOrder (update free (p + 2 ^ k) (some (k, t))) (update held p (some k)) =
        update (update (blockOrder free (update held p (some (k + 1)))) p (some k))
          (p + 2 ^ k) (some k) := by
      funext q
      by_cases half : q = p + 2 ^ k
      · simp [blockOrder, half]
      rw [update_of_ne half]
      by_cases first : q = p
      · subst first
        rw [update_self, blockOrder, update_of_ne half,
          zoned.held_free (update_self ..), update_self]
        rfl
      · simp [blockOrder, first, half]
    rw [same]
    exact zoned.blocks.split (zoned.held_block (update_self ..))
  counted := counted

end

theorem join (zoned : Zoned cfg frames z free (update held p (some k)))
    (fresh : held p = none) (there : free (buddy p k) = some (k, t)) (lt : k + 1 < cfg.maxOrder)
    (shows : Shows z' (update free (buddy p k) none))
    (counted : ∀ o, z'.nrFree o = listedBlocks z' o) :
    Zoned cfg frames z' (update free (buddy p k) none) (update held (joined p k) (some (k + 1))) ∧
      held (joined p k) = none := by
  have mine := zoned.held_block (update_self ..)
  have its : blockOrder free (update held p (some k)) (buddy p k) = some k :=
    blockOrder_free there
  have ne := buddy_ne p k
  have other : held (buddy p k) = none := by
    have := zoned.apart there
    rwa [update_of_ne ne] at this
  have gone : free p = none := zoned.held_free (update_self ..)
  obtain ⟨aligned, halves⟩ := buddy_cases (zoned.blocks.aligned mine)
  have unheld : held (joined p k) = none := by
    rcases halves with ⟨first, _⟩ | ⟨_, second⟩
    · rwa [← first]
    · rwa [← second]
  refine ⟨⟨shows, ?_, ?_, counted⟩, unheld⟩
  · intro q x h
    have nb : q ≠ buddy p k := by
      rintro rfl
      rw [update_self] at h
      cases h
    rw [update_of_ne nb] at h
    have np : q ≠ p := by
      rintro rfl
      rw [gone] at h
      cases h
    have nj : q ≠ joined p k := by
      rcases halves with ⟨first, _⟩ | ⟨_, second⟩
      · rwa [← first]
      · rwa [← second]
    have := zoned.apart h
    rw [update_of_ne np] at this
    rw [update_of_ne nj, this]
  have whole : blockOrder free (update held p (some k)) (joined p k) = some k ∧
      blockOrder free (update held p (some k)) (joined p k + 2 ^ k) = some k := by
    rcases halves with ⟨first, second⟩ | ⟨first, second⟩
    · rw [← second, ← first]
      exact ⟨mine, its⟩
    · rw [← first, ← second]
      exact ⟨its, mine⟩
  have same : blockOrder (update free (buddy p k) none) (update held (joined p k) (some (k + 1))) =
      update (update (blockOrder free (update held p (some k))) (joined p k + 2 ^ k) none)
        (joined p k) (some (k + 1)) := by
    funext q
    rcases halves with ⟨first, second⟩ | ⟨first, second⟩
    · rw [← second, ← first]
      by_cases qp : q = p
      · subst qp
        rw [update_self, blockOrder, update_of_ne ne.symm, gone, update_self]
        rfl
      by_cases qb : q = buddy p k
      · subst qb
        simp [blockOrder, qp, other]
      · simp [blockOrder, qp, qb]
    · rw [← first, ← second]
      by_cases qb : q = buddy p k
      · subst qb
        simp [blockOrder]
      rw [update_of_ne qb]
      by_cases qp : q = p
      · subst qp
        rw [update_self, blockOrder, update_of_ne qb, gone, update_of_ne qb, fresh]
        rfl
      · simp [blockOrder, qp, qb]
  rw [same]
  exact zoned.blocks.join whole.1 whole.2 aligned lt

end Zoned

end Linux318.Source.Mm
