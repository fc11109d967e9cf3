import Linux318.Source.Mm.FreeArea

/-!
The zone through `__rmqueue` and `__free_one_page`. The invariant `ZoneOk` holds
between the single changes of the lists; a block that is being split or merged
counts as a block in use.
-/
namespace Linux318.Source.Mm
open Function Lib.BlockMap

variable {z : Zone} {mt t' : MigrateType} {free : FreeMap}

/-- All pageblocks that a block touches are isolated, or none is, as the type says. -/
def OfClass (cfg : ZoneConfig) (z : Zone) (p k : Nat) (mt : MigrateType) : Prop :=
  ∀ b, p ≤ b → b < p + 2 ^ k → (getPageblockMigratetype cfg z b = .isolate ↔ mt = .isolate)

/-- The free blocks are on lists that fit their pageblocks. `calm` says that no
pageblock was ever isolated; then no free block has a free buddy. -/
structure ZoneOk (cfg : ZoneConfig) (frames : Nat → Prop) (calm : Prop) (z : Zone)
    (free : FreeMap) (held : HeldMap) : Prop extends Zoned cfg frames z free held where
  classes {p k : Nat} {t : MigrateType} : free p = some (k, t) → OfClass cfg z p k t
  reduced {p k : Nat} {t t' : MigrateType} : calm → k + 1 < cfg.maxOrder →
    free p = some (k, t) → free (buddy p k) ≠ some (k, t')

/-- A change of the lists that leaves the rest of the zone as it is. -/
structure Kept (z z' : Zone) : Prop where
  pageblockType : z'.pageblockType = z.pageblockType
  freepageType : z'.freepageType = z.freepageType
  nrFreePages : z'.nrFreePages = z.nrFreePages
  nrIsolatePageblock : z'.nrIsolatePageblock = z.nrIsolatePageblock

theorem Kept.refl (z : Zone) : Kept z z := ⟨rfl, rfl, rfl, rfl⟩

theorem Kept.trans {a b c : Zone} (ab : Kept a b) (bc : Kept b c) : Kept a c :=
  ⟨bc.1.trans ab.1, bc.2.trans ab.2, bc.3.trans ab.3, bc.4.trans ab.4⟩

theorem OfClass.congr {cfg : ZoneConfig} {z' : Zone} {p k : Nat} (class_ : OfClass cfg z p k mt)
    (types : ∀ b, z'.pageblockType b = .isolate ↔ z.pageblockType b = .isolate) :
    OfClass cfg z' p k mt := by
  intro b low high
  rw [getPageblockMigratetype, types]
  exact class_ b low high

theorem OfClass.shrink {cfg : ZoneConfig} {p q k l : Nat} (class_ : OfClass cfg z p k mt)
    (low : p ≤ q) (high : q + 2 ^ l ≤ p + 2 ^ k) : OfClass cfg z q l mt :=
  fun b hb hb' => class_ b (by omega) (by omega)

def takeBlock (z : Zone) (page order : Nat) : Zone :=
  addNrFree (rmvPageOrder (listDel z page) page) order (-1)

def giveBlock (z : Zone) (page order : Nat) (mt : MigrateType) : Zone :=
  setPageOrder (addNrFree (listAdd z page order mt) order 1) page order

theorem takeBlock_kept (z : Zone) (page order : Nat) : Kept z (takeBlock z page order) :=
  ⟨rfl, rfl, rfl, rfl⟩

theorem giveBlock_kept (z : Zone) (page order : Nat) (mt : MigrateType) :
    Kept z (giveBlock z page order mt) :=
  ⟨rfl, rfl, rfl, rfl⟩

theorem counted_of_listed {z' : Zone} {order : Nat} {n : Int}
    (counted : ∀ o, z.nrFree o = listedBlocks z o) (listed : Listed z z' order mt n)
    (nrFree : z'.nrFree = update z.nrFree order (z.nrFree order + n)) (o : Nat) :
    z'.nrFree o = listedBlocks z' o := by
  rw [listed.blocks, nrFree, update_apply, counted, counted]
  split
  · rename_i same
    rw [same]
  · rw [add_zero]

namespace ZoneOk
variable {cfg : ZoneConfig} {frames : Nat → Prop} {calm : Prop} {z z' : Zone} {free : FreeMap}
  {held : HeldMap} {p o k : Nat} {t mt : MigrateType}

section
variable (ok : ZoneOk cfg frames calm z free held)
include ok

/-- With fewer free blocks there are fewer free buddies. -/
theorem reduced_remove (q : Nat) (yes : calm) (lt : k + 1 < cfg.maxOrder)
    (there : update free q none p = some (k, t)) :
    update free q none (buddy p k) ≠ some (k, t') := by
  intro there'
  have old {r : Nat} {x : Nat × MigrateType} (h : update free q none r = some x) :
      free r = some x := by
    by_cases same : r = q
    · rw [same, update_self] at h
      cases h
    · rwa [update_of_ne same] at h
  exact ok.reduced yes lt (old there) (old there')

/-- With one free block more there are no free buddies, if its buddy is not free. -/
theorem reduced_add {q l : Nat} (alone : l + 1 < cfg.maxOrder → ∀ t, free (buddy q l) ≠ some (l, t))
    (yes : calm) (lt : k + 1 < cfg.maxOrder)
    (there : update free q (some (l, mt)) p = some (k, t)) :
    update free q (some (l, mt)) (buddy p k) ≠ some (k, t') := by
  intro there'
  by_cases first : p = q
  · subst first
    rw [update_self] at there
    obtain ⟨rfl, rfl⟩ := Prod.mk.inj (Option.some.inj there)
    rw [update_of_ne (buddy_ne p l)] at there'
    exact alone lt t' there'
  rw [update_of_ne first] at there
  by_cases second : buddy p k = q
  · rw [second, update_self] at there'
    obtain ⟨rfl, rfl⟩ := Prod.mk.inj (Option.some.inj there')
    refine alone lt t ?_
    rw [← second, buddy_buddy]
    exact there
  · rw [update_of_ne second] at there'
    exact ok.reduced yes lt there there'

theorem listed_takeBlock (there : free p = some (o, t)) : Listed z (takeBlock z p o) o t (-1) :=
  (ok.shows.freeList_listDel there).congr rfl

theorem take (there : free p = some (o, t)) :
    ZoneOk cfg frames calm (takeBlock z p o) (update free p none) (update held p (some o)) where
  toZoned := ok.toZoned.take there ((ok.shows.remove p).congr rfl rfl)
    (counted_of_listed ok.counted (ok.listed_takeBlock there) rfl)
  classes := by
    intro q k t' h
    by_cases same : q = p
    · rw [same, update_self] at h
      cases h
    · rw [update_of_ne same] at h
      exact ok.classes h
  reduced := fun yes lt h => ok.reduced_remove p yes lt h

end

theorem listed_giveBlock (z : Zone) (p o : Nat) (mt : MigrateType) :
    Listed z (giveBlock z p o mt) o mt 1 :=
  (Shows.adds_listAdd z p o mt).listed.congr rfl

/-- The second half of a block that is being split goes to a list. -/
theorem split (ok : ZoneOk cfg frames calm z free (update held p (some (k + 1))))
    (class_ : OfClass cfg z p (k + 1) mt) : ZoneOk cfg frames calm (giveBlock z (p + 2 ^ k) k mt)
      (update free (p + 2 ^ k) (some (k, mt))) (update held p (some k)) where
  toZoned := by
    refine ok.toZoned.split ?_ ?_
    · exact ok.shows.add ok.toZoned.half_free.1 (Shows.adds_listAdd z _ _ _) rfl
    · exact counted_of_listed ok.counted (listed_giveBlock z _ _ _) rfl
  classes := by
    intro q l t' h
    by_cases same : q = p + 2 ^ k
    · rw [same, update_self] at h
      obtain ⟨rfl, rfl⟩ := Prod.mk.inj (Option.some.inj h)
      rw [same]
      exact OfClass.shrink class_ (Nat.le_add_right ..) (by rw [Nat.pow_succ]; omega)
    · rw [update_of_ne same] at h
      exact ok.classes h
  reduced := by
    intro q l t' t'' yes lt h
    refine ok.reduced_add (fun _ t => ?_) yes lt h
    -- The buddy of the second half is the first half, which is in use.
    have aligned := ok.blocks.aligned (ok.toZoned.held_block (update_self ..))
    have half : buddy (p + 2 ^ k) k = p := by
      rw [(buddy_add aligned (Nat.dvd_refl (2 ^ k))).1]
      simp [buddy]
    rw [half, ok.toZoned.held_free (update_self ..)]
    simp

section
variable (ok : ZoneOk cfg frames calm z free (update held p (some k))) (fresh : held p = none)
include ok fresh

/-- A free buddy joins a block that is being merged. -/
theorem join (there : free (buddy p k) = some (k, t)) (lt : k + 1 < cfg.maxOrder) :
    ZoneOk cfg frames calm (takeBlock z (buddy p k) k) (update free (buddy p k) none)
        (update held (joined p k) (some (k + 1))) ∧
      held (joined p k) = none := by
  have shows : Shows (takeBlock z (buddy p k) k) (update free (buddy p k) none) :=
    (ok.shows.remove (buddy p k)).congr rfl rfl
  obtain ⟨zoned, unheld⟩ := ok.toZoned.join fresh there lt shows
    (counted_of_listed ok.counted (ok.listed_takeBlock there) rfl)
  refine ⟨⟨zoned, ?_, fun yes lt h => ok.reduced_remove (buddy p k) yes lt h⟩, unheld⟩
  intro q l t' h
  by_cases same : q = buddy p k
  · rw [same, update_self] at h
    cases h
  · rw [update_of_ne same] at h
    exact ok.classes h

/-- A block that was merged goes to a list, at either end. -/
theorem give (class_ : OfClass cfg z p k mt)
    (alone : calm → k + 1 < cfg.maxOrder → ∀ t, free (buddy p k) ≠ some (k, t))
    (lists : Shows.Adds z z' p k mt) (orders : z'.pageOrder = update z.pageOrder p (some k))
    (nrFree : z'.nrFree = update z.nrFree k (z.nrFree k + 1)) (kept : Kept z z') :
    ZoneOk cfg frames calm z' (update free p (some (k, mt))) held where
  toZoned := by
    refine ok.toZoned.give fresh ?_ ?_
    · exact ok.shows.add (ok.toZoned.held_free (update_self ..)) lists orders
    · exact counted_of_listed ok.counted lists.listed nrFree
  classes := by
    intro q l t' h
    refine OfClass.congr (z := z) ?_ (fun b => by rw [kept.pageblockType])
    by_cases same : q = p
    · rw [same, update_self] at h
      obtain ⟨rfl, rfl⟩ := Prod.mk.inj (Option.some.inj h)
      rwa [same]
    · rw [update_of_ne same] at h
      exact ok.classes h
  reduced := fun yes lt h => ok.reduced_add (alone yes) yes lt h

end

end ZoneOk

theorem expand_kept (page low : Nat) (mt : MigrateType) (high : Nat) (z : Zone) :
    Kept z (expand page low mt high z) := by
  induction high generalizing z with
  | zero => exact .refl z
  | succ high ih =>
    rw [expand]
    split
    · exact (giveBlock_kept z (page + 2 ^ high) high mt).trans (ih _)
    · exact .refl z

section Expand
variable {cfg : ZoneConfig} {frames : Nat → Prop} {calm : Prop} {held : HeldMap} {p low : Nat}
  {mt : MigrateType}

/-- The block that is being split keeps its first part of order `low`; the rest goes
to the lists of the given type. -/
theorem expand_ok (high : Nat) (ok : ZoneOk cfg frames calm z free (update held p (some high)))
    (class_ : OfClass cfg z p high mt) (le : low ≤ high) :
    (∃ free', ZoneOk cfg frames calm (expand p low mt high z) free' (update held p (some low))) ∧
      unisolatedFreePages cfg (expand p low mt high z) =
        unisolatedFreePages cfg z + unlessIsolate mt * (2 ^ high - 2 ^ low) := by
  induction high generalizing z free with
  | zero =>
    obtain rfl : low = 0 := by omega
    exact ⟨⟨free, ok⟩, by rw [expand]; ring⟩
  | succ high ih =>
    rw [expand]
    split_ifs
    · have lt := ok.blocks.order (ok.toZoned.held_block (update_self ..))
      have pages := (ZoneOk.listed_giveBlock z (p + 2 ^ high) high mt).pages cfg (by omega)
      have rest := ih (ok.split class_)
        (OfClass.shrink class_ (Nat.le_refl p) (by rw [Nat.pow_succ]; omega)) (by omega)
      refine ⟨rest.1, rest.2.trans ?_⟩
      rw [pages]
      ring
    · obtain rfl : low = high + 1 := by omega
      exact ⟨⟨free, ok⟩, by ring⟩

end Expand

structure Taken (cfg : ZoneConfig) (frames : Nat → Prop) (calm : Prop) (z : Zone)
    (held : HeldMap) (order page : Nat) (z' : Zone) : Prop where
  ok : ∃ free', ZoneOk cfg frames calm z' free' (update held page (some order))
  fresh : held page = none
  pages : unisolatedFreePages cfg z' = unisolatedFreePages cfg z - 2 ^ order
  nrFreePages : z'.nrFreePages = z.nrFreePages
  nrIsolatePageblock : z'.nrIsolatePageblock = z.nrIsolatePageblock
  types (b : Nat) : z'.pageblockType b = .isolate ↔ z.pageblockType b = .isolate
  others (q : Nat) : held q ≠ none → z'.freepageType q = z.freepageType q
  freepageType : z'.freepageType page ≠ .isolate

section Rmqueue
variable {cfg : ZoneConfig} {frames : Nat → Prop} {calm : Prop} {z : Zone} {free : FreeMap}
  {held : HeldMap} {page order current : Nat} {t mt : MigrateType}

theorem taken_of_block (ok : ZoneOk cfg frames calm z free held)
    (there : free page = some (current, t)) (listType : t ≠ .isolate) (newType : mt ≠ .isolate)
    (le : order ≤ current) : Taken cfg frames calm z held order page
      (setFreepageMigratetype (expand page order mt current (takeBlock z page current)) page mt) := by
  have class_ : OfClass cfg (takeBlock z page current) page current mt := by
    intro b low high
    rw [iff_false_right newType]
    exact fun isolated => listType ((ok.classes there b low high).mp isolated)
  obtain ⟨⟨free', expanded⟩, pages⟩ := expand_ok current (ok.take there) class_ le
  have kept := (takeBlock_kept z page current).trans
    (expand_kept page order mt current (takeBlock z page current))
  refine ⟨⟨free', ?_⟩, ok.apart there, ?_, kept.nrFreePages, kept.nrIsolatePageblock, ?_, ?_, ?_⟩
  · exact ⟨⟨expanded.shows.congr rfl rfl, expanded.apart, expanded.blocks, expanded.counted⟩,
      expanded.classes, expanded.reduced⟩
  · have one (t : MigrateType) (ne : t ≠ .isolate) : unlessIsolate t = 1 := if_neg ne
    have off := (ok.listed_takeBlock there).pages cfg (ok.toZoned.order_lt there)
    rw [unisolatedFreePages_setFreepageMigratetype, pages, off, one t listType, one mt newType]
    ring
  · intro b
    exact iff_of_eq (congrArg (fun types => types b = MigrateType.isolate) kept.pageblockType)
  · intro q used
    have ne : q ≠ page := by
      rintro rfl
      exact used (ok.apart there)
    exact (update_of_ne ne ..).trans (congrFun kept.freepageType q)
  · intro isolated
    have set : (setFreepageMigratetype (expand page order mt current (takeBlock z page current))
        page mt).freepageType page = mt := update_self ..
    exact newType (set.symm.trans isolated)

theorem rmqueueSmallestLoop_some (fuel : Nat) {from_ : Nat} {z' : Zone}
    (res : rmqueueSmallestLoop order mt fuel from_ z = some (page, z')) :
    ∃ current, from_ ≤ current ∧ page ∈ z.freeList current mt ∧
      z' = setFreepageMigratetype (expand page order mt current (takeBlock z page current))
        page mt := by
  induction fuel generalizing from_ with
  | zero => cases res
  | succ fuel ih =>
    rw [rmqueueSmallestLoop] at res
    split at res
    · obtain ⟨current, le, rest⟩ := ih res
      exact ⟨current, by omega, rest⟩
    rename_i first others list
    obtain ⟨rfl, rfl⟩ := Prod.mk.inj (Option.some.inj res)
    exact ⟨from_, Nat.le_refl from_, by rw [list]; exact List.mem_cons_self .., rfl⟩

theorem rmqueueSmallest_taken (ok : ZoneOk cfg frames calm z free held) {z' : Zone}
    (type : mt ≠ .isolate ∨ ∀ o, z.freeList o .isolate = [])
    (res : rmqueueSmallest cfg z order mt = some (page, z')) :
    Taken cfg frames calm z held order page z' := by
  obtain ⟨current, le, mem, rfl⟩ := rmqueueSmallestLoop_some _ res
  have ne : mt ≠ .isolate := by
    rintro rfl
    rcases type with ne | empty
    · exact ne rfl
    · rw [empty] at mem
      cases mem
  exact taken_of_block ok ((ok.shows.mem ..).mp mem) ne ne le

end Rmqueue

def FramesValid (cfg : ZoneConfig) (frames : Nat → Prop) : Prop :=
  ∀ b, frames b → cfg.pfnValidWithin b = true ∧ cfg.pageZone b = true

def blockStart (p k : Nat) : Nat := p / 2 ^ k * 2 ^ k

/-- The buddies that a block freed at `p` may meet from order `k` below `top` are
on lists of the class of the type. -/
def BuddiesFit (free : FreeMap) (p k top : Nat) (mt : MigrateType) : Prop :=
  ∀ j t, k ≤ j → j < top → free (buddy (blockStart p j) j) = some (j, t) →
    (t = .isolate ↔ mt = .isolate)

section Free
variable {cfg : ZoneConfig} {frames : Nat → Prop} {calm : Prop} {held : HeldMap}
  {mt : MigrateType}

theorem blockStart_self {p k : Nat} (aligned : 2 ^ k ∣ p) : blockStart p k = p :=
  Nat.div_mul_cancel aligned

theorem findBuddyIndex_eq (p k : Nat) : findBuddyIndex p k = buddy p k := by
  rw [findBuddyIndex, buddy, Nat.one_shiftLeft]

theorem pageIsBuddy_iff {b k : Nat}
    (zoned : Zoned cfg frames z free held) (valid : FramesValid cfg frames) :
    pageIsBuddy cfg z b k = true ↔ ∃ t, free b = some (k, t) := by
  rw [pageIsBuddy, Bool.and_eq_true, Bool.and_eq_true, decide_eq_true_eq, zoned.shows.pageOrder,
    Option.map_eq_some_iff]
  constructor
  · rintro ⟨⟨_, ⟨⟨_, t⟩, there, rfl⟩⟩, _⟩
    exact ⟨t, there⟩
  rintro ⟨t, there⟩
  have frame : frames b := zoned.blocks.inside (Zoned.blockOrder_free there) b (Nat.le_refl b)
    (Nat.lt_add_of_pos_right (Nat.two_pow_pos k))
  exact ⟨⟨(valid b frame).1, (k, t), there, rfl⟩, (valid b frame).2⟩

/-- Where the merge loop stops, in terms of the zone that it found. -/
structure MergeOk (cfg : ZoneConfig) (frames : Nat → Prop) (calm : Prop) (z : Zone)
    (held : HeldMap) (mt : MigrateType) (k top p' : Nat) (m : Merged) : Prop where
  ok : ∃ free', ZoneOk cfg frames calm m.zone free' (update held p' (some m.order)) ∧
    (m.order = top ∨ ∀ t, free' (buddy p' m.order) ≠ some (m.order, t))
  fresh : held p' = none
  class_ : OfClass cfg z p' m.order mt
  kept : Kept z m.zone
  pages : unisolatedFreePages cfg m.zone + unlessIsolate mt * 2 ^ m.order =
    unisolatedFreePages cfg z + unlessIsolate mt * 2 ^ k

theorem mergeBuddies_ok (valid : FramesValid cfg frames) (base fuel : Nat) (idx : Nat) {k : Nat}
    (last : Option Nat) (ok : ZoneOk cfg frames calm z free (update held (base + idx) (some k)))
    (fresh : held (base + idx) = none) (far : 2 ^ (k + fuel) ∣ base)
    (lt : k + fuel < cfg.maxOrder) (class_ : OfClass cfg z (base + idx) k mt)
    (fit : BuddiesFit free (base + idx) k (k + fuel) mt) :
    MergeOk cfg frames calm z held mt k (k + fuel)
      (base + (mergeBuddies cfg base fuel z idx k last).pageIdx)
      (mergeBuddies cfg base fuel z idx k last) := by
  induction fuel generalizing z free idx k last with
  | zero => exact ⟨⟨free, ok, .inl rfl⟩, fresh, class_, .refl z, rfl⟩
  | succ fuel ih =>
    have aligned : 2 ^ k ∣ base + idx :=
      ok.blocks.aligned (ok.toZoned.held_block (update_self ..))
    have near : 2 ^ (k + 1) ∣ base :=
      Nat.dvd_trans (Nat.pow_dvd_pow 2 (by omega)) far
    have alignedIdx : 2 ^ k ∣ idx :=
      (Nat.dvd_add_right (Nat.dvd_trans (Nat.pow_dvd_pow 2 (Nat.le_succ k)) near)).mp aligned
    obtain ⟨buddyAt, joinedAt⟩ := buddy_add near alignedIdx
    rw [mergeBuddies, findBuddyIndex_eq, ← buddyAt]
    split_ifs with merges
    · obtain ⟨t, there⟩ := (pageIsBuddy_iff ok.toZoned valid).mp merges
      have sameClass : t = .isolate ↔ mt = .isolate :=
        fit k t (Nat.le_refl k) (by omega) (by rwa [blockStart_self aligned])
      obtain ⟨ok', fresh'⟩ := ok.join fresh there (by omega)
      have index : buddy idx k &&& idx = joined idx k := rfl
      rw [joinedAt] at ok' fresh'
      have class' : OfClass cfg (takeBlock z (buddy (base + idx) k) k) (base + joined idx k)
          (k + 1) mt := by
        intro b low high
        have mine : _ → _ → _ := class_ b
        have its : _ → _ → _ := ok.classes there b
        rw [sameClass] at its
        rcases (buddy_cases aligned).2 with halves | halves
        · by_cases half : b < base + idx + 2 ^ k
          · exact mine (by omega) half
          · exact its (by omega) (by omega)
        · by_cases half : b < buddy (base + idx) k + 2 ^ k
          · exact its (by omega) half
          · exact mine (by omega) (by omega)
      have fit' : BuddiesFit (update free (buddy (base + idx) k) none)
          (base + joined idx k) (k + 1) (k + 1 + fuel) mt := by
        intro j t' low high there'
        rw [blockStart, ← joinedAt, joined_div aligned (by omega)] at there'
        refine fit j t' (by omega) (by omega) ?_
        by_cases same : buddy (base + idx) k = buddy ((base + idx) / 2 ^ j * 2 ^ j) j
        · rw [same, update_self] at there'
          cases there'
        · rwa [update_of_ne (Ne.symm same)] at there'
      have rest := ih _ (some (buddy idx k)) ok' fresh' (by rwa [Nat.add_right_comm])
        (by omega) class' fit'
      have off := (ok.listed_takeBlock there).pages cfg (by omega)
      have weight : unlessIsolate t = unlessIsolate mt := by
        unfold unlessIsolate
        rw [ite_cond_congr (propext sameClass)]
      refine ⟨?_, rest.fresh, ?_, (takeBlock_kept z _ k).trans rest.kept, ?_⟩
      · obtain ⟨free', ok'', stop⟩ := rest.ok
        exact ⟨free', ok'', stop.imp_left fun top => top.trans (by omega)⟩
      · exact rest.class_
      · refine rest.pages.trans ?_
        rw [off, weight]
        ring
    · refine ⟨⟨free, ok, .inr fun t there => merges ?_⟩, fresh, class_, .refl z, rfl⟩
      exact (pageIsBuddy_iff ok.toZoned valid).mpr ⟨t, there⟩

/-- The end of `__free_one_page`: the merged block goes to its list. -/
def placeMerged (cfg : ZoneConfig) (base : Nat) (mt : MigrateType) (m : Merged) : Zone :=
  let m' := { m with zone := setPageOrder m.zone (base + m.pageIdx) m.order }
  let z := if higherBuddyFree cfg base m' then
      listAddTail m'.zone (base + m.pageIdx) m.order mt
    else listAdd m'.zone (base + m.pageIdx) m.order mt
  addNrFree z m.order 1

theorem placeMerged_ok {base k top : Nat} {m : Merged}
    (merged : MergeOk cfg frames calm z held mt k top (base + m.pageIdx) m)
    (highest : calm → cfg.maxOrder ≤ top + 1) :
    (∃ free', ZoneOk cfg frames calm (placeMerged cfg base mt m) free' held) ∧
      unisolatedFreePages cfg (placeMerged cfg base mt m) =
        unisolatedFreePages cfg z + unlessIsolate mt * 2 ^ k ∧
      Kept z (placeMerged cfg base mt m) := by
  obtain ⟨free, ok, stop⟩ := merged.ok
  have lt : m.order < cfg.maxOrder :=
    ok.blocks.order (ok.toZoned.held_block (update_self ..))
  have placed : Shows.Adds m.zone (placeMerged cfg base mt m) (base + m.pageIdx) m.order mt ∧
      (placeMerged cfg base mt m).pageOrder =
        update m.zone.pageOrder (base + m.pageIdx) (some m.order) ∧
      (placeMerged cfg base mt m).nrFree =
        update m.zone.nrFree m.order (m.zone.nrFree m.order + 1) ∧
      Kept m.zone (placeMerged cfg base mt m) := by
    rw [placeMerged]
    split
    · exact ⟨Shows.adds_listAddTail m.zone _ _ mt, rfl, rfl, ⟨rfl, rfl, rfl, rfl⟩⟩
    · exact ⟨Shows.adds_listAdd m.zone _ _ mt, rfl, rfl, ⟨rfl, rfl, rfl, rfl⟩⟩
  obtain ⟨lists, orders, nrFree, kept⟩ := placed
  refine ⟨⟨_, ok.give merged.fresh ?_ ?_ lists orders nrFree kept⟩, ?_, merged.kept.trans kept⟩
  · exact merged.class_.congr fun b => by rw [merged.kept.pageblockType]
  · intro yes more
    refine stop.resolve_left fun top => ?_
    have := highest yes
    omega
  · have pages := merged.pages
    rw [lists.listed.pages cfg lt, ← pages]
    ring

structure Freed (cfg : ZoneConfig) (frames : Nat → Prop) (calm : Prop) (z : Zone)
    (held : HeldMap) (k : Nat) (mt : MigrateType) (z' : Zone) : Prop where
  ok : ∃ free', ZoneOk cfg frames calm z' free' held
  pages : unisolatedFreePages cfg z' = unisolatedFreePages cfg z + unlessIsolate mt * 2 ^ k
  nrFreePages : z'.nrFreePages = z.nrFreePages + unlessIsolate mt * 2 ^ k
  nrIsolatePageblock : z'.nrIsolatePageblock = z.nrIsolatePageblock
  pageblockType : z'.pageblockType = z.pageblockType
  freepageType : z'.freepageType = z.freepageType

theorem freeOnePage_ok (valid : FramesValid cfg frames) {p k : Nat}
    (ok : ZoneOk cfg frames calm z free (update held p (some k)))
    (fresh : held p = none) (class_ : OfClass cfg z p k mt)
    (fit : BuddiesFit free p k (freeMaxOrder cfg mt - 1) mt) (quiet : calm → mt ≠ .isolate) :
    Freed cfg frames calm z held k mt (freeOnePage cfg z p k mt) := by
  have lt : k < cfg.maxOrder :=
    ok.blocks.order (ok.toZoned.held_block (update_self ..))
  have maxLe : freeMaxOrder cfg mt ≤ cfg.maxOrder := by
    rw [freeMaxOrder]
    split
    · exact Nat.min_le_left ..
    · exact Nat.le_refl _
  -- The zone with the pages counted already.
  generalize counted : (if mt = MigrateType.isolate then z
    else modZoneFreepageState z (2 ^ k)) = z1
  have lists : z1.freeList = z.freeList ∧ z1.pageOrder = z.pageOrder ∧ z1.nrFree = z.nrFree ∧
      z1.pageblockType = z.pageblockType ∧ z1.freepageType = z.freepageType ∧
      z1.nrIsolatePageblock = z.nrIsolatePageblock := by
    subst counted
    split
    · exact ⟨rfl, rfl, rfl, rfl, rfl, rfl⟩
    · exact ⟨rfl, rfl, rfl, rfl, rfl, rfl⟩
  obtain ⟨freeList, pageOrder, nrFree, pageblockType, freepageType, nrIsolate⟩ := lists
  have number : z1.nrFreePages = z.nrFreePages + unlessIsolate mt * 2 ^ k := by
    subst counted
    by_cases isolate : mt = .isolate
    · simp [isolate, unlessIsolate]
    · simp [isolate, unlessIsolate, modZoneFreepageState]
  have ok1 : ZoneOk cfg frames calm z1 free (update held p (some k)) := by
    refine ⟨⟨ok.shows.congr freeList pageOrder, ok.apart, ok.blocks, fun o => ?_⟩,
      fun there => (ok.classes there).congr fun b => by rw [pageblockType], ok.reduced⟩
    rw [nrFree, ok.counted, listedBlocks, listedBlocks, weighted, weighted, freeList]
  generalize maxOrder : freeMaxOrder cfg mt = top at fit maxLe
  have whole : p - p % 2 ^ top + p % 2 ^ top = p := Nat.sub_add_cancel (Nat.mod_le ..)
  have far : 2 ^ (k + (top - 1 - k)) ∣ p - p % 2 ^ top := by
    by_cases small : k ≤ top - 1
    · exact Nat.dvd_trans (Nat.pow_dvd_pow 2 (by omega)) (Nat.dvd_sub_mod p)
    -- No round is made, and the block is aligned itself.
    rw [show k + (top - 1 - k) = k by omega]
    have aligned := ok.blocks.aligned (ok.toZoned.held_block (update_self ..))
    have none : p % 2 ^ top = 0 :=
      Nat.mod_eq_zero_of_dvd (Nat.dvd_trans (Nat.pow_dvd_pow 2 (by omega)) aligned)
    rwa [none]
  have merged := mergeBuddies_ok valid (p - p % 2 ^ top) (top - 1 - k) (p % 2 ^ top) none
    (by rwa [whole]) (by rwa [whole]) far (by omega)
    (by rw [whole]; exact class_.congr fun b => by rw [pageblockType]) (by
      rw [whole]
      intro j t low high
      exact fit j t low (by omega))
  have res : freeOnePage cfg z p k mt = placeMerged cfg (p - p % 2 ^ top) mt
      (mergeBuddies cfg (p - p % 2 ^ top) (top - 1 - k) z1 (p % 2 ^ top) k none) := by
    rw [freeOnePage, maxOrder, counted, placeMerged]
  rw [res]
  have highest (yes : calm) : cfg.maxOrder ≤ k + (top - 1 - k) + 1 := by
    rw [← maxOrder, freeMaxOrder, if_neg (quiet yes)]
    omega
  obtain ⟨ok', pages, kept⟩ := placeMerged_ok merged highest
  refine ⟨ok', ?_, kept.nrFreePages.trans number, kept.nrIsolatePageblock.trans nrIsolate,
    kept.pageblockType.trans pageblockType, kept.freepageType.trans freepageType⟩
  rw [pages]
  congr 1
  exact unisolatedFreePages_congr cfg freeList

end Free

end Linux318.Source.Mm
