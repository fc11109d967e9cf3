import Linux318.Source.Mm.PageIsolation
import Mathlib.Data.Finset.Card

/-!
The zone while pageblocks are isolated. The free lists and `NR_FREE_PAGES` keep
their meaning as long as no block comes together from isolated and other
pageblocks; the conditions below say so about the zone that a call finds.
-/
namespace Linux318.Source.Mm
open Function Lib.BlockMap

/-- A block may be freed: its pageblocks are all isolated or none is, and, if none is,
no buddy that it may meet from the order of a pageblock on is on an isolate list. -/
def FreeMeets (cfg : ZoneConfig) (z : Zone) (pfn order : Nat) : Prop :=
  (∀ i < 2 ^ order, getPageblockMigratetype cfg z (pfn + i) = .isolate ↔
    getPageblockMigratetype cfg z pfn = .isolate) ∧
  (getPageblockMigratetype cfg z pfn ≠ .isolate →
    ∀ j < cfg.maxOrder - 1, order ≤ j → cfg.pageblockOrder ≤ j →
      findBuddyIndex (pfn / 2 ^ j * 2 ^ j) j ∉ z.freeList j .isolate)

/-- A pageblock may be isolated or put back: `move_freepages_block` walks over all of
it, and it is not part of a larger free block. -/
def PageblockMeets (cfg : ZoneConfig) (z : Zone) (page : Nat) : Prop :=
  let start := page / pageblockNrPages cfg * pageblockNrPages cfg
  zoneSpansPfn cfg (start + pageblockNrPages cfg - 1) = true ∧
    (zoneSpansPfn cfg start = true ∨ ∀ b < page, start ≤ b → z.pageOrder b = none) ∧
    ∀ k < cfg.maxOrder, cfg.pageblockOrder < k → z.pageOrder (page / 2 ^ k * 2 ^ k) ≠ some k

instance (cfg : ZoneConfig) (z : Zone) (pfn order : Nat) : Decidable (FreeMeets cfg z pfn order) :=
  inferInstanceAs (Decidable (_ ∧ _))

instance (cfg : ZoneConfig) (z : Zone) (page : Nat) : Decidable (PageblockMeets cfg z page) :=
  inferInstanceAs (Decidable (_ ∧ _ ∧ _))

/-- `nr_isolate_pageblock` is at least the number of isolated pageblocks. -/
def IsolatesCounted (z : Zone) : Prop :=
  ∃ isolated : Finset Nat, (isolated.card : Int) ≤ z.nrIsolatePageblock ∧
    ∀ b, z.pageblockType b = .isolate → b ∈ isolated

variable {z' : Zone}

theorem IsolatesCounted.none {z : Zone} (counted : IsolatesCounted z)
    (zero : hasIsolatePageblock z = false) (b : Nat) : z.pageblockType b ≠ .isolate := by
  obtain ⟨isolated, le, all⟩ := counted
  rw [hasIsolatePageblock, decide_eq_false_iff_not] at zero
  intro there
  have pos := Finset.card_pos.mpr ⟨b, all b there⟩
  omega

theorem IsolatesCounted.congr {z : Zone} (counted : IsolatesCounted z)
    (number : z'.nrIsolatePageblock = z.nrIsolatePageblock)
    (types : ∀ b, z'.pageblockType b = .isolate ↔ z.pageblockType b = .isolate) :
    IsolatesCounted z' := by
  obtain ⟨isolated, le, all⟩ := counted
  exact ⟨isolated, by rwa [number], fun b there => all b ((types b).mp there)⟩

section Free
variable {cfg : ZoneConfig} {frames : Nat → Prop} {z : Zone} {free : FreeMap} {used : HeldMap}
  {p k : Nat} {mt : MigrateType}

theorem FreeMeets.ofClass (meets : FreeMeets cfg z p k)
    (type : mt = .isolate ↔ getPageblockMigratetype cfg z p = .isolate) : OfClass cfg z p k mt := by
  intro b low high
  have := meets.1 (b - p) (by omega)
  rw [Nat.add_sub_cancel' low] at this
  rw [this, type]

/-- The buddies below the order of a pageblock are in the pageblock of the block. -/
theorem FreeMeets.buddiesFit {calm : Prop} (meets : FreeMeets cfg z p k)
    (ok : ZoneOk cfg frames calm z free used)
    (type : mt = .isolate ↔ getPageblockMigratetype cfg z p = .isolate) :
    BuddiesFit free p k (freeMaxOrder cfg mt - 1) mt := by
  intro j t low high there
  by_cases small : j < cfg.pageblockOrder
  · have first := ok.classes there _ (Nat.le_refl _) (Nat.lt_add_of_pos_right (Nat.two_pow_pos j))
    have same : buddy (blockStart p j) j / pageblockNrPages cfg = p / pageblockNrPages cfg := by
      have aligned : 2 ^ j ∣ blockStart p j := Nat.dvd_mul_left ..
      rw [pageblockNrPages, buddy_div aligned small, blockStart]
      obtain ⟨d, eq⟩ := Nat.exists_eq_add_of_lt small
      have size : 2 ^ cfg.pageblockOrder = 2 ^ j * 2 ^ (d + 1) := by
        rw [eq, ← Nat.pow_add, Nat.add_assoc]
      rw [size, ← Nat.div_div_eq_div_mul, ← Nat.div_div_eq_div_mul,
        Nat.mul_div_cancel _ (Nat.two_pow_pos _)]
    rw [← first, type, getPageblockMigratetype, same, getPageblockMigratetype]
  · have ne : mt ≠ .isolate := by
      rintro rfl
      rw [freeMaxOrder, if_pos rfl] at high
      omega
    rw [freeMaxOrder, if_neg ne] at high
    have absent := meets.2 (fun isolated => ne (type.mpr isolated)) j (by omega) low (by omega)
    refine iff_of_false (fun isolated => absent ?_) ne
    rw [findBuddyIndex_eq, ok.shows.mem, ← isolated]
    exact there

section
variable (valid : FramesValid cfg frames)
  (ok : ZoneOk cfg frames False z free (update used p (some k))) (fresh : used p = none)
  (meets : FreeMeets cfg z p k)
include valid ok fresh meets

theorem freeOnePage_meets (type : mt = .isolate ↔ getPageblockMigratetype cfg z p = .isolate) :
    Freed cfg frames False z used k mt (freeOnePage cfg z p k mt) :=
  freeOnePage_ok valid ok fresh (meets.ofClass type) (meets.buddiesFit ok type) False.elim

/-- The type with which `free_one_page` frees fits the pageblock. -/
theorem freeOnePageLocked_ok (counted : IsolatesCounted z) (sampled : MigrateType) :
    ∃ mt, Freed cfg frames False z used k mt (freeOnePageLocked cfg z p k sampled) := by
  rw [freeOnePageLocked]
  split_ifs with again
  · exact ⟨_, freeOnePage_meets valid ok fresh meets Iff.rfl⟩
  rw [Bool.or_eq_true, decide_eq_true_eq, not_or] at again
  refine ⟨sampled, freeOnePage_meets valid ok fresh meets (iff_of_false again.2 ?_)⟩
  exact counted.none (Bool.eq_false_iff.mpr again.1) _

end

theorem drainPage_ok (valid : FramesValid cfg frames)
    (ok : ZoneOk cfg frames False z free (update used p (some 0)))
    (fresh : used p = none) (meets : FreeMeets cfg z p 0) (counted : IsolatesCounted z)
    (stored : z.freepageType p ≠ .isolate) :
    ∃ mt, Freed cfg frames False z used 0 mt (drainPage cfg z p) := by
  rw [drainPage]
  split_ifs with again
  · exact ⟨_, freeOnePage_meets valid ok fresh meets Iff.rfl⟩
  refine ⟨_, freeOnePage_meets valid ok fresh meets (iff_of_false stored ?_)⟩
  exact counted.none (Bool.eq_false_iff.mpr again) _

end Free

section Pageblock
variable {cfg : ZoneConfig} {frames : Nat → Prop} {z : Zone} {free : FreeMap} {used : HeldMap}
  {page : Nat} {mt : MigrateType}

theorem pageblock_of_mem {q k b : Nat} (aligned : 2 ^ k ∣ q) (le : k ≤ cfg.pageblockOrder)
    (low : q ≤ b) (high : b < q + 2 ^ k) : b / pageblockNrPages cfg = q / pageblockNrPages cfg := by
  obtain ⟨d, eq⟩ := Nat.exists_eq_add_of_le le
  have size : pageblockNrPages cfg = 2 ^ k * 2 ^ d := by rw [pageblockNrPages, eq, Nat.pow_add]
  have same : b / 2 ^ k = q / 2 ^ k := by
    obtain ⟨i, rfl⟩ := aligned
    rw [Nat.mul_div_cancel_left _ (Nat.two_pow_pos k), Nat.div_eq_iff (Nat.two_pow_pos k),
      Nat.mul_comm i]
    omega
  rw [size, ← Nat.div_div_eq_div_mul, ← Nat.div_div_eq_div_mul, same]

/-- A free block that touches the pageblock starts in it and is not larger. -/
theorem PageblockMeets.inside (meets : PageblockMeets cfg z page)
    (zoned : Zoned cfg frames z free used) {q k b : Nat} {t : MigrateType}
    (there : free q = some (k, t)) (low : q ≤ b) (high : b < q + 2 ^ k)
    (touches : InPageblock cfg page b) : k ≤ cfg.pageblockOrder ∧ InPageblock cfg page q := by
  have aligned := zoned.blocks.aligned (Zoned.blockOrder_free there)
  by_cases small : k ≤ cfg.pageblockOrder
  · refine ⟨small, ?_⟩
    rw [InPageblock, ← pageblock_of_mem aligned small low high]
    exact touches
  refine absurd ?_ (meets.2.2 k (zoned.order_lt there) (by omega))
  -- The larger block is the block of its order around the page.
  obtain ⟨d, eq⟩ := Nat.exists_eq_add_of_lt (Nat.lt_of_not_le small)
  have size : 2 ^ k = pageblockNrPages cfg * 2 ^ (d + 1) := by
    rw [pageblockNrPages, ← Nat.pow_add, eq, Nat.add_assoc]
  have around : page / 2 ^ k = q / 2 ^ k := by
    obtain ⟨i, rfl⟩ := aligned
    have same : b / 2 ^ k = i := by
      rw [Nat.div_eq_iff (Nat.two_pow_pos k), Nat.mul_comm i]
      omega
    rw [Nat.mul_div_cancel_left _ (Nat.two_pow_pos k), ← same, size,
      ← Nat.div_div_eq_div_mul, ← Nat.div_div_eq_div_mul]
    exact congrArg (· / 2 ^ (d + 1)) touches.symm
  rw [around, Nat.div_mul_cancel aligned, zoned.shows.pageOrder, there, Option.map_some]

theorem PageblockMeets.whole (meets : PageblockMeets cfg z page) (shows : Shows z free) :
    WholePageblock cfg free page := by
  refine ⟨meets.1, meets.2.1.imp_right fun before b low high => ?_⟩
  have none := before b high low
  rwa [shows.pageOrder, Option.map_eq_none_iff] at none

/-- The free blocks of a pageblock go to lists of another class, and the type of the
pageblock changes with them. -/
theorem movePageblock_ok (valid : FramesValid cfg frames)
    (ok : ZoneOk cfg frames False z free used) (meets : PageblockMeets cfg z page)
    (mt was : MigrateType) (z1 z2 : Zone)
    (type : getPageblockMigratetype cfg z page = .isolate ↔ was = .isolate)
    (lists : z1.freeList = z.freeList) (orders : z1.pageOrder = z.pageOrder)
    (nrFree : z1.nrFree = z.nrFree)
    (lists2 : z2.freeList = (moveFreepagesBlock cfg z1 page mt).1.freeList)
    (orders2 : z2.pageOrder = (moveFreepagesBlock cfg z1 page mt).1.pageOrder)
    (nrFree2 : z2.nrFree = (moveFreepagesBlock cfg z1 page mt).1.nrFree)
    (here : getPageblockMigratetype cfg z2 page = .isolate ↔ mt = .isolate)
    (others : ∀ b, b ≠ page / pageblockNrPages cfg →
      (z2.pageblockType b = .isolate ↔ z.pageblockType b = .isolate)) :
    (∃ free', ZoneOk cfg frames False z2 free' used) ∧
      unisolatedFreePages cfg z2 = unisolatedFreePages cfg z +
        (unlessIsolate mt - unlessIsolate was) * (moveFreepagesBlock cfg z1 page mt).2 ∧
      MoveKept free z1 (moveFreepagesBlock cfg z1 page mt).1 := by
  have zoned1 : Zoned cfg frames z1 free used := by
    refine ⟨ok.shows.congr lists orders, ok.apart, ok.blocks, fun o => ?_⟩
    rw [nrFree, ok.counted, listedBlocks, listedBlocks, weighted, weighted, lists]
  have class_ (q k : Nat) (t : MigrateType) (inBlock : InPageblock cfg page q)
      (there : free q = some (k, t)) : t = .isolate ↔ was = .isolate := by
    have first := ok.classes there q (Nat.le_refl q) (Nat.lt_add_of_pos_right (Nat.two_pow_pos k))
    rw [← first, ← type, getPageblockMigratetype, inBlock, getPageblockMigratetype]
  obtain ⟨free', zoned, pages, kept, moved, all⟩ :=
    moveFreepagesBlock_spec mt was valid zoned1 page class_
  have all := all (meets.whole ok.shows)
  refine ⟨⟨free', ⟨zoned.shows.congr lists2 orders2, zoned.apart, zoned.blocks, fun o => ?_⟩,
    fun {q k t} there => ?_, fun impossible => impossible.elim⟩, ?_, kept⟩
  · rw [nrFree2, zoned.counted, listedBlocks, listedBlocks, weighted, weighted, lists2]
  · intro b low high
    have old : ∃ t', free q = some (k, t') := by
      rcases moved q with same | ⟨_, k', t', was', now⟩
      · exact ⟨t, same ▸ there⟩
      rw [now] at there
      obtain ⟨rfl, _⟩ := Prod.mk.inj (Option.some.inj there)
      exact ⟨t', was'⟩
    obtain ⟨t', there'⟩ := old
    by_cases touches : InPageblock cfg page b
    · have inBlock := (meets.inside ok.toZoned there' low high touches).2
      rw [all q k t' inBlock there'] at there
      obtain ⟨_, rfl⟩ := Prod.mk.inj (Option.some.inj there)
      rw [← here, getPageblockMigratetype, touches, getPageblockMigratetype]
    rw [getPageblockMigratetype, others _ touches]
    rcases moved q with same | ⟨inBlock, k', t'', was', now⟩
    · exact ok.classes (same ▸ there) b low high
    -- A block that starts in the pageblock ends in it.
    refine absurd ?_ touches
    have small := (meets.inside ok.toZoned there' (Nat.le_refl q)
      (Nat.lt_add_of_pos_right (Nat.two_pow_pos k)) inBlock).1
    have aligned := ok.blocks.aligned (Zoned.blockOrder_free there')
    rw [InPageblock, pageblock_of_mem aligned small low high]
    exact inBlock
  · have same : unisolatedFreePages cfg z2 =
        unisolatedFreePages cfg (moveFreepagesBlock cfg z1 page mt).1 :=
      unisolatedFreePages_congr cfg lists2
    have same1 : unisolatedFreePages cfg z1 = unisolatedFreePages cfg z :=
      unisolatedFreePages_congr cfg lists
    rw [same, pages, same1]

structure Reclassed (cfg : ZoneConfig) (frames : Nat → Prop) (z : Zone) (free : FreeMap)
    (used : HeldMap) (z' : Zone) : Prop where
  ok : ∃ free', ZoneOk cfg frames False z' free' used
  balance : z'.nrFreePages - unisolatedFreePages cfg z' =
    z.nrFreePages - unisolatedFreePages cfg z
  isolates : IsolatesCounted z → IsolatesCounted z'
  freepageType (q : Nat) : free q = none → z'.freepageType q = z.freepageType q

theorem moveFreepagesLoop_pageblockType (last fuel from_ : Nat) (z : Zone) (moved : Nat) :
    (moveFreepagesLoop cfg last mt fuel from_ z moved).1.pageblockType = z.pageblockType := by
  induction fuel generalizing from_ z moved with
  | zero => rfl
  | succ fuel ih =>
    rw [moveFreepagesLoop]
    split
    · rfl
    split
    · split
      · exact ih _ _ _
      · exact ih _ _ _
    · exact ih _ _ _

theorem moveFreepagesBlock_pageblockType (z : Zone) (page : Nat) (mt : MigrateType) :
    (moveFreepagesBlock cfg z page mt).1.pageblockType = z.pageblockType := by
  rw [moveFreepagesBlock]
  split
  · exact moveFreepagesLoop_pageblockType ..
  · rfl

theorem setMigratetypeIsolate_ok (valid : FramesValid cfg frames)
    (ok : ZoneOk cfg frames False z free used) (meets : PageblockMeets cfg z page)
    (other : getPageblockMigratetype cfg z page ≠ .isolate) :
    Reclassed cfg frames z free used (setMigratetypeIsolate cfg z page) := by
  rw [setMigratetypeIsolate]
  generalize typed : ({ setPageblockMigratetype cfg z page .isolate with
    nrIsolatePageblock :=
      (setPageblockMigratetype cfg z page .isolate).nrIsolatePageblock + 1 } : Zone) = z1
  have set : z1.pageblockType = update z.pageblockType (page / pageblockNrPages cfg) .isolate := by
    subst typed
    simp [setPageblockMigratetype, MigrateType.isPcpType]
  generalize res : moveFreepagesBlock cfg z1 page .isolate = moved
  have types : moved.1.pageblockType =
      update z.pageblockType (page / pageblockNrPages cfg) .isolate := by
    rw [← res, moveFreepagesBlock_pageblockType, set]
  obtain ⟨ok', pages, kept⟩ := movePageblock_ok valid ok meets .isolate .movable z1
    (modZoneFreepageState moved.1 (-moved.2)) (iff_of_false other (by simp))
    (by rw [← typed]; rfl) (by rw [← typed]; rfl) (by rw [← typed]; rfl) (by rw [res]; rfl)
    (by rw [res]; rfl) (by rw [res]; rfl) (by
      show moved.1.pageblockType _ = _ ↔ _
      rw [types, update_self]) (by
      intro b ne
      show moved.1.pageblockType _ = _ ↔ _
      rw [types, update_of_ne ne])
  rw [res] at pages kept
  refine ⟨ok', ?_, ?_, fun q none => ?_⟩
  · show moved.1.nrFreePages + -(moved.2 : Int) - _ = _
    rw [pages, kept.nrFreePages, ← typed]
    show z.nrFreePages + -(moved.2 : Int) - _ = _
    simp only [unlessIsolate]
    simp
  · rintro ⟨isolated, le, all⟩
    refine ⟨insert (page / pageblockNrPages cfg) isolated, ?_, fun b there => ?_⟩
    · have card := Finset.card_insert_le (page / pageblockNrPages cfg) isolated
      have number : (modZoneFreepageState moved.1 (-moved.2)).nrIsolatePageblock =
          z.nrIsolatePageblock + 1 := kept.nrIsolatePageblock.trans (by rw [← typed]; rfl)
      omega
    have there : moved.1.pageblockType b = .isolate := there
    rw [types] at there
    by_cases same : b = page / pageblockNrPages cfg
    · rw [same]
      exact Finset.mem_insert_self ..
    · rw [update_of_ne same] at there
      exact Finset.mem_insert_of_mem (all b there)
  · exact (kept.freepageType q none).trans (by rw [← typed]; rfl)

theorem newType_ne (cfg : ZoneConfig) (ne : mt ≠ .isolate) :
    (if cfg.mobilityDisabled && mt.isPcpType then .unmovable else mt) ≠ .isolate := by
  split
  · simp
  · exact ne

/-- The pageblock that is put back need not be counted any more. -/
theorem IsolatesCounted.putBack (counted : IsolatesCounted z) {b0 : Nat}
    (there : z.pageblockType b0 = .isolate)
    (number : z'.nrIsolatePageblock = z.nrIsolatePageblock - 1)
    (gone : z'.pageblockType b0 ≠ .isolate)
    (others : ∀ b, b ≠ b0 → z'.pageblockType b = .isolate → z.pageblockType b = .isolate) :
    IsolatesCounted z' := by
  obtain ⟨isolated, le, all⟩ := counted
  refine ⟨isolated.erase b0, ?_, fun b isolate => ?_⟩
  · have mem := all b0 there
    have card := Finset.card_erase_of_mem mem
    have pos := Finset.card_pos.mpr ⟨b0, mem⟩
    omega
  · have ne : b ≠ b0 := by
      rintro rfl
      exact gone isolate
    exact Finset.mem_erase.mpr ⟨ne, all b (others b ne isolate)⟩

/-- Only the pageblock is not isolated any more. -/
theorem putBack_types {old : Nat → MigrateType} (ne : mt ≠ .isolate)
    (types : z'.pageblockType = update old (page / pageblockNrPages cfg)
      (if cfg.mobilityDisabled && mt.isPcpType then .unmovable else mt))
    (same : ∀ b, old b = .isolate ↔ z.pageblockType b = .isolate) :
    z'.pageblockType (page / pageblockNrPages cfg) ≠ .isolate ∧
      ∀ b, b ≠ page / pageblockNrPages cfg →
        (z'.pageblockType b = .isolate ↔ z.pageblockType b = .isolate) := by
  rw [types, update_self]
  refine ⟨newType_ne cfg ne, fun b other => ?_⟩
  rw [update_of_ne other, same]

/-- Putting a pageblock back by moving its free blocks. -/
theorem putBack_ok (valid : FramesValid cfg frames) (ok : ZoneOk cfg frames False z free used)
    (meets : PageblockMeets cfg z page) (isolated : getPageblockMigratetype cfg z page = .isolate)
    (ne : mt ≠ .isolate) (res : z' = { setPageblockMigratetype cfg
      (modZoneFreepageState (moveFreepagesBlock cfg z page mt).1
      (moveFreepagesBlock cfg z page mt).2) page mt with nrIsolatePageblock :=
      (moveFreepagesBlock cfg z page mt).1.nrIsolatePageblock - 1 }) :
    Reclassed cfg frames z free used z' := by
  obtain ⟨here, others⟩ := @putBack_types z' cfg z page mt _ ne
    (by rw [res, ← moveFreepagesBlock_pageblockType z page mt]; rfl) fun _ => Iff.rfl
  obtain ⟨ok', pages, kept⟩ := movePageblock_ok valid ok meets mt .isolate z z'
    (iff_of_true isolated rfl) rfl rfl rfl (by rw [res]; rfl) (by rw [res]; rfl)
    (by rw [res]; rfl) (iff_of_false here ne) others
  refine ⟨ok', ?_, fun counted => ?_, fun q none => ?_⟩
  · have counter : z'.nrFreePages = z.nrFreePages + (moveFreepagesBlock cfg z page mt).2 := by
      rw [← kept.nrFreePages, res]
      rfl
    have one : unlessIsolate mt = 1 := if_neg ne
    have zero : unlessIsolate .isolate = 0 := rfl
    rw [pages, counter, one, zero]
    ring
  · refine counted.putBack isolated ?_ here fun b other => (others b other).mp
    rw [res, ← kept.nrIsolatePageblock]
  · rw [← kept.freepageType q none, res]
    rfl

theorem movablePageblocks_kept (endpage fuel : Nat) (page : Nat) (z : Zone) :
    let z' := movablePageblocks cfg endpage fuel page z
    z'.freeList = z.freeList ∧ z'.pageOrder = z.pageOrder ∧ z'.nrFree = z.nrFree ∧
      z'.freepageType = z.freepageType ∧ z'.nrFreePages = z.nrFreePages ∧
      z'.nrIsolatePageblock = z.nrIsolatePageblock ∧
      ∀ b, z'.pageblockType b = .isolate ↔ z.pageblockType b = .isolate := by
  induction fuel generalizing page z with
  | zero => exact ⟨rfl, rfl, rfl, rfl, rfl, rfl, fun _ => Iff.rfl⟩
  | succ fuel ih =>
    rw [movablePageblocks]
    split_ifs with more
    · dsimp only
      split_ifs with types
      · obtain ⟨lists, orders, nrFree, stored, counter, number, types'⟩ :=
          ih (page + pageblockNrPages cfg) (setPageblockMigratetype cfg z page .movable)
        refine ⟨lists, orders, nrFree, stored, counter, number, fun b => (types' b).trans ?_⟩
        exact setPageblockMigratetype_types types.1 (by simp) b
      · exact ih _ _
    · exact ⟨rfl, rfl, rfl, rfl, rfl, rfl, fun _ => Iff.rfl⟩

/-- Putting a pageblock back whose pages are one free block: the block is taken off
its list. -/
theorem putBackBlock_ok (ok : ZoneOk cfg frames False z free used)
    (meets : PageblockMeets cfg z page) (isolated : getPageblockMigratetype cfg z page = .isolate)
    (ne : mt ≠ .isolate) {order : Nat} (order_eq : z.pageOrder page = some order)
    (large : cfg.pageblockOrder ≤ order)
    (res : z' = { setPageblockMigratetype cfg (isolateFreePage cfg z page order) page mt with
      nrIsolatePageblock := (isolateFreePage cfg z page order).nrIsolatePageblock - 1 }) :
    used page = none ∧
      Reclassed cfg frames z free (update used page (some order)) z' := by
  have exactly : order = cfg.pageblockOrder := by
    by_contra other
    have lt : order < cfg.maxOrder := by
      rw [ok.shows.pageOrder, Option.map_eq_some_iff] at order_eq
      obtain ⟨x, there, rfl⟩ := order_eq
      exact ok.toZoned.order_lt there
    refine meets.2.2 order lt (by omega) ?_
    rw [ok.shows.pageOrder, Option.map_eq_some_iff] at order_eq ⊢
    obtain ⟨x, there, rfl⟩ := order_eq
    have aligned : 2 ^ x.1 ∣ page := ok.blocks.aligned (Zoned.blockOrder_free there)
    exact ⟨x, by rwa [Nat.div_mul_cancel aligned], rfl⟩
  rw [ok.shows.pageOrder, Option.map_eq_some_iff] at order_eq
  obtain ⟨⟨k, t⟩, there, eq⟩ := order_eq
  obtain rfl : k = order := eq
  have type : t = .isolate := (ok.classes there page (Nat.le_refl page)
    (Nat.lt_add_of_pos_right (Nat.two_pow_pos k))).mp isolated
  have kept : (isolateFreePage cfg z page k).freeList = (takeBlock z page k).freeList ∧
      (isolateFreePage cfg z page k).pageOrder = (takeBlock z page k).pageOrder ∧
      (isolateFreePage cfg z page k).nrFree = (takeBlock z page k).nrFree ∧
      (isolateFreePage cfg z page k).freepageType = z.freepageType ∧
      (isolateFreePage cfg z page k).nrFreePages = z.nrFreePages ∧
      (isolateFreePage cfg z page k).nrIsolatePageblock = z.nrIsolatePageblock ∧
      ∀ b, (isolateFreePage cfg z page k).pageblockType b = .isolate ↔
        z.pageblockType b = .isolate := by
    rw [isolateFreePage]
    split
    · exact movablePageblocks_kept _ _ page (takeBlock z page k)
    · exact ⟨rfl, rfl, rfl, rfl, rfl, rfl, fun _ => Iff.rfl⟩
  obtain ⟨lists, orders, nrFree, stored, counter, number, types1⟩ := kept
  obtain ⟨here, others⟩ := @putBack_types z' cfg z page mt _ ne (by rw [res]; rfl) types1
  have taken := ok.take there
  have lists' : z'.freeList = (takeBlock z page k).freeList := by rw [← lists, res]; rfl
  refine ⟨ok.apart there, ⟨_, ⟨taken.shows.congr lists' (by rw [← orders, res]; rfl),
    taken.apart, taken.blocks, fun o => ?_⟩, fun {q l t'} there' => ?_,
    fun impossible => impossible.elim⟩, ?_, fun counted => ?_, fun q none => ?_⟩
  · have : z'.nrFree = (takeBlock z page k).nrFree := by rw [← nrFree, res]; rfl
    rw [this, taken.counted, listedBlocks, listedBlocks, weighted, weighted, lists']
  · intro b low high
    have other : b / pageblockNrPages cfg ≠ page / pageblockNrPages cfg := by
      intro touches
      obtain ⟨low', high'⟩ := (inPageblock_iff cfg page b).mp touches
      have aligned : 2 ^ k ∣ page := ok.blocks.aligned (Zoned.blockOrder_free there)
      have size : pageblockNrPages cfg = 2 ^ k := by rw [pageblockNrPages, exactly]
      rw [size, Nat.div_mul_cancel aligned] at low' high'
      have same := taken.blocks.disjoint (Zoned.blockOrder_free there')
        (taken.toZoned.held_block (update_self ..)) low high low' (by omega)
      rw [same, update_self] at there'
      cases there'
    rw [getPageblockMigratetype, others _ other]
    exact taken.classes there' b low high
  · have pages : unisolatedFreePages cfg z' = unisolatedFreePages cfg (takeBlock z page k) :=
      unisolatedFreePages_congr cfg lists'
    have zero : unlessIsolate .isolate = 0 := rfl
    have same : z'.nrFreePages = z.nrFreePages := by rw [← counter, res]; rfl
    rw [pages, (ok.listed_takeBlock there).pages cfg (ok.toZoned.order_lt there), same, type, zero]
    ring
  · refine counted.putBack isolated ?_ here fun b other => (others b other).mp
    rw [res, ← number]
  · rw [res]
    exact congrFun stored q

def withIsolatedPage (used : HeldMap) (page : Nat) : Option Nat → HeldMap
  | none => used
  | some order => update used page (some order)

theorem unsetMigratetypeIsolate_ok (valid : FramesValid cfg frames)
    (ok : ZoneOk cfg frames False z free used)
    (meets : getPageblockMigratetype cfg z page = .isolate → PageblockMeets cfg z page)
    (ne : mt ≠ .isolate) : Reclassed cfg frames z free
        (withIsolatedPage used page (unsetMigratetypeIsolate cfg z page mt).2)
        (unsetMigratetypeIsolate cfg z page mt).1 ∧
      ((unsetMigratetypeIsolate cfg z page mt).2 ≠ none → used page = none) := by
  rw [unsetMigratetypeIsolate]
  by_cases isolated : getPageblockMigratetype cfg z page = .isolate
  · rw [if_neg (not_not.mpr isolated)]
    cases found : isolatedPage cfg z page with
    | none =>
      exact ⟨putBack_ok valid ok (meets isolated) isolated ne rfl, fun some => absurd rfl some⟩
    | some order =>
      rw [isolatedPage] at found
      cases order_eq : z.pageOrder page with
      | none =>
        rw [order_eq] at found
        cases found
      | some order' =>
        rw [order_eq] at found
        dsimp only at found
        split at found
        · rename_i large
          obtain rfl := Option.some.inj found
          obtain ⟨fresh, back⟩ := putBackBlock_ok ok (meets isolated) isolated ne order_eq large.1 rfl
          exact ⟨back, fun _ => fresh⟩
        · cases found
  · rw [if_pos isolated]
    exact ⟨⟨⟨free, ok⟩, rfl, id, fun _ _ => rfl⟩, fun some => absurd rfl some⟩

end Pageblock

end Linux318.Source.Mm
