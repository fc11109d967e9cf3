import Linux318.Source.Mm.PageAllocOk

/-!
Moving the free blocks of a pageblock to another list (`move_freepages_block`),
stealing a pageblock (`try_to_steal_freepages`) and the fallback of `__rmqueue`.
-/
namespace Linux318.Source.Mm
open Function List Lib.BlockMap

variable {free : FreeMap}

/-- The free blocks that start in a range are on lists of the given type. -/
def relabel (free : FreeMap) (start last : Nat) (mt : MigrateType) : FreeMap := fun q =>
  if start ≤ q ∧ q ≤ last then (free q).map fun x => (x.1, mt) else free q

structure MoveKept (free : FreeMap) (z z' : Zone) : Prop where
  pageblockType : z'.pageblockType = z.pageblockType
  nrFreePages : z'.nrFreePages = z.nrFreePages
  nrIsolatePageblock : z'.nrIsolatePageblock = z.nrIsolatePageblock
  freepageType (q : Nat) : free q = none → z'.freepageType q = z.freepageType q

theorem relabel_empty {start last : Nat} {mt : MigrateType} (lt : last < start) :
    relabel free start last mt = free := by
  funext q
  rw [relabel, if_neg (by omega)]

theorem relabel_skip {page last : Nat} {mt : MigrateType}
    (none : free page = none) : relabel free (page + 1) last mt = relabel free page last mt := by
  funext q
  rw [relabel, relabel]
  by_cases same : q = page
  · rw [same, none]
    simp
  · have : page + 1 ≤ q ∧ q ≤ last ↔ page ≤ q ∧ q ≤ last := by omega
    rw [if_congr this rfl rfl]

section Move
variable {cfg : ZoneConfig} {frames : Nat → Prop} {calm : Prop} {held : HeldMap} {last : Nat}
  (mt was : MigrateType)

section
variable {z : Zone} (zoned : Zoned cfg frames z free held) {page k : Nat} {t : MigrateType}
  (there : free page = some (k, t))
include zoned there

/-- A block in the walk is moved; no block starts before the walk goes on. -/
theorem relabel_block (le : page ≤ last) :
    relabel (update free page (some (k, mt))) (page + 2 ^ k) last mt =
      relabel free page last mt := by
  have pos := Nat.two_pow_pos k
  funext q
  rw [relabel, relabel]
  by_cases same : q = page
  · rw [same, if_neg (by omega), if_pos ⟨Nat.le_refl _, le⟩, update_self, there]
    rfl
  rw [update_of_ne same]
  by_cases inside : page < q ∧ q < page + 2 ^ k
  · have none := zoned.blocks.none_inside (Zoned.blockOrder_free there) inside.1 inside.2
    rw [blockOrder, Option.or_eq_none_iff, Option.map_eq_none_iff] at none
    rw [none.1]
    simp
  · have : page + 2 ^ k ≤ q ∧ q ≤ last ↔ page ≤ q ∧ q ≤ last := by omega
    rw [if_congr this rfl rfl]

theorem Zoned.move (mt : MigrateType) :
    Zoned cfg frames (setFreepageMigratetype (listMove z page k mt) page mt)
      (update free page (some (k, mt))) held where
  shows := (zoned.shows.move there mt).congr rfl rfl
  apart := by
    intro q x h
    by_cases same : q = page
    · rw [same]
      exact zoned.apart there
    · rw [update_of_ne same] at h
      exact zoned.apart h
  blocks := by
    have same : blockOrder (update free page (some (k, mt))) held = blockOrder free held := by
      funext q
      by_cases same : q = page
      · subst same
        rw [Zoned.blockOrder_free there, Zoned.blockOrder_free (update_self ..)]
      · simp [blockOrder, same]
    rw [same]
    exact zoned.blocks
  counted o := by
    have := zoned.shows.listed_listMove there mt o
    exact (zoned.counted o).trans this.symm

end

/-- The walk over a range whose free blocks are all of one class. -/
theorem moveFreepagesLoop_spec (valid : FramesValid cfg frames) (fuel : Nat) (page : Nat) {z : Zone}
    (moved : Nat) (zoned : Zoned cfg frames z free held) (enough : last < page + fuel)
    (class_ : ∀ q k t, page ≤ q → q ≤ last → free q = some (k, t) → (t = .isolate ↔ was = .isolate)) :
    Zoned cfg frames (moveFreepagesLoop cfg last mt fuel page z moved).1
        (relabel free page last mt) held ∧
      unisolatedFreePages cfg (moveFreepagesLoop cfg last mt fuel page z moved).1 =
        unisolatedFreePages cfg z + (unlessIsolate mt - unlessIsolate was) *
          ((moveFreepagesLoop cfg last mt fuel page z moved).2 - moved) ∧
      MoveKept free z (moveFreepagesLoop cfg last mt fuel page z moved).1 := by
  induction fuel generalizing page z free moved with
  | zero =>
    rw [relabel_empty (by omega)]
    exact ⟨zoned, by rw [moveFreepagesLoop]; ring, ⟨rfl, rfl, rfl, fun _ _ => rfl⟩⟩
  | succ fuel ih =>
    rw [moveFreepagesLoop]
    by_cases done : last < page
    · rw [if_pos done, relabel_empty done]
      exact ⟨zoned, by ring, ⟨rfl, rfl, rfl, fun _ _ => rfl⟩⟩
    rw [if_neg done]
    have skip (none : free page = none) := by
      have rest := ih (page + 1) moved zoned (by omega) fun q k t low =>
        class_ q k t (Nat.le_of_succ_le low)
      rwa [relabel_skip none] at rest
    by_cases frame : cfg.pfnValidWithin page = true
    · rw [if_pos frame, zoned.shows.pageOrder]
      cases there : free page with
      | none => exact skip there
      | some x =>
        obtain ⟨k, t⟩ := x
        rw [Option.map_some]
        have lt := zoned.order_lt there
        have type := class_ page k t (Nat.le_refl _) (by omega) there
        have weight : unlessIsolate t = unlessIsolate was := by
          unfold unlessIsolate
          rw [ite_cond_congr (propext type)]
        have pos := Nat.two_pow_pos k
        have rest := ih (page + 2 ^ k) (moved + 2 ^ k) (zoned.move there mt) (by omega) (by
            intro q l t' low high h
            rw [update_of_ne (by omega)] at h
            exact class_ q l t' (by omega) high h)
        rw [relabel_block mt zoned there (by omega)] at rest
        refine ⟨rest.1, rest.2.1.trans ?_, rest.2.2.1, rest.2.2.2, rest.2.2.3, ?_⟩
        · rw [unisolatedFreePages_setFreepageMigratetype,
            zoned.shows.pages_listMove there mt cfg lt, weight]
          push_cast
          ring
        intro q none
        have ne : q ≠ page := by
          rintro rfl
          rw [there] at none
          cases none
        refine (rest.2.2.4 q (by rwa [update_of_ne ne])).trans ?_
        exact update_of_ne ne ..
    · rw [if_neg frame]
      refine skip ?_
      cases there : free page with
      | none => rfl
      | some x =>
        have inFrames : frames page := zoned.blocks.inside (Zoned.blockOrder_free there) page
          (Nat.le_refl _) (Nat.lt_add_of_pos_right (Nat.two_pow_pos x.1))
        exact absurd (valid page inFrames).1 frame

def InPageblock (cfg : ZoneConfig) (page q : Nat) : Prop :=
  q / pageblockNrPages cfg = page / pageblockNrPages cfg

theorem inPageblock_iff (cfg : ZoneConfig) (page q : Nat) :
    InPageblock cfg page q ↔ page / pageblockNrPages cfg * pageblockNrPages cfg ≤ q ∧
      q ≤ page / pageblockNrPages cfg * pageblockNrPages cfg + pageblockNrPages cfg - 1 := by
  have pos : 0 < pageblockNrPages cfg := Nat.two_pow_pos _
  rw [InPageblock, Nat.div_eq_iff pos]

/-- The walk over a pageblock visits every free block that starts in it. -/
def WholePageblock (cfg : ZoneConfig) (free : FreeMap) (page : Nat) : Prop :=
  let start := page / pageblockNrPages cfg * pageblockNrPages cfg
  zoneSpansPfn cfg (start + pageblockNrPages cfg - 1) = true ∧
    (zoneSpansPfn cfg start = true ∨ ∀ b, start ≤ b → b < page → free b = none)

/-- What `move_freepages_block` does to free blocks that are all of one class: all or
some of those that start in the pageblock are moved. -/
theorem moveFreepagesBlock_spec (valid : FramesValid cfg frames) {z : Zone}
    (zoned : Zoned cfg frames z free held) (page : Nat)
    (class_ : ∀ q k t, InPageblock cfg page q → free q = some (k, t) →
      (t = .isolate ↔ was = .isolate)) :
    ∃ free', Zoned cfg frames (moveFreepagesBlock cfg z page mt).1 free' held ∧
      unisolatedFreePages cfg (moveFreepagesBlock cfg z page mt).1 =
        unisolatedFreePages cfg z + (unlessIsolate mt - unlessIsolate was) *
          (moveFreepagesBlock cfg z page mt).2 ∧
      MoveKept free z (moveFreepagesBlock cfg z page mt).1 ∧
      (∀ q, free' q = free q ∨ InPageblock cfg page q ∧
        ∃ k t, free q = some (k, t) ∧ free' q = some (k, mt)) ∧
      (WholePageblock cfg free page → ∀ q k t, InPageblock cfg page q → free q = some (k, t) →
        free' q = some (k, mt)) := by
  rw [moveFreepagesBlock]
  by_cases spans : zoneSpansPfn cfg
      (page / pageblockNrPages cfg * pageblockNrPages cfg + pageblockNrPages cfg - 1) = true
  · rw [if_pos spans, moveFreepages]
    generalize startEq : (if zoneSpansPfn cfg (page / pageblockNrPages cfg * pageblockNrPages cfg)
      then page / pageblockNrPages cfg * pageblockNrPages cfg else page) = start
    have low : page / pageblockNrPages cfg * pageblockNrPages cfg ≤ start := by
      rw [← startEq]
      split
      · exact Nat.le_refl _
      · exact Nat.div_mul_le_self ..
    have enough (last : Nat) : last < start + (last + 1 - start) := by omega
    obtain ⟨zoned', pages, kept⟩ := moveFreepagesLoop_spec mt was valid _ start 0
      zoned (enough _) (by
        intro q k t le le'
        exact class_ q k t ((inPageblock_iff cfg page q).mpr ⟨by omega, le'⟩))
    refine ⟨_, zoned', ?_, kept, fun q => ?_, fun whole q k t inBlock there => ?_⟩
    · rw [pages, Nat.cast_zero, sub_zero]
    · rw [relabel]
      split
      · rename_i inRange
        cases there : free q with
        | none => exact .inl rfl
        | some x =>
          exact .inr ⟨(inPageblock_iff cfg page q).mpr ⟨by omega, inRange.2⟩, x.1, x.2, rfl, rfl⟩
      · exact .inl rfl
    obtain ⟨low', high⟩ := (inPageblock_iff cfg page q).mp inBlock
    have after : start ≤ q := by
      rw [← startEq]
      split
      · exact low'
      rename_i unspanned
      by_contra before
      have := whole.2.resolve_left unspanned q low' (by omega)
      rw [there] at this
      cases this
    rw [relabel, if_pos ⟨after, high⟩, there]
    rfl
  · rw [if_neg spans]
    exact ⟨free, zoned, by simp, ⟨rfl, rfl, rfl, fun _ _ => rfl⟩, fun q => .inl rfl,
      fun whole => absurd whole.1 spans⟩

end Move

section Steal
variable {cfg : ZoneConfig} {frames : Nat → Prop} {calm : Prop} {z z' : Zone} {free : FreeMap}
  {held : HeldMap} {page order current : Nat} {t startType : MigrateType}

/-- The types of pageblocks may change among those that are not isolated. -/
theorem ZoneOk.retype (ok : ZoneOk cfg frames calm z free held) (lists : z'.freeList = z.freeList)
    (orders : z'.pageOrder = z.pageOrder) (nrFree : z'.nrFree = z.nrFree)
    (types : ∀ b, z'.pageblockType b = .isolate ↔ z.pageblockType b = .isolate) :
    ZoneOk cfg frames calm z' free held where
  shows := ok.shows.congr lists orders
  apart := ok.apart
  blocks := ok.blocks
  counted o := by
    rw [nrFree, ok.counted, listedBlocks, listedBlocks, weighted, weighted, lists]
  classes there := (ok.classes there).congr types
  reduced := ok.reduced

theorem setPageblockMigratetype_types (ne : getPageblockMigratetype cfg z page ≠ .isolate)
    (type : startType ≠ .isolate) (b : Nat) :
    (setPageblockMigratetype cfg z page startType).pageblockType b = .isolate ↔
      z.pageblockType b = .isolate := by
  show update z.pageblockType (page / pageblockNrPages cfg) _ b = _ ↔ _
  by_cases same : b = page / pageblockNrPages cfg
  · rw [same, update_self]
    refine iff_of_false ?_ ne
    split
    · simp
    · exact type
  · rw [update_of_ne same]

theorem changePageblockLoop_types (type : startType ≠ .isolate) (count : Nat) {page : Nat}
    {z : Zone} (ne : ∀ i < count,
      getPageblockMigratetype cfg z (page + i * pageblockNrPages cfg) ≠ .isolate) (b : Nat) :
    (changePageblockLoop cfg startType count page z).pageblockType b = .isolate ↔
      z.pageblockType b = .isolate := by
  induction count generalizing page z with
  | zero => rfl
  | succ count ih =>
    have first := ne 0 (Nat.succ_pos _)
    rw [Nat.zero_mul, Nat.add_zero] at first
    have types := setPageblockMigratetype_types first type
    rw [changePageblockLoop, ih, types]
    intro i lt
    have := ne (i + 1) (by omega)
    rw [Nat.add_mul, Nat.one_mul, Nat.add_comm (i * _), ← Nat.add_assoc] at this
    rwa [getPageblockMigratetype, ne_eq, types]

theorem changePageblockLoop_lists (cfg : ZoneConfig) (startType : MigrateType) (count page : Nat)
    (z : Zone) : let z' := changePageblockLoop cfg startType count page z
    z'.freeList = z.freeList ∧ z'.pageOrder = z.pageOrder ∧ z'.nrFree = z.nrFree ∧
      z'.freepageType = z.freepageType ∧ z'.nrFreePages = z.nrFreePages ∧
      z'.nrIsolatePageblock = z.nrIsolatePageblock := by
  induction count generalizing page z with
  | zero => exact ⟨rfl, rfl, rfl, rfl, rfl, rfl⟩
  | succ count ih => exact ih _ _

/-- What stealing leaves of the zone, with the block still on a list. -/
structure Stolen (cfg : ZoneConfig) (frames : Nat → Prop) (calm : Prop) (z : Zone)
    (free : FreeMap) (held : HeldMap) (page current : Nat) (z' : Zone) : Prop where
  ok : ∃ free' t, ZoneOk cfg frames calm z' free' held ∧ free' page = some (current, t) ∧
    t ≠ .isolate
  pages : unisolatedFreePages cfg z' = unisolatedFreePages cfg z
  nrFreePages : z'.nrFreePages = z.nrFreePages
  nrIsolatePageblock : z'.nrIsolatePageblock = z.nrIsolatePageblock
  types (b : Nat) : z'.pageblockType b = .isolate ↔ z.pageblockType b = .isolate
  freepageType (q : Nat) : free q = none → z'.freepageType q = z.freepageType q

theorem Stolen.retype (stolen : Stolen cfg frames calm z free held page current z') {z'' : Zone}
    (lists : z''.freeList = z'.freeList) (orders : z''.pageOrder = z'.pageOrder)
    (nrFree : z''.nrFree = z'.nrFree)
    (types : ∀ b, z''.pageblockType b = .isolate ↔ z'.pageblockType b = .isolate)
    (nrFreePages : z''.nrFreePages = z'.nrFreePages)
    (nrIsolate : z''.nrIsolatePageblock = z'.nrIsolatePageblock)
    (freepageType : z''.freepageType = z'.freepageType) :
    Stolen cfg frames calm z free held page current z'' where
  ok := by
    obtain ⟨free', t, ok, there, ne⟩ := stolen.ok
    exact ⟨free', t, ok.retype lists orders nrFree types, there, ne⟩
  pages := (unisolatedFreePages_congr cfg lists).trans stolen.pages
  nrFreePages := nrFreePages.trans stolen.nrFreePages
  nrIsolatePageblock := nrIsolate.trans stolen.nrIsolatePageblock
  types b := (types b).trans (stolen.types b)
  freepageType q none := (congrFun freepageType q).trans (stolen.freepageType q none)

theorem stolen_self (ok : ZoneOk cfg frames calm z free held)
    (there : free page = some (current, t)) (ne : t ≠ .isolate) :
    Stolen cfg frames calm z free held page current z :=
  ⟨⟨free, t, ok, there, ne⟩, rfl, rfl, rfl, fun _ => Iff.rfl, fun _ _ => rfl⟩

section
variable (valid : FramesValid cfg frames) (ok : ZoneOk cfg frames calm z free held)
  (there : free page = some (current, t)) (ne : t ≠ .isolate) (start : startType ≠ .isolate)
include valid ok there ne start

theorem stolen_moveFreepagesBlock :
    Stolen cfg frames calm z free held page current (moveFreepagesBlock cfg z page startType).1 := by
  have first {q k : Nat} {t : MigrateType} (h : free q = some (k, t)) :
      getPageblockMigratetype cfg z q = .isolate ↔ t = .isolate :=
    ok.classes h q (Nat.le_refl q) (Nat.lt_add_of_pos_right (Nat.two_pow_pos k))
  have class_ (q k : Nat) (t' : MigrateType) (same : InPageblock cfg page q)
      (h : free q = some (k, t')) : t' = .isolate ↔ t = .isolate := by
    rw [← first h, ← first there, getPageblockMigratetype, same, getPageblockMigratetype]
  obtain ⟨free', zoned, pages, kept, moved, _⟩ :=
    moveFreepagesBlock_spec startType t valid ok.toZoned page class_
  have types (b : Nat) : (moveFreepagesBlock cfg z page startType).1.pageblockType b = .isolate ↔
      z.pageblockType b = .isolate := by rw [kept.pageblockType]
  -- A block of the new map is an old one, and of the same class.
  have old {q k : Nat} {t' : MigrateType} (h : free' q = some (k, t')) :
      ∃ t'', free q = some (k, t'') ∧ (t'' = .isolate ↔ t' = .isolate) := by
    rcases moved q with same | ⟨inBlock, k', t'', was, now⟩
    · exact ⟨t', same ▸ h, Iff.rfl⟩
    rw [now] at h
    obtain ⟨rfl, rfl⟩ := Prod.mk.inj (Option.some.inj h)
    refine ⟨t'', was, ?_⟩
    rw [class_ q k' t'' inBlock was]
    exact iff_of_false ne start
  have ok' : ZoneOk cfg frames calm (moveFreepagesBlock cfg z page startType).1 free' held := by
    refine ⟨zoned, fun {p k t'} h => ?_, fun {p k t' t''} yes lt h h' => ?_⟩
    · obtain ⟨t'', was, same⟩ := old h
      intro b low high
      rw [getPageblockMigratetype, types, ← same]
      exact ok.classes was b low high
    · obtain ⟨_, was, _⟩ := old h
      obtain ⟨_, was', _⟩ := old h'
      exact ok.reduced yes lt was was'
  refine ⟨?_, ?_, kept.nrFreePages, kept.nrIsolatePageblock, types, kept.freepageType⟩
  · rcases moved page with same | ⟨_, k', t', was, now⟩
    · exact ⟨free', t, ok', same.trans there, ne⟩
    rw [there] at was
    obtain ⟨rfl, rfl⟩ := Prod.mk.inj (Option.some.inj was)
    exact ⟨free', startType, ok', now, start⟩
  · have one (s : MigrateType) (h : s ≠ .isolate) : unlessIsolate s = 1 := if_neg h
    rw [pages, one t ne, one startType start]
    ring

theorem tryToStealFreepages_ok :
    Stolen cfg frames calm z free held page current (tryToStealFreepages cfg z page startType) := by
  have noIsolate (b : Nat) (low : page ≤ b) (high : b < page + 2 ^ current) :
      getPageblockMigratetype cfg z b ≠ .isolate := fun isolated =>
    ne ((ok.classes there b low high).mp isolated)
  have pos := Nat.two_pow_pos current
  rw [tryToStealFreepages, ok.shows.pageOrder, there, Option.map_some, Option.getD_some]
  dsimp only
  split
  · rename_i large
    obtain ⟨lists, orders, nrFree, freepageType, nrFreePages, nrIsolate⟩ :=
      changePageblockLoop_lists cfg startType (2 ^ (current - cfg.pageblockOrder)) page z
    refine (stolen_self ok there ne).retype lists orders nrFree ?_ nrFreePages nrIsolate
      freepageType
    refine changePageblockLoop_types start _ fun i lt => noIsolate _ (Nat.le_add_right ..) ?_
    have size : 2 ^ current = 2 ^ (current - cfg.pageblockOrder) * pageblockNrPages cfg := by
      rw [pageblockNrPages, ← Nat.pow_add, Nat.sub_add_cancel large]
    rw [size]
    exact Nat.add_lt_add_left (Nat.mul_lt_mul_of_pos_right lt (Nat.two_pow_pos _)) page
  · split
    · have moved := stolen_moveFreepagesBlock valid ok there ne start
      split
      · refine moved.retype rfl rfl rfl (setPageblockMigratetype_types ?_ start) rfl rfl rfl
        rw [getPageblockMigratetype, ne_eq, moved.types]
        exact noIsolate page (Nat.le_refl page) (by omega)
      · exact moved
    · exact stolen_self ok there ne

end

theorem moveFreepagesLoop_addNrFree (last : Nat) (mt : MigrateType) (o : Nat) (n : Int)
    (fuel : Nat) (page : Nat) (z : Zone) (moved : Nat) :
    moveFreepagesLoop cfg last mt fuel page (addNrFree z o n) moved =
      (addNrFree (moveFreepagesLoop cfg last mt fuel page z moved).1 o n,
        (moveFreepagesLoop cfg last mt fuel page z moved).2) := by
  induction fuel generalizing page z moved with
  | zero => rfl
  | succ fuel ih =>
    rw [moveFreepagesLoop, moveFreepagesLoop]
    split_ifs
    · rfl
    · have orders : (addNrFree z o n).pageOrder page = z.pageOrder page := rfl
      rw [orders]
      cases z.pageOrder page with
      | none => exact ih _ _ _
      | some k =>
        exact ih (page + 2 ^ k) (setFreepageMigratetype (listMove z page k mt) page mt)
          (moved + 2 ^ k)
    · exact ih _ _ _

theorem changePageblockLoop_addNrFree (o : Nat) (n : Int) (count page : Nat) (z : Zone) :
    changePageblockLoop cfg startType count page (addNrFree z o n) =
      addNrFree (changePageblockLoop cfg startType count page z) o n := by
  induction count generalizing page z with
  | zero => rfl
  | succ count ih => exact ih _ (setPageblockMigratetype cfg z page startType)

theorem moveFreepagesBlock_addNrFree (mt : MigrateType) (o : Nat) (n : Int) (page : Nat)
    (z : Zone) : moveFreepagesBlock cfg (addNrFree z o n) page mt =
      (addNrFree (moveFreepagesBlock cfg z page mt).1 o n,
        (moveFreepagesBlock cfg z page mt).2) := by
  rw [moveFreepagesBlock, moveFreepagesBlock]
  split
  · exact moveFreepagesLoop_addNrFree ..
  · rfl

theorem tryToStealFreepages_addNrFree (o : Nat) (n : Int) (page : Nat) (z : Zone) :
    tryToStealFreepages cfg (addNrFree z o n) page startType =
      addNrFree (tryToStealFreepages cfg z page startType) o n := by
  have orders : (addNrFree z o n).pageOrder = z.pageOrder := rfl
  rw [tryToStealFreepages, tryToStealFreepages, orders]
  split
  · exact changePageblockLoop_addNrFree ..
  split
  · rw [moveFreepagesBlock_addNrFree]
    dsimp only
    split
    · rfl
    · rfl
  · rfl

theorem fallbacks_ne_isolate : ∀ start mt, mt ∈ fallbacks start → mt ≠ .isolate := by
  intro start
  cases start <;> decide

theorem fallbackOrderLoop_taken (valid : FramesValid cfg frames)
    (ok : ZoneOk cfg frames calm z free held) (start : startType ≠ .isolate)
    (le : order ≤ current) (types : List MigrateType) (other : ∀ mt ∈ types, mt ≠ .isolate)
    (res : fallbackOrderLoop cfg z order startType current types = some (page, z')) :
    Taken cfg frames calm z held order page z' := by
  induction types with
  | nil => cases res
  | cons mt rest ih =>
    have later := ih fun mt mem => other mt (mem_cons_of_mem _ mem)
    have ne := other mt (mem_cons_self ..)
    rw [fallbackOrderLoop] at res
    split at res
    · cases res
    split at res
    · exact later res
    split at res
    · exact later res
    rename_i first others list
    obtain ⟨rfl, rfl⟩ := Prod.mk.inj (Option.some.inj res)
    have there : free first = some (current, mt) :=
      (ok.shows.mem ..).mp (by rw [list]; exact mem_cons_self ..)
    split_ifs with isCma
    · exact taken_of_block ok there ne ne le
    rw [tryToStealFreepages_addNrFree]
    have stolen := tryToStealFreepages_ok valid ok there ne start
    obtain ⟨free', t', ok', there', ne'⟩ := stolen.ok
    have taken := taken_of_block ok' there' ne' start le
    refine ⟨taken.ok, taken.fresh, taken.pages.trans ?_, taken.nrFreePages.trans stolen.nrFreePages,
      taken.nrIsolatePageblock.trans stolen.nrIsolatePageblock,
      fun b => (taken.types b).trans (stolen.types b), ?_, taken.freepageType⟩
    · rw [stolen.pages]
    · intro q used
      exact (taken.others q used).trans (stolen.freepageType q (ok.toZoned.not_free q used))

theorem fallbackOrders_le {cfg : ZoneConfig} {order current : Nat}
    (mem : current ∈ fallbackOrders cfg order) : order ≤ current := by
  rw [fallbackOrders] at mem
  rw [mem_append, mem_reverse, mem_range'_1, mem_range'_1] at mem
  omega

theorem rmqueueFallback_taken (valid : FramesValid cfg frames)
    (ok : ZoneOk cfg frames calm z free held)
    (res : rmqueueFallback cfg z order startType = some (page, z')) :
    Taken cfg frames calm z held order page z' := by
  obtain ⟨current, mem, found⟩ := exists_of_findSome?_eq_some res
  have start : startType ≠ .isolate := by
    rintro rfl
    cases found
  exact fallbackOrderLoop_taken valid ok start (fallbackOrders_le mem) _
    (fallbacks_ne_isolate startType) found

/-- `__rmqueue` takes a block of the requested order. A request for the isolate type
is only made when there are no isolated blocks. -/
theorem rmqueue_taken (valid : FramesValid cfg frames) {mt : MigrateType}
    (ok : ZoneOk cfg frames calm z free held)
    (type : mt ≠ .isolate ∨ ∀ o, z.freeList o .isolate = [])
    (res : rmqueue cfg z order mt = some (page, z')) :
    Taken cfg frames calm z held order page z' := by
  rw [rmqueue] at res
  split at res
  · rename_i taken found
    obtain rfl := Option.some.inj res
    exact rmqueueSmallest_taken ok type found
  split at res
  · cases res
  split at res
  · rename_i taken found
    obtain rfl := Option.some.inj res
    exact rmqueueFallback_taken valid ok found
  · exact rmqueueSmallest_taken ok (.inl (by simp)) res

end Steal

end Linux318.Source.Mm
