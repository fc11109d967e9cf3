import Linux318.Lib.BlockMap

/-!
The free areas of a memory zone, after `mm/page_alloc.c` 203-211, 411-507 and
693-1011. A page is its frame number. The zone records which pages are the first
page of a free block (`PageBuddy` with `page_order`), the lists of the free areas,
the type of each pageblock and the type kept with a page (`set_freepage_migratetype`).
There are no guard pages and no compound pages. `NR_FREE_CMA_PAGES` and the trace
points are left out.
-/
namespace Linux318.Source.Mm
open Function

/-- `enum migratetype`; the first three are those below `MIGRATE_PCPTYPES`. -/
inductive MigrateType
  | unmovable
  | reclaimable
  | movable
  | reserve
  | cma
  | isolate
  deriving DecidableEq, Repr

def MigrateType.isPcpType : MigrateType → Bool
  | .unmovable | .reclaimable | .movable => true
  | .reserve | .cma | .isolate => false

structure ZoneConfig where
  maxOrder : Nat
  pageblockOrder : Nat
  zoneStartPfn : Nat
  zoneEndPfn : Nat
  pfnValidWithin : Nat → Bool
  /-- The frames whose `page_zone_id` is that of the zone. -/
  pageZone : Nat → Bool
  /-- `CONFIG_NO_FALLBACK_CMA` -/
  noFallbackCma : Bool
  /-- `page_group_by_mobility_disabled` -/
  mobilityDisabled : Bool

structure Zone where
  freeList : Nat → MigrateType → List Nat
  nrFree : Nat → Int
  /-- The order of a page with `PageBuddy`. -/
  pageOrder : Nat → Option Nat
  pageblockType : Nat → MigrateType
  freepageType : Nat → MigrateType
  /-- `NR_FREE_PAGES` -/
  nrFreePages : Int
  nrIsolatePageblock : Int

def costlyOrder : Nat := 3

def listDel (z : Zone) (page : Nat) : Zone :=
  { z with freeList := fun order mt => (z.freeList order mt).erase page }

def listAdd (z : Zone) (page order : Nat) (mt : MigrateType) : Zone :=
  { z with
    freeList := fun o t =>
      if o = order ∧ t = mt then page :: z.freeList o t else z.freeList o t }

def listAddTail (z : Zone) (page order : Nat) (mt : MigrateType) : Zone :=
  { z with
    freeList := fun o t =>
      if o = order ∧ t = mt then z.freeList o t ++ [page] else z.freeList o t }

def listMove (z : Zone) (page order : Nat) (mt : MigrateType) : Zone :=
  listAdd (listDel z page) page order mt

def addNrFree (z : Zone) (order : Nat) (n : Int) : Zone :=
  { z with nrFree := update z.nrFree order (z.nrFree order + n) }

def setPageOrder (z : Zone) (page order : Nat) : Zone :=
  { z with pageOrder := update z.pageOrder page (some order) }

def rmvPageOrder (z : Zone) (page : Nat) : Zone :=
  { z with pageOrder := update z.pageOrder page none }

def setFreepageMigratetype (z : Zone) (page : Nat) (mt : MigrateType) : Zone :=
  { z with freepageType := update z.freepageType page mt }

def modZoneFreepageState (z : Zone) (n : Int) : Zone :=
  { z with nrFreePages := z.nrFreePages + n }

def pageblockNrPages (cfg : ZoneConfig) : Nat := 2 ^ cfg.pageblockOrder

def getPageblockMigratetype (cfg : ZoneConfig) (z : Zone) (pfn : Nat) : MigrateType :=
  z.pageblockType (pfn / pageblockNrPages cfg)

def setPageblockMigratetype (cfg : ZoneConfig) (z : Zone) (pfn : Nat) (mt : MigrateType) : Zone :=
  { z with
    pageblockType := update z.pageblockType (pfn / pageblockNrPages cfg)
      (if cfg.mobilityDisabled && mt.isPcpType then .unmovable else mt) }

def zoneSpansPfn (cfg : ZoneConfig) (pfn : Nat) : Bool :=
  decide (cfg.zoneStartPfn ≤ pfn) && decide (pfn < cfg.zoneEndPfn)

def findBuddyIndex (pageIdx order : Nat) : Nat := pageIdx ^^^ (1 <<< order)

def pageIsBuddy (cfg : ZoneConfig) (z : Zone) (buddy order : Nat) : Bool :=
  cfg.pfnValidWithin buddy && decide (z.pageOrder buddy = some order) && cfg.pageZone buddy

/-- Where the loop of `__free_one_page` stops. `buddyIdx` is the last index that it
computed, and is not set if it computed none. -/
structure Merged where
  zone : Zone
  pageIdx : Nat
  order : Nat
  buddyIdx : Option Nat

/-- The loop of `__free_one_page`. A page is the frame `base` plus its index. -/
def mergeBuddies (cfg : ZoneConfig) (base : Nat) : Nat → Zone → Nat → Nat → Option Nat → Merged
  | 0, z, pageIdx, order, last => ⟨z, pageIdx, order, last⟩
  | rounds + 1, z, pageIdx, order, _ =>
    let buddyIdx := findBuddyIndex pageIdx order
    let buddy := base + buddyIdx
    if pageIsBuddy cfg z buddy order then
      mergeBuddies cfg base rounds (rmvPageOrder (addNrFree (listDel z buddy) order (-1)) buddy)
        (buddyIdx &&& pageIdx) (order + 1) (some buddyIdx)
    else ⟨z, pageIdx, order, some buddyIdx⟩

/-- Whether the block that would be merged next is free, so that the page goes to
the end of its list. -/
def higherBuddyFree (cfg : ZoneConfig) (base : Nat) (m : Merged) : Bool :=
  match m.buddyIdx with
  | none => false
  | some buddyIdx =>
    decide (m.order + 2 < cfg.maxOrder) && cfg.pfnValidWithin (base + buddyIdx) &&
      pageIsBuddy cfg m.zone (base + findBuddyIndex (buddyIdx &&& m.pageIdx) (m.order + 1))
        (m.order + 1)

/-- The highest order that a block freed with this type may reach, plus one. -/
def freeMaxOrder (cfg : ZoneConfig) (mt : MigrateType) : Nat :=
  if mt = .isolate then min cfg.maxOrder (cfg.pageblockOrder + 1) else cfg.maxOrder

def freeOnePage (cfg : ZoneConfig) (z : Zone) (pfn order : Nat) (mt : MigrateType) : Zone :=
  let maxOrder := freeMaxOrder cfg mt
  let z := if mt = .isolate then z else modZoneFreepageState z (2 ^ order)
  let pageIdx := pfn % 2 ^ maxOrder
  let base := pfn - pageIdx
  let m := mergeBuddies cfg base (maxOrder - 1 - order) z pageIdx order none
  let page := base + m.pageIdx
  let m := { m with zone := setPageOrder m.zone page m.order }
  let z := if higherBuddyFree cfg base m then listAddTail m.zone page m.order mt
    else listAdd m.zone page m.order mt
  addNrFree z m.order 1

/-- The loop of `expand`, by the current value of `high`. -/
def expand (page low : Nat) (mt : MigrateType) : Nat → Zone → Zone
  | 0, z => z
  | high + 1, z =>
    if low < high + 1 then
      expand page low mt high
        (setPageOrder (addNrFree (listAdd z (page + 2 ^ high) high mt) high 1)
          (page + 2 ^ high) high)
    else z

/-- The loop of `__rmqueue_smallest`. -/
def rmqueueSmallestLoop (order : Nat) (mt : MigrateType) : Nat → Nat → Zone → Option (Nat × Zone)
  | 0, _, _ => none
  | rounds + 1, currentOrder, z =>
    match z.freeList currentOrder mt with
    | [] => rmqueueSmallestLoop order mt rounds (currentOrder + 1) z
    | page :: _ =>
      let z := addNrFree (rmvPageOrder (listDel z page) page) currentOrder (-1)
      some (page, setFreepageMigratetype (expand page order mt currentOrder z) page mt)

def rmqueueSmallest (cfg : ZoneConfig) (z : Zone) (order : Nat) (mt : MigrateType) :
    Option (Nat × Zone) :=
  rmqueueSmallestLoop order mt (cfg.maxOrder - order) order z

def fallbacks : MigrateType → List MigrateType
  | .unmovable => [.reclaimable, .movable, .reserve]
  | .reclaimable => [.unmovable, .movable, .reserve]
  | .movable => [.cma, .reclaimable, .unmovable, .reserve]
  | .cma => [.reserve]
  | .reserve => [.reserve]
  | .isolate => [.reserve]

/-- The loop of `move_freepages`, with the last page of the range. -/
def moveFreepagesLoop (cfg : ZoneConfig) (last : Nat) (mt : MigrateType) :
    Nat → Nat → Zone → Nat → Zone × Nat
  | 0, _, z, moved => (z, moved)
  | rounds + 1, page, z, moved =>
    if last < page then (z, moved)
    else if cfg.pfnValidWithin page then
      match z.pageOrder page with
      | none => moveFreepagesLoop cfg last mt rounds (page + 1) z moved
      | some order =>
        moveFreepagesLoop cfg last mt rounds (page + 2 ^ order)
          (setFreepageMigratetype (listMove z page order mt) page mt) (moved + 2 ^ order)
    else moveFreepagesLoop cfg last mt rounds (page + 1) z moved

/-- `move_freepages`: the zone and the number of pages moved. -/
def moveFreepages (cfg : ZoneConfig) (z : Zone) (start last : Nat) (mt : MigrateType) :
    Zone × Nat :=
  moveFreepagesLoop cfg last mt (last + 1 - start) start z 0

def moveFreepagesBlock (cfg : ZoneConfig) (z : Zone) (page : Nat) (mt : MigrateType) :
    Zone × Nat :=
  let startPfn := page / pageblockNrPages cfg * pageblockNrPages cfg
  let endPfn := startPfn + pageblockNrPages cfg - 1
  let start := if zoneSpansPfn cfg startPfn then startPfn else page
  if zoneSpansPfn cfg endPfn then moveFreepages cfg z start endPfn mt else (z, 0)

/-- The loop of `change_pageblock_range`. -/
def changePageblockLoop (cfg : ZoneConfig) (mt : MigrateType) : Nat → Nat → Zone → Zone
  | 0, _, z => z
  | count + 1, page, z =>
    changePageblockLoop cfg mt count (page + pageblockNrPages cfg)
      (setPageblockMigratetype cfg z page mt)

def changePageblockRange (cfg : ZoneConfig) (z : Zone) (page startOrder : Nat)
    (mt : MigrateType) : Zone :=
  changePageblockLoop cfg mt (2 ^ (startOrder - cfg.pageblockOrder)) page z

def tryToStealFreepages (cfg : ZoneConfig) (z : Zone) (page : Nat) (startType : MigrateType) :
    Zone :=
  let currentOrder := (z.pageOrder page).getD 0
  if cfg.pageblockOrder ≤ currentOrder then
    changePageblockRange cfg z page currentOrder startType
  else if cfg.pageblockOrder / 2 ≤ currentOrder ∨ startType = .reclaimable ∨
      startType = .unmovable ∨ cfg.mobilityDisabled = true then
    let moved := moveFreepagesBlock cfg z page startType
    if 2 ^ (cfg.pageblockOrder - 1) ≤ moved.2 ∨ cfg.mobilityDisabled = true then
      setPageblockMigratetype cfg moved.1 page startType
    else moved.1
  else z

/-- The loop of `__rmqueue_fallback_order` over a row of `fallbacks`. -/
def fallbackOrderLoop (cfg : ZoneConfig) (z : Zone) (order : Nat) (startType : MigrateType)
    (currentOrder : Nat) : List MigrateType → Option (Nat × Zone)
  | [] => none
  | mt :: rest =>
    if mt = .reserve then none
    else if cfg.noFallbackCma = true ∧ mt = .cma then
      fallbackOrderLoop cfg z order startType currentOrder rest
    else
      match z.freeList currentOrder mt with
      | [] => fallbackOrderLoop cfg z order startType currentOrder rest
      | page :: _ =>
        let buddyType := if mt = .cma then mt else startType
        let z := addNrFree z currentOrder (-1)
        let z := if mt = .cma then z else tryToStealFreepages cfg z page startType
        let z := rmvPageOrder (listDel z page) page
        some (page,
          setFreepageMigratetype (expand page order buddyType currentOrder z) page buddyType)

def rmqueueFallbackOrder (cfg : ZoneConfig) (z : Zone) (order : Nat) (startType : MigrateType)
    (currentOrder : Nat) : Option (Nat × Zone) :=
  fallbackOrderLoop cfg z order startType currentOrder (fallbacks startType)

/-- The orders that `__rmqueue_fallback` tries: down from the largest while they are
costly, then up from the requested one. -/
def fallbackOrders (cfg : ZoneConfig) (order : Nat) : List Nat :=
  let low := max (costlyOrder + 1) order
  (List.range' low (cfg.maxOrder - low)).reverse ++ List.range' order (costlyOrder + 1 - order)

def rmqueueFallback (cfg : ZoneConfig) (z : Zone) (order : Nat) (startType : MigrateType) :
    Option (Nat × Zone) :=
  (fallbackOrders cfg order).findSome? (rmqueueFallbackOrder cfg z order startType)

/-- `__rmqueue`; the zone is unchanged if there is no page. -/
def rmqueue (cfg : ZoneConfig) (z : Zone) (order : Nat) (mt : MigrateType) : Option (Nat × Zone) :=
  match rmqueueSmallest cfg z order mt with
  | some taken => some taken
  | none =>
    if mt = .reserve then none
    else
      match rmqueueFallback cfg z order mt with
      | some taken => some taken
      | none => rmqueueSmallest cfg z order .reserve

def overTypes (f : MigrateType → Int) : Int :=
  f .unmovable + f .reclaimable + f .movable + f .reserve + f .cma + f .isolate

/-- The free blocks of an order, each weighted by the type of its list. -/
def weighted (z : Zone) (weight : MigrateType → Int) (order : Nat) : Int :=
  overTypes fun t => weight t * (z.freeList order t).length

/-- The number of blocks on the lists of a free area. -/
def listedBlocks (z : Zone) (order : Nat) : Int := weighted z (fun _ => 1) order

def unlessIsolate (mt : MigrateType) : Int := if mt = .isolate then 0 else 1

/-- The pages of the free blocks of orders below `n` that are not on an isolate list. -/
def freePagesBelow (z : Zone) : Nat → Int
  | 0 => 0
  | n + 1 => freePagesBelow z n + 2 ^ n * weighted z unlessIsolate n

/-- The pages in free blocks that are not on a `MIGRATE_ISOLATE` list. -/
def unisolatedFreePages (cfg : ZoneConfig) (z : Zone) : Int := freePagesBelow z cfg.maxOrder

end Linux318.Source.Mm
