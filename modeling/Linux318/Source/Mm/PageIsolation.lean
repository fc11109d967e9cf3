import Linux318.Source.Mm.PageAllocSteal

/-!
Isolating pageblocks (`mm/page_isolation.c` 11-125, with `__isolate_free_page`) and
the frees that sample the type of a page: `free_one_page`, `free_hot_cold_page` and
`free_pcppages_bulk` (`mm/page_alloc.c` 536-600, 1010-1037 and 1143-1247).
-/
namespace Linux318.Source.Mm

def hasIsolatePageblock (z : Zone) : Bool := decide (z.nrIsolatePageblock ≠ 0)

/-- `free_one_page`; the type was sampled before the zone was locked. -/
def freeOnePageLocked (cfg : ZoneConfig) (z : Zone) (pfn order : Nat) (mt : MigrateType) : Zone :=
  let mt := if hasIsolatePageblock z || decide (mt = .isolate) then
      getPageblockMigratetype cfg z pfn
    else mt
  freeOnePage cfg z pfn order mt

/-- The lists of `struct per_cpu_pages`, one for each of the first types. -/
abbrev PcpLists := Nat → List Nat

def pcpTypes : Nat := 3

/-- The list of a type; pages of the other types go to the movable one. -/
def pcpIndex : MigrateType → Nat
  | .unmovable => 0
  | .reclaimable => 1
  | .movable | .reserve | .cma | .isolate => 2

/-- `free_hot_cold_page`, up to the call of `free_pcppages_bulk`. -/
def freeHotColdPage (cfg : ZoneConfig) (z : Zone) (lists : PcpLists) (pfn : Nat)
    (sampled : MigrateType) (cold : Bool) : Zone × PcpLists :=
  let z := setFreepageMigratetype z pfn sampled
  if sampled = .isolate then (freeOnePageLocked cfg z pfn 0 sampled, lists)
  else
    let i := pcpIndex sampled
    (z, Function.update lists i (if cold then lists i ++ [pfn] else pfn :: lists i))

/-- The search for a list with pages in `free_pcppages_bulk`. After one round over
empty lists it would never end. -/
def nextPcpList (lists : PcpLists) : Nat → Nat → Nat → Option (Nat × Nat)
  | 0, _, _ => none
  | tries + 1, i, batchFree =>
    let next := if i + 1 = pcpTypes then 0 else i + 1
    if lists next = [] then nextPcpList lists tries next (batchFree + 1)
    else some (next, batchFree + 1)

def drainPage (cfg : ZoneConfig) (z : Zone) (page : Nat) : Zone :=
  let mt := if hasIsolatePageblock z then getPageblockMigratetype cfg z page
    else z.freepageType page
  freeOnePage cfg z page 0 mt

/-- Where the loops of `free_pcppages_bulk` are: the lists, the current one, `batch_free`,
and whether the inner loop goes on with this list. -/
structure BulkState where
  lists : PcpLists
  current : Nat
  batchFree : Nat
  inner : Bool

/-- The page that `free_pcppages_bulk` takes next, with `toFree` pages left to free. -/
def nextPcpPage (toFree : Nat) (b : BulkState) : Option (Nat × BulkState) :=
  let chosen := if b.inner then some (b.current, b.batchFree)
    else (nextPcpList b.lists pcpTypes b.current b.batchFree).map fun found =>
      (found.1, if found.2 = pcpTypes then toFree else found.2)
  match chosen with
  | none => none
  | some (current, batchFree) =>
    match (b.lists current).getLast? with
    | none => none
    | some page =>
      let lists := Function.update b.lists current (b.lists current).dropLast
      some (page, ⟨lists, current, batchFree - 1,
        decide (batchFree - 1 ≠ 0) && decide (lists current ≠ [])⟩)

def bulkLoop (cfg : ZoneConfig) : Nat → Zone → BulkState → Option (Zone × PcpLists)
  | 0, z, b => some (z, b.lists)
  | toFree + 1, z, b =>
    match nextPcpPage (toFree + 1) b with
    | none => none
    | some (page, b) => bulkLoop cfg toFree (drainPage cfg z page) b

def freePcppagesBulk (cfg : ZoneConfig) (z : Zone) (lists : PcpLists) (count : Nat) :
    Option (Zone × PcpLists) :=
  bulkLoop cfg count z ⟨lists, 0, 0, false⟩

/-- The pages of `rmqueue_bulk` in the order in which they are taken. -/
def rmqueueBulkLoop (cfg : ZoneConfig) (order : Nat) (mt : MigrateType) :
    Nat → Zone → Zone × List Nat
  | 0, z => (z, [])
  | count + 1, z =>
    match rmqueue cfg z order mt with
    | none => (z, [])
    | some (page, z) =>
      let rest := rmqueueBulkLoop cfg order mt count z
      (rest.1, page :: rest.2)

/-- `rmqueue_bulk` for pages of order 0 that go to a per-cpu list. -/
def rmqueueBulk (cfg : ZoneConfig) (z : Zone) (lists : PcpLists) (count : Nat) (mt : MigrateType)
    (cold : Bool) : Zone × PcpLists :=
  let taken := rmqueueBulkLoop cfg 0 mt count z
  let i := pcpIndex mt
  (modZoneFreepageState taken.1 (-taken.2.length),
    Function.update lists i
      (if cold then lists i ++ taken.2.reverse else taken.2 ++ lists i))

/-- What `set_migratetype_isolate` does to a pageblock that can be isolated. -/
def setMigratetypeIsolate (cfg : ZoneConfig) (z : Zone) (page : Nat) : Zone :=
  let z := setPageblockMigratetype cfg z page .isolate
  let z := { z with nrIsolatePageblock := z.nrIsolatePageblock + 1 }
  let moved := moveFreepagesBlock cfg z page .isolate
  modZoneFreepageState moved.1 (-moved.2)

/-- The loop of `__isolate_free_page` over the pageblocks of the block. -/
def movablePageblocks (cfg : ZoneConfig) (endpage : Nat) : Nat → Nat → Zone → Zone
  | 0, _, z => z
  | rounds + 1, page, z =>
    if page < endpage then
      let mt := getPageblockMigratetype cfg z page
      movablePageblocks cfg endpage rounds (page + pageblockNrPages cfg)
        (if mt ≠ .isolate ∧ mt ≠ .cma then setPageblockMigratetype cfg z page .movable else z)
    else z

/-- `__isolate_free_page` for a page of an isolated pageblock: no watermark is checked
and no page is counted. -/
def isolateFreePage (cfg : ZoneConfig) (z : Zone) (page order : Nat) : Zone :=
  let z := rmvPageOrder (addNrFree (listDel z page) order (-1)) page
  if cfg.pageblockOrder ≤ order + 1 then
    movablePageblocks cfg (page + 2 ^ order - 1) (2 ^ order) page z
  else z

/-- The order of the free block that `unset_migratetype_isolate` takes off its list, to
free it again. -/
def isolatedPage (cfg : ZoneConfig) (z : Zone) (page : Nat) : Option Nat :=
  match z.pageOrder page with
  | none => none
  | some order =>
    let pageIdx := page % 2 ^ cfg.maxOrder
    let buddy := page - pageIdx + findBuddyIndex pageIdx order
    if cfg.pageblockOrder ≤ order ∧ getPageblockMigratetype cfg z buddy ≠ .isolate then some order
    else none

/-- `unset_migratetype_isolate`, up to the free at its end, with the order of the block
that is to be freed. -/
def unsetMigratetypeIsolate (cfg : ZoneConfig) (z : Zone) (page : Nat) (mt : MigrateType) :
    Zone × Option Nat :=
  if getPageblockMigratetype cfg z page ≠ .isolate then (z, none)
  else
    let isolated := isolatedPage cfg z page
    let z := match isolated with
      | some order => isolateFreePage cfg z page order
      | none =>
        let moved := moveFreepagesBlock cfg z page mt
        modZoneFreepageState moved.1 moved.2
    let z := setPageblockMigratetype cfg z page mt
    ({ z with nrIsolatePageblock := z.nrIsolatePageblock - 1 }, isolated)

end Linux318.Source.Mm
