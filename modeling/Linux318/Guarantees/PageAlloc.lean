import Linux318.Lib.Run
import Linux318.Source.Mm.PageAllocSteal

/-!
# The page allocator

Source: mm/page_alloc.c. The buddy allocator of a zone without isolated pageblocks, over any
sequence of `__rmqueue` and `__free_one_page`. The zone starts with no free pages: its frames are
blocks in use of any orders, which the callers free as they like.
-/
namespace Linux318.Guarantees
open Function Lib Lib.BlockMap Source.Mm

variable {t : MigrateType} {held : HeldMap}

structure PageState where
  zone : Zone
  held : HeldMap

inductive BuddyOp
  | rmqueue (order : Nat) (mt : MigrateType)
  | free (pfn : Nat) (mt : MigrateType)

def emptyZone (types : Nat → MigrateType) : Zone where
  freeList _ _ := []
  nrFree _ := 0
  pageOrder _ := none
  pageblockType := types
  freepageType := types
  nrFreePages := 0
  nrIsolatePageblock := 0

/-- Only blocks that are in use are freed, with their order. -/
def buddyNext (cfg : ZoneConfig) (s : PageState) : BuddyOp → PageState
  | .rmqueue order mt =>
    match rmqueue cfg s.zone order mt with
    | some (page, zone) => ⟨zone, update s.held page (some order)⟩
    | none => s
  | .free pfn mt =>
    match s.held pfn with
    | some order =>
      if mt = .isolate then s
      else ⟨freeOnePage cfg s.zone pfn order mt, update s.held pfn none⟩
    | none => s

/-- The invariant of the buddy allocator, in terms of the lists. -/
structure BuddyInvariant (cfg : ZoneConfig) (frames : Nat → Prop) (s : PageState) : Prop where
  aligned {p k : Nat} {t : MigrateType} : p ∈ s.zone.freeList k t → k < cfg.maxOrder ∧ 2 ^ k ∣ p
  once (k : Nat) (t : MigrateType) : (s.zone.freeList k t).Nodup
  disjoint {p q k l b : Nat} {t t' : MigrateType} : p ∈ s.zone.freeList k t →
    q ∈ s.zone.freeList l t' → p ≤ b → b < p + 2 ^ k → q ≤ b → b < q + 2 ^ l →
    p = q ∧ k = l ∧ t = t'
  unused {p q k l b : Nat} {t : MigrateType} : p ∈ s.zone.freeList k t → s.held q = some l →
    p ≤ b → b < p + 2 ^ k → ¬ (q ≤ b ∧ b < q + 2 ^ l)
  covers (b : Nat) : frames b ↔
    (∃ p k t, p ∈ s.zone.freeList k t ∧ p ≤ b ∧ b < p + 2 ^ k) ∨
      ∃ p k, s.held p = some k ∧ p ≤ b ∧ b < p + 2 ^ k
  merged {p k : Nat} {t t' : MigrateType} : k + 1 < cfg.maxOrder → p ∈ s.zone.freeList k t →
    findBuddyIndex p k ∉ s.zone.freeList k t'
  nrFree (o : Nat) : s.zone.nrFree o = overTypes fun t => (s.zone.freeList o t).length

/-- The invariant in terms of the map of the free blocks. -/
def CalmZone (cfg : ZoneConfig) (frames : Nat → Prop) (s : PageState) : Prop :=
  (∀ b, s.zone.pageblockType b ≠ .isolate) ∧
    ∃ free, ZoneOk cfg frames True s.zone free s.held

section Calm
variable {cfg : ZoneConfig} {frames : Nat → Prop} {s : PageState}

/-- The start: every frame is in use. -/
theorem calmZone_empty {types : Nat → MigrateType} (blocks : Blocks cfg.maxOrder frames held)
    (calm : ∀ b, types b ≠ .isolate) : CalmZone cfg frames ⟨emptyZone types, held⟩ := by
  refine ⟨calm, fun _ => none, ⟨⟨?_, ?_, ?_, ?_⟩, ?_, ?_⟩⟩
  · exact ⟨fun p => rfl, fun p o t => by simp [emptyZone], fun o t => List.nodup_nil⟩
  · intro p x h
    cases h
  · exact blocks
  · simp [listedBlocks, weighted, overTypes, emptyZone]
  · intro p k t h
    cases h
  · intro p k t t' _ _ h
    cases h

theorem CalmZone.type_ne {z : Zone} {free : FreeMap} {p k : Nat}
    (calm : ∀ b, z.pageblockType b ≠ .isolate) (ok : ZoneOk cfg frames True z free held)
    (there : free p = some (k, t)) : t ≠ .isolate := by
  intro isolated
  have := (ok.classes there p (Nat.le_refl p)
    (Nat.lt_add_of_pos_right (Nat.two_pow_pos k))).mpr isolated
  exact calm _ this

/-- Every operation keeps the invariant. -/
theorem CalmZone.next (valid : FramesValid cfg frames) (calm : CalmZone cfg frames s)
    (op : BuddyOp) : CalmZone cfg frames (buddyNext cfg s op) := by
  obtain ⟨types, free, ok⟩ := calm
  cases op with
  | rmqueue order mt =>
    rw [buddyNext]
    cases res : rmqueue cfg s.zone order mt with
    | none => exact ⟨types, free, ok⟩
    | some taken =>
      have empty (o : Nat) : s.zone.freeList o .isolate = [] := by
        refine List.eq_nil_iff_forall_not_mem.mpr fun p mem => ?_
        exact CalmZone.type_ne types ok ((ok.shows.mem ..).mp mem) rfl
      have taken := rmqueue_taken valid ok (.inr empty) res
      exact ⟨fun b => by rw [ne_eq, taken.types]; exact types b, taken.ok⟩
  | free pfn mt =>
    rw [buddyNext]
    cases used : s.held pfn with
    | none => exact ⟨types, free, ok⟩
    | some order =>
      split_ifs with isolate
      · exact ⟨types, free, ok⟩
      have hand : update (update s.held pfn none) pfn (some order) = s.held := by
        rw [update_idem, update_eq_self_iff, used]
      have freed := freeOnePage_ok valid (by rwa [hand]) (update_self ..)
        (fun b _ _ => iff_of_false (types _) isolate)
        (fun j t _ _ there => iff_of_false (CalmZone.type_ne types ok there) isolate)
        (fun _ => isolate)
      exact ⟨fun b => by rw [freed.pageblockType]; exact types b, freed.ok⟩

/-- The block map implies the invariant of the lists. -/
theorem CalmZone.invariant (calm : CalmZone cfg frames s) : BuddyInvariant cfg frames s := by
  obtain ⟨_, free, ok⟩ := calm
  have block {p k : Nat} {t : MigrateType} (mem : p ∈ s.zone.freeList k t) :
      blockOrder free s.held p = some k := Zoned.blockOrder_free ((ok.shows.mem ..).mp mem)
  refine ⟨fun mem => ⟨ok.blocks.order (block mem), ok.blocks.aligned (block mem)⟩, ok.shows.nodup,
    ?_, ?_, ?_, ?_, ?_⟩
  · intro p q k l b t t' memP memQ hp hp' hq hq'
    obtain ⟨rfl, rfl⟩ := ok.blocks.same (block memP) (block memQ) hp hp' hq hq'
    have left := (ok.shows.mem ..).mp memP
    rw [(ok.shows.mem ..).mp memQ] at left
    exact ⟨rfl, rfl, (Prod.mk.inj (Option.some.inj left)).2.symm⟩
  · rintro p q k l b t mem used hp hp' ⟨hq, hq'⟩
    obtain ⟨rfl, rfl⟩ := ok.blocks.same (block mem) (ok.toZoned.held_block used) hp hp' hq hq'
    rw [ok.apart ((ok.shows.mem ..).mp mem)] at used
    cases used
  · intro b
    constructor
    · intro frame
      obtain ⟨p, k, there, low, high⟩ := ok.blocks.covers frame
      cases isFree : free p with
      | none =>
        rw [blockOrder, isFree, Option.map_none] at there
        exact .inr ⟨p, k, there, low, high⟩
      | some x =>
        rw [Zoned.blockOrder_free isFree] at there
        obtain rfl := Option.some.inj there
        exact .inl ⟨p, x.1, x.2, (ok.shows.mem ..).mpr isFree, low, high⟩
    · rintro (⟨p, k, t, mem, low, high⟩ | ⟨p, k, used, low, high⟩)
      · exact ok.blocks.inside (block mem) b low high
      · exact ok.blocks.inside (ok.toZoned.held_block used) b low high
  · intro p k t t' lt mem mem'
    rw [findBuddyIndex_eq] at mem'
    exact ok.reduced trivial lt ((ok.shows.mem ..).mp mem) ((ok.shows.mem ..).mp mem')
  · intro o
    rw [ok.counted]
    simp [listedBlocks, weighted]

end Calm

/-- The buddy invariant holds after any sequence of allocations and frees. -/
theorem buddyRun_invariant (cfg : ZoneConfig) (frames : Nat → Prop) (held : HeldMap)
    (types : Nat → MigrateType) (valid : FramesValid cfg frames)
    (blocks : Blocks cfg.maxOrder frames held) (calm : ∀ b, types b ≠ .isolate)
    (ops : List BuddyOp) :
    BuddyInvariant cfg frames (runFrom (buddyNext cfg) ⟨emptyZone types, held⟩ ops) :=
  (runFrom_invariant_always (buddyNext cfg) (fun _ op calm => calm.next valid op) ops _
    (calmZone_empty blocks calm)).invariant

def fourFrames : ZoneConfig where
  maxOrder := 3
  pageblockOrder := 1
  zoneStartPfn := 0
  zoneEndPfn := 4
  pfnValidWithin pfn := decide (pfn < 4)
  pageZone _ := true
  noFallbackCma := false
  mobilityDisabled := false

def twoPairs : HeldMap := fun p => if p = 0 ∨ p = 2 then some 1 else none

theorem fourFrames_valid : FramesValid fourFrames (· < 4) := fun _ lt => ⟨decide_eq_true lt, rfl⟩

theorem twoPairs_blocks : Blocks fourFrames.maxOrder (· < 4) twoPairs := by
  have cases {p k : Nat} (there : twoPairs p = some k) : (p = 0 ∨ p = 2) ∧ 1 = k := by
    simpa [twoPairs] using there
  refine ⟨fun there => ?_, fun there => ?_, fun there _ low high => ?_, fun {b} lt => ?_,
    fun left right hp hp' hq hq' => ?_⟩
  · obtain ⟨_, rfl⟩ := cases there
    decide
  · obtain ⟨first, rfl⟩ := cases there
    rcases first with rfl | rfl <;> decide
  · obtain ⟨first, rfl⟩ := cases there
    omega
  · by_cases small : b < 2
    · exact ⟨0, 1, rfl, by omega, by omega⟩
    · exact ⟨2, 1, rfl, by omega, by omega⟩
  · obtain ⟨first, rfl⟩ := cases left
    obtain ⟨second, rfl⟩ := cases right
    omega

theorem buddyRun_invariant_fourFrames : BuddyInvariant fourFrames (· < 4)
      (runFrom (buddyNext fourFrames) ⟨emptyZone fun _ => .movable, twoPairs⟩
        [.free 0 .movable, .free 2 .movable, .rmqueue 0 .unmovable]) :=
  buddyRun_invariant fourFrames (· < 4) twoPairs (fun _ => .movable) fourFrames_valid
    twoPairs_blocks (fun _ => by decide) _

open List

/-- The types whose lists may serve a request: its own, those of its row of `fallbacks`
without CMA where the configuration says so, and the reserve. -/
def Serves (cfg : ZoneConfig) (mt t : MigrateType) : Prop :=
  t = mt ∨ t = .reserve ∨ t ∈ fallbacks mt ∧ ¬ (cfg.noFallbackCma = true ∧ t = .cma)

/-- The page is no longer a free block. The rest of its block of order `current` went back
as one block of each order from the requested one on. -/
structure Carved (z : Zone) (page order current : Nat) : Prop where
  taken : z.pageOrder page = none
  rest : ∃ t, ∀ j, order ≤ j → j < current →
    page + 2 ^ j ∈ z.freeList j t ∧ z.pageOrder (page + 2 ^ j) = some j

section Complete
variable {cfg : ZoneConfig} {z z' : Zone} {page order current : Nat} {mt : MigrateType}

theorem expand_pageOrder (high q : Nat) (z : Zone) (out : ∀ j, order ≤ j → j < high →
    q ≠ page + 2 ^ j) : (expand page order mt high z).pageOrder q = z.pageOrder q := by
  induction high generalizing z with
  | zero => rfl
  | succ high ih =>
    rw [expand]
    split
    · rw [ih _ fun j le lt => out j le (by omega)]
      exact update_of_ne (out high (by omega) (by omega)) ..
    · rfl

theorem subset_expand (high o : Nat) (z : Zone) :
    z.freeList o mt ⊆ (expand page order mt high z).freeList o mt := by
  induction high generalizing z with
  | zero => exact Subset.refl _
  | succ high ih =>
    rw [expand]
    split
    · refine Subset.trans (fun q mem => ?_) (ih _)
      show q ∈ ite _ _ _
      split
      · exact mem_cons_of_mem _ mem
      · exact mem
    · exact Subset.refl _

/-- Every upper half goes to its list. -/
theorem expand_gives (high : Nat) (z : Zone) {j : Nat} (le : order ≤ j) (lt : j < high) :
    page + 2 ^ j ∈ (expand page order mt high z).freeList j mt ∧
      (expand page order mt high z).pageOrder (page + 2 ^ j) = some j := by
  induction high generalizing z with
  | zero => omega
  | succ high ih =>
    rw [expand, if_pos (by omega)]
    by_cases last : j = high
    · subst last
      refine ⟨subset_expand j j _ ?_, ?_⟩
      · show _ ∈ ite _ _ _
        rw [if_pos ⟨rfl, rfl⟩]
        exact mem_cons_self ..
      · rw [expand_pageOrder j _ _ fun i _ lt same => ?_]
        · exact update_self ..
        · have := Nat.pow_lt_pow_right (a := 2) (by omega) lt
          omega
    · exact ih _ (by omega)

/-- expand leaves the low end and lists the rest. -/
theorem carved_expand (z : Zone) (t : MigrateType) (gone : z.pageOrder page = none) :
    Carved (setFreepageMigratetype (expand page order mt current z) page t) page order current where
  taken := by
    refine (expand_pageOrder current page z fun j _ _ same => ?_).trans gone
    have := Nat.two_pow_pos j
    omega
  rest := ⟨mt, fun _ le lt => expand_gives current z le lt⟩

/-- It fails only if the lists are empty. -/
theorem rmqueueSmallestLoop_none (rounds : Nat) {first : Nat}
    (none : rmqueueSmallestLoop order mt rounds first z = none) (le : first ≤ current)
    (lt : current < first + rounds) : z.freeList current mt = [] := by
  induction rounds generalizing first with
  | zero => omega
  | succ rounds ih =>
    rw [rmqueueSmallestLoop] at none
    split at none
    · rename_i empty
      by_cases here : first = current
      · rwa [← here]
      · exact ih none (by omega) (by omega)
    · cases none

theorem fallbackOrderLoop_none (types : List MigrateType)
    (none : fallbackOrderLoop cfg z order mt current types = none)
    (mem : t ∈ types.takeWhile (· ≠ .reserve)) (cma : ¬ (cfg.noFallbackCma = true ∧ t = .cma)) :
    z.freeList current t = [] := by
  induction types with
  | nil => cases mem
  | cons head types ih =>
    rw [fallbackOrderLoop] at none
    by_cases reserve : head = .reserve
    · simp [reserve] at mem
    rw [if_neg reserve] at none
    rw [takeWhile_cons_of_pos (by simpa using reserve), mem_cons] at mem
    split at none
    · rcases mem with rfl | mem
      · contradiction
      · exact ih none mem
    split at none
    · rcases mem with rfl | mem
      · assumption
      · exact ih none mem
    · cases none

/-- The block was on a list that may be used. -/
theorem fallbackOrderLoop_some (types : List MigrateType)
    (res : fallbackOrderLoop cfg z order mt current types = some (page, z')) :
    ∃ t ∈ types, ¬ (cfg.noFallbackCma = true ∧ t = .cma) ∧ page ∈ z.freeList current t ∧
      Carved z' page order current := by
  induction types with
  | nil => cases res
  | cons head types ih =>
    have later (res : fallbackOrderLoop cfg z order mt current types = some (page, z')) :=
      (ih res).imp fun t found => And.intro (mem_cons_of_mem head found.1) found.2
    rw [fallbackOrderLoop] at res
    split at res
    · cases res
    split at res
    · exact later res
    rename_i cma
    split at res
    · exact later res
    rename_i list
    obtain ⟨rfl, rfl⟩ := Prod.mk.inj (Option.some.inj res)
    exact ⟨head, mem_cons_self .., cma, by rw [list]; exact mem_cons_self ..,
      carved_expand _ _ (update_self ..)⟩

theorem mem_fallbackOrders (le : order ≤ current) (lt : current < cfg.maxOrder) :
    current ∈ fallbackOrders cfg order := by
  rw [fallbackOrders, mem_append, mem_reverse, mem_range'_1, mem_range'_1]
  omega

end Complete

/-- `__rmqueue` fails only if all lists that may serve the request are empty from its
order on. A page that it returns is a block of the requested order, cut from the
front of a block on such a list. -/
theorem rmqueue_complete (cfg : ZoneConfig) (z : Zone) (order : Nat) (mt : MigrateType) :
    (rmqueue cfg z order mt = none → ∀ current t, order ≤ current → current < cfg.maxOrder →
      Serves cfg mt t → z.freeList current t = []) ∧
    ∀ page z', rmqueue cfg z order mt = some (page, z') → ∃ current t, order ≤ current ∧
      Serves cfg mt t ∧ page ∈ z.freeList current t ∧ Carved z' page order current := by
  have smallest {t : MigrateType} {page : Nat} {z' : Zone} (serves : Serves cfg mt t)
      (res : rmqueueSmallest cfg z order t = some (page, z')) : ∃ current t, order ≤ current ∧
      Serves cfg mt t ∧ page ∈ z.freeList current t ∧ Carved z' page order current := by
    obtain ⟨current, le, mem, rfl⟩ := rmqueueSmallestLoop_some _ res
    exact ⟨current, t, le, serves, mem, carved_expand _ _ (update_self ..)⟩
  have empty {t : MigrateType} (none : rmqueueSmallest cfg z order t = none) {current : Nat}
      (le : order ≤ current) (lt : current < cfg.maxOrder) : z.freeList current t = [] :=
    rmqueueSmallestLoop_none _ none le (by omega)
  rw [rmqueue]
  split
  · rename_i taken found
    refine ⟨fun none => (by cases none), fun page z' res => ?_⟩
    obtain rfl := Option.some.inj res
    exact smallest (.inl rfl) found
  rename_i own
  split
  · rename_i reserve
    subst reserve
    refine ⟨fun _ current t le lt serves => ?_, fun page z' res => (by cases res)⟩
    have same : t = .reserve := by
      rcases serves with same | same | ⟨mem, _⟩
      · exact same
      · exact same
      · simpa [fallbacks] using mem
    rw [same]
    exact empty own le lt
  split
  · rename_i taken found
    refine ⟨fun none => (by cases none), fun page z' res => ?_⟩
    obtain rfl := Option.some.inj res
    obtain ⟨current, mem, found⟩ := exists_of_findSome?_eq_some found
    obtain ⟨t, row, cma, listed, carved⟩ := fallbackOrderLoop_some _ found
    exact ⟨current, t, fallbackOrders_le mem, .inr (.inr ⟨row, cma⟩), listed, carved⟩
  · rename_i others
    refine ⟨fun none current t le lt serves => ?_, fun page z' => smallest (.inr (.inl rfl))⟩
    by_cases reserve : t = .reserve
    · rw [reserve]
      exact empty none le lt
    rcases serves with same | same | ⟨row, cma⟩
    · rw [same]
      exact empty own le lt
    · contradiction
    · have order := findSome?_eq_none_iff.mp others current (mem_fallbackOrders le lt)
      refine fallbackOrderLoop_none _ order ?_ cma
      revert row reserve
      cases mt <;> cases t <;> decide

end Linux318.Guarantees
