import Linux318.Guarantees.PageAlloc
import Linux318.Source.Mm.PageIsolationOk

/-!
# The counter of free pages

Source: mm/page_alloc.c, mm/page_isolation.c. `NR_FREE_PAGES` while pages are allocated, freed
through the per-cpu lists and otherwise, and pageblocks are isolated and put back. The counter is
the number of pages in free blocks that are not on an isolate list in every run in which no block
comes together from isolated and other pageblocks. A free that merges with an isolated free
pageblock breaks it.
-/
namespace Linux318.Guarantees
open Function List Lib Lib.BlockMap Source.Mm

variable {mt : MigrateType} {free : FreeMap} {held : HeldMap}

/-- A zone, the blocks that its callers own, and the per-cpu lists. -/
structure FreePagesState where
  zone : Zone
  held : HeldMap
  pcp : Nat → PcpLists

/-- The types of the frees are those sampled before the zone was locked. -/
inductive FreePagesOp
  | rmqueue (order : Nat) (mt : MigrateType)
  | free (pfn : Nat) (sampled : MigrateType)
  | freeHotCold (cpu pfn : Nat) (sampled : MigrateType) (cold : Bool)
  | refill (cpu count : Nat) (mt : MigrateType) (cold : Bool)
  | drain (cpu count : Nat)
  | isolate (page : Nat)
  | unisolate (page : Nat) (mt : MigrateType)

/-- The callers of `__rmqueue` take the pages off the counter. -/
def freePagesNext (cfg : ZoneConfig) (s : FreePagesState) : FreePagesOp → FreePagesState
  | .rmqueue order mt =>
    if mt = .isolate then s
    else
      match rmqueue cfg s.zone order mt with
      | none => s
      | some (page, zone) =>
        { s with
          zone := modZoneFreepageState zone (-2 ^ order)
          held := update s.held page (some order) }
  | .free pfn sampled =>
    match s.held pfn with
    | none => s
    | some order =>
      { s with
        zone := freeOnePageLocked cfg s.zone pfn order sampled
        held := update s.held pfn none }
  | .freeHotCold cpu pfn sampled cold =>
    if s.held pfn = some 0 then
      let freed := freeHotColdPage cfg s.zone (s.pcp cpu) pfn sampled cold
      { zone := freed.1
        held := update s.held pfn none
        pcp := update s.pcp cpu freed.2 }
    else s
  | .refill cpu count mt cold =>
    if mt.isPcpType then
      let taken := rmqueueBulk cfg s.zone (s.pcp cpu) count mt cold
      { s with zone := taken.1, pcp := update s.pcp cpu taken.2 }
    else s
  | .drain cpu count =>
    match freePcppagesBulk cfg s.zone (s.pcp cpu) count with
    | none => s
    | some (zone, lists) => { s with zone, pcp := update s.pcp cpu lists }
  | .isolate page => { s with zone := setMigratetypeIsolate cfg s.zone page }
  | .unisolate page mt =>
    if mt = .isolate then s
    else
      let back := unsetMigratetypeIsolate cfg s.zone page mt
      { s with zone := back.1, held := withIsolatedPage s.held page back.2 }

def freePagesStart (types : Nat → MigrateType) (held : HeldMap) : FreePagesState where
  zone := emptyZone types
  held := held
  pcp _ _ := []

def bulkPages : Nat → BulkState → List Nat
  | 0, _ => []
  | toFree + 1, b =>
    match nextPcpPage (toFree + 1) b with
    | none => []
    | some (page, b) => page :: bulkPages toFree b

/-- No block comes together from isolated and other pageblocks in the step. -/
def OpMeets (cfg : ZoneConfig) (s : FreePagesState) : FreePagesOp → Prop
  | .rmqueue _ _ => True
  | .free pfn _ => ∀ order, s.held pfn = some order → FreeMeets cfg s.zone pfn order
  | .freeHotCold _ pfn sampled _ => sampled = .isolate → FreeMeets cfg s.zone pfn 0
  | .refill _ _ _ _ => True
  | .drain cpu count =>
    StepsMeet (drainPage cfg) (fun z page => FreeMeets cfg z page 0) s.zone
      (bulkPages count ⟨s.pcp cpu, 0, 0, false⟩)
  | .isolate page =>
    getPageblockMigratetype cfg s.zone page ≠ .isolate ∧ PageblockMeets cfg s.zone page
  | .unisolate page _ =>
    getPageblockMigratetype cfg s.zone page = .isolate → PageblockMeets cfg s.zone page

instance (cfg : ZoneConfig) (s : FreePagesState) (op : FreePagesOp) :
    Decidable (OpMeets cfg s op) := by
  cases op <;> unfold OpMeets <;> infer_instance

/-- The callers' blocks and the pages of the per-cpu lists are in use; the pages of the
lists are kept with a type that is not the isolate one. -/
structure Owned (used : HeldMap) (s : FreePagesState) : Prop where
  held {p k : Nat} : s.held p = some k → used p = some k
  cached {c i p : Nat} : p ∈ s.pcp c i → used p = some 0 ∧ s.held p = none
  once (c i : Nat) : (s.pcp c i).Nodup
  apart {c i c' i' p : Nat} : p ∈ s.pcp c i → p ∈ s.pcp c' i' → c = c' ∧ i = i'
  stored {c i p : Nat} : p ∈ s.pcp c i → s.zone.freepageType p ≠ .isolate

def Accounted (cfg : ZoneConfig) (frames : Nat → Prop) (s : FreePagesState) : Prop :=
  (∃ free used, ZoneOk cfg frames False s.zone free used ∧ Owned used s) ∧
    IsolatesCounted s.zone ∧ s.zone.nrFreePages = unisolatedFreePages cfg s.zone

namespace Owned
variable {used : HeldMap} {s : FreePagesState} {zone : Zone} {page k : Nat}

section
variable (owned : Owned used s)
include owned

theorem used_ne {c i q : Nat} (mem : q ∈ s.pcp c i) : used q ≠ none := by
  rw [(owned.cached mem).1]
  simp

/-- The zone changes, not the types kept with the pages of the lists. -/
theorem congr (stored : ∀ {c i q}, q ∈ s.pcp c i → zone.freepageType q = s.zone.freepageType q) :
    Owned used { s with zone } where
  held := owned.held
  cached := owned.cached
  once := owned.once
  apart := owned.apart
  stored mem := by
    rw [stored mem]
    exact owned.stored mem

/-- What is known of one block changes. -/
theorem set {v w : Option Nat} (agree : ∀ l, v = some l → w = some l)
    (listed : ∀ c i, page ∈ s.pcp c i → w = some 0 ∧ v = none) :
    Owned (update used page w) { s with held := update s.held page v } where
  held {p l} h := by
    have h : update s.held page v p = some l := h
    by_cases same : p = page
    · subst same
      rw [update_self] at h ⊢
      exact agree l h
    · rw [update_of_ne same] at h ⊢
      exact owned.held h
  cached {c i p} mem := by
    show update used page w p = _ ∧ update s.held page v p = none
    by_cases same : p = page
    · subst same
      rw [update_self, update_self]
      exact listed c i mem
    · rw [update_of_ne same, update_of_ne same]
      exact owned.cached mem
  once := owned.once
  apart := owned.apart
  stored := owned.stored

/-- A caller gives up a block that stays in use. -/
theorem release (page : Nat) : Owned used { s with held := update s.held page none } := by
  have owned' := owned.set (w := used page) (by simp) fun c i mem => ⟨(owned.cached mem).1, rfl⟩
  rwa [update_eq_self] at owned'

theorem take (fresh : used page = none) : Owned (update used page (some k))
      { s with held := update s.held page (some k) } :=
  owned.set (fun _ => id) fun _ _ mem => absurd fresh (owned.used_ne mem)

theorem give (there : s.held page = some k) :
    Owned (update used page none) { s with held := update s.held page none } :=
  owned.set (by simp) fun _ _ mem => by simp [(owned.cached mem).2] at there

/-- A page of a per-cpu list is taken off the list and freed. -/
theorem drop {cpu : Nat} {lists : PcpLists} (fewer : ∀ i, (lists i).Sublist (s.pcp cpu i))
    (gone : ∀ i, page ∉ lists i) (there : ∃ i, page ∈ s.pcp cpu i) : Owned (update used page none)
      { s with pcp := update s.pcp cpu lists } := by
  obtain ⟨j, there⟩ := there
  have old {c i p : Nat} (mem : p ∈ update s.pcp cpu lists c i) : p ∈ s.pcp c i ∧ p ≠ page := by
    by_cases same : c = cpu
    · subst same
      rw [update_self] at mem
      refine ⟨(fewer i).subset mem, ?_⟩
      rintro rfl
      exact gone i mem
    · rw [update_of_ne same] at mem
      refine ⟨mem, ?_⟩
      rintro rfl
      exact same (owned.apart mem there).1
  refine ⟨fun {p l} h => ?_, fun {c i p} mem => ?_, fun c i => ?_, fun {c i c' i' p} mem mem' => ?_,
    fun {c i p} mem => ?_⟩
  · have ne : p ≠ page := by
      rintro rfl
      rw [(owned.cached there).2] at h
      cases h
    rw [update_of_ne ne]
    exact owned.held h
  · obtain ⟨mem, ne⟩ := old mem
    rw [update_of_ne ne]
    exact owned.cached mem
  · show (update s.pcp cpu lists c i).Nodup
    by_cases same : c = cpu
    · rw [same, update_self]
      exact (owned.once cpu i).sublist (fewer i)
    · rw [update_of_ne same]
      exact owned.once c i
  · exact owned.apart (old mem).1 (old mem').1
  · exact owned.stored (old mem).1

/-- Pages in use that no caller owns any more go to a per-cpu list. -/
theorem add {cpu j : Nat} {pages list : List Nat}
    (perm : list.Perm (pages ++ s.pcp cpu j)) (once : pages.Nodup)
    (new : ∀ p ∈ pages, used p = some 0 ∧ s.held p = none ∧ (∀ c i, p ∉ s.pcp c i) ∧
      s.zone.freepageType p ≠ .isolate) : Owned used
      { s with pcp := update s.pcp cpu (update (s.pcp cpu) j list) } := by
  have cases {c i p : Nat} (mem : p ∈ update s.pcp cpu (update (s.pcp cpu) j list) c i) :
      p ∈ s.pcp c i ∨ p ∈ pages ∧ c = cpu ∧ i = j := by
    by_cases same : c = cpu
    · subst same
      rw [update_self] at mem
      by_cases here : i = j
      · subst here
        rw [update_self, perm.mem_iff, mem_append] at mem
        exact mem.symm.imp_right fun mem => ⟨mem, rfl, rfl⟩
      · rw [update_of_ne here] at mem
        exact .inl mem
    · rw [update_of_ne same] at mem
      exact .inl mem
  refine ⟨owned.held, fun {c i p} mem => ?_, fun c i => ?_, fun {c i c' i' p} mem mem' => ?_,
    fun {c i p} mem => ?_⟩
  · rcases cases mem with old | ⟨mem, _⟩
    · exact owned.cached old
    · exact ⟨(new p mem).1, (new p mem).2.1⟩
  · show (update s.pcp cpu (update (s.pcp cpu) j list) c i).Nodup
    by_cases same : c = cpu
    · rw [same, update_self]
      by_cases here : i = j
      · rw [here, update_self]
        refine perm.nodup_iff.mpr (nodup_append.mpr ⟨once, owned.once cpu j, ?_⟩)
        rintro p mem q mem' rfl
        exact (new p mem).2.2.1 cpu j mem'
      · rw [update_of_ne here]
        exact owned.once cpu i
    · rw [update_of_ne same]
      exact owned.once c i
  · rcases cases mem with old | ⟨fresh, cpuEq, listEq⟩
    · rcases cases mem' with old' | ⟨fresh', _⟩
      · exact owned.apart old old'
      · exact absurd old ((new p fresh').2.2.1 c i)
    · rcases cases mem' with old' | ⟨_, cpuEq', listEq'⟩
      · exact absurd old' ((new p fresh).2.2.1 c' i')
      · exact ⟨cpuEq.trans cpuEq'.symm, listEq.trans listEq'.symm⟩
  · rcases cases mem with old | ⟨mem, _⟩
    · exact owned.stored old
    · exact (new p mem).2.2.2

end

end Owned

section Steps
variable {cfg : ZoneConfig} {frames : Nat → Prop} {s : FreePagesState}

theorem update_back {used : HeldMap} {p k : Nat} (there : used p = some k) :
    update (update used p none) p (some k) = used := by
  rw [update_idem, update_eq_self_iff, there]

/-- A block in use is freed; the counter and the lists gain the same pages. -/
theorem accounted_of_freed {zone : Zone} {used : HeldMap} {k : Nat} {z' : Zone}
    {s' : FreePagesState} (freed : Freed cfg frames False zone used k mt z')
    (isolates : IsolatesCounted zone) (counted : zone.nrFreePages = unisolatedFreePages cfg zone)
    (state : s'.zone = z') (owned : Owned used s') : Accounted cfg frames s' := by
  obtain ⟨free', ok⟩ := freed.ok
  refine ⟨⟨free', used, by rwa [state], owned⟩, ?_, ?_⟩
  · rw [state]
    exact isolates.congr freed.nrIsolatePageblock fun b => by rw [freed.pageblockType]
  · rw [state, freed.nrFreePages, freed.pages, counted]

section
variable (valid : FramesValid cfg frames) (before : Accounted cfg frames s)
include valid before

theorem accounted_rmqueue (order : Nat) (mt : MigrateType) :
    Accounted cfg frames (freePagesNext cfg s (.rmqueue order mt)) := by
  have ⟨⟨free, used, ok, owned⟩, isolates, counted⟩ := before
  rw [freePagesNext]
  split_ifs with isolate
  · exact before
  cases res : rmqueue cfg s.zone order mt with
  | none => exact before
  | some r =>
    obtain ⟨page, zone⟩ := r
    have taken := rmqueue_taken valid ok (.inl isolate) res
    obtain ⟨free', ok'⟩ := taken.ok
    refine ⟨⟨free', _, ok'.retype rfl rfl rfl fun _ => Iff.rfl, ?_⟩, ?_, ?_⟩
    · have kept : Owned used { s with zone := modZoneFreepageState zone (-2 ^ order) } :=
        owned.congr fun mem => taken.others _ (owned.used_ne mem)
      exact kept.take taken.fresh
    · exact isolates.congr taken.nrIsolatePageblock taken.types
    · rw [unisolatedFreePages_modZoneFreepageState, taken.pages, ← counted, ← taken.nrFreePages]
      rfl

theorem accounted_free (pfn : Nat) (sampled : MigrateType) (meets : OpMeets cfg s (.free pfn sampled)) :
    Accounted cfg frames (freePagesNext cfg s (.free pfn sampled)) := by
  have ⟨⟨free, used, ok, owned⟩, isolates, counted⟩ := before
  rw [freePagesNext]
  cases there : s.held pfn with
  | none => exact before
  | some order =>
    rw [← update_back (owned.held there)] at ok
    obtain ⟨mt, freed⟩ := freeOnePageLocked_ok valid ok (update_self ..)
      (meets order there) isolates sampled
    refine accounted_of_freed freed isolates counted rfl ?_
    exact (owned.give there).congr fun _ => congrFun freed.freepageType _

theorem accounted_freeHotCold (cpu pfn : Nat) (sampled : MigrateType) (cold : Bool)
    (meets : OpMeets cfg s (.freeHotCold cpu pfn sampled cold)) :
    Accounted cfg frames (freePagesNext cfg s (.freeHotCold cpu pfn sampled cold)) := by
  have ⟨⟨free, used, ok, owned⟩, isolates, counted⟩ := before
  rw [freePagesNext]
  by_cases there : s.held pfn = some 0
  · rw [if_pos there, freeHotColdPage]
    have ok1 : ZoneOk cfg frames False (setFreepageMigratetype s.zone pfn sampled) free used :=
      ok.retype rfl rfl rfl fun _ => Iff.rfl
    have counted1 : (setFreepageMigratetype s.zone pfn sampled).nrFreePages =
        unisolatedFreePages cfg (setFreepageMigratetype s.zone pfn sampled) := by
      rw [unisolatedFreePages_setFreepageMigratetype]
      exact counted
    have absent (c i : Nat) : pfn ∉ s.pcp c i := by
      intro mem
      rw [(owned.cached mem).2] at there
      cases there
    have others {c i q : Nat} (mem : q ∈ s.pcp c i) :
        (setFreepageMigratetype s.zone pfn sampled).freepageType q = s.zone.freepageType q := by
      have ne : q ≠ pfn := by
        rintro rfl
        exact absent c i mem
      exact update_of_ne ne ..
    by_cases isolate : sampled = .isolate
    · rw [if_pos isolate]
      dsimp only
      rw [update_eq_self]
      rw [← update_back (owned.held there)] at ok1
      obtain ⟨mt, freed⟩ := freeOnePageLocked_ok valid ok1 (update_self ..)
        (meets isolate) isolates sampled
      refine accounted_of_freed freed isolates counted1 rfl ?_
      exact (owned.give there).congr fun mem =>
        (congrFun freed.freepageType _).trans (others mem)
    rw [if_neg isolate]
    refine ⟨⟨free, used, ok1, ?_⟩, isolates, counted1⟩
    have released : Owned used { s with
        zone := setFreepageMigratetype s.zone pfn sampled
        held := update s.held pfn none } := (owned.release pfn).congr others
    refine released.add ?_ (nodup_singleton pfn) fun p mem => ?_
    · split
      · exact perm_append_singleton pfn _
      · exact List.Perm.refl _
    obtain rfl := mem_singleton.mp mem
    have set : (setFreepageMigratetype s.zone p sampled).freepageType p = sampled :=
      update_self ..
    exact ⟨owned.held there, update_self .., absent, set.trans_ne isolate⟩
  · rw [if_neg there]
    exact before

end

/-- What `rmqueue_bulk` does before it changes the counter. -/
structure BulkTaken (cfg : ZoneConfig) (frames : Nat → Prop) (z : Zone) (used : HeldMap)
    (taken : Zone × List Nat) : Prop where
  ok : ∃ free' used', ZoneOk cfg frames False taken.1 free' used' ∧
    (∀ q, q ∉ taken.2 → used' q = used q) ∧ ∀ q ∈ taken.2, used' q = some 0
  fresh (q : Nat) : q ∈ taken.2 → used q = none ∧ taken.1.freepageType q ≠ .isolate
  once : taken.2.Nodup
  others (q : Nat) : used q ≠ none → taken.1.freepageType q = z.freepageType q
  pages : unisolatedFreePages cfg taken.1 = unisolatedFreePages cfg z - taken.2.length
  nrFreePages : taken.1.nrFreePages = z.nrFreePages
  nrIsolatePageblock : taken.1.nrIsolatePageblock = z.nrIsolatePageblock
  types (b : Nat) : taken.1.pageblockType b = .isolate ↔ z.pageblockType b = .isolate

theorem rmqueueBulkLoop_ok (valid : FramesValid cfg frames) (type : mt ≠ .isolate) (count : Nat)
    {z : Zone} {used : HeldMap} (ok : ZoneOk cfg frames False z free used) :
    BulkTaken cfg frames z used (rmqueueBulkLoop cfg 0 mt count z) := by
  have nothing (z : Zone) (free : FreeMap) (used : HeldMap)
      (ok : ZoneOk cfg frames False z free used) : BulkTaken cfg frames z used (z, []) :=
    ⟨⟨free, used, ok, fun _ _ => rfl, by simp⟩, by simp, nodup_nil, fun _ _ => rfl,
      by simp, rfl, rfl, fun _ => Iff.rfl⟩
  induction count generalizing z free used with
  | zero => exact nothing z free used ok
  | succ count ih =>
    rw [rmqueueBulkLoop]
    cases res : rmqueue cfg z 0 mt with
    | none => exact nothing z free used ok
    | some r =>
      obtain ⟨page, z1⟩ := r
      have taken := rmqueue_taken valid ok (.inl type) res
      obtain ⟨free1, ok1⟩ := taken.ok
      have rest := ih ok1
      dsimp only
      generalize rmqueueBulkLoop cfg 0 mt count z1 = more at rest
      obtain ⟨free', used', ok', same, pages⟩ := rest.ok
      have absent : page ∉ more.2 := by
        intro mem
        have := (rest.fresh page mem).1
        rw [update_self] at this
        cases this
      have first : used' page = some 0 := by rw [same page absent, update_self]
      refine ⟨⟨free', used', ok', fun q out => ?_, fun q mem => ?_⟩, fun q mem => ?_, ?_,
        fun q inUse => ?_, ?_, rest.nrFreePages.trans taken.nrFreePages,
        rest.nrIsolatePageblock.trans taken.nrIsolatePageblock,
        fun b => (rest.types b).trans (taken.types b)⟩
      · rw [mem_cons, not_or] at out
        rw [same q out.2, update_of_ne out.1]
      · rcases mem_cons.mp mem with rfl | mem
        · exact first
        · exact pages q mem
      · rcases mem_cons.mp mem with rfl | later
        · refine ⟨taken.fresh, ?_⟩
          rw [rest.others q (by rw [update_self]; simp)]
          exact taken.freepageType
        have ne : q ≠ page := by
          rintro rfl
          exact absent later
        have := rest.fresh q later
        rwa [update_of_ne ne] at this
      · exact nodup_cons.mpr ⟨absent, rest.once⟩
      · have ne : q ≠ page := by
          rintro rfl
          exact inUse taken.fresh
        refine (rest.others q ?_).trans (taken.others q inUse)
        rwa [update_of_ne ne]
      · rw [rest.pages, taken.pages, length_cons]
        push_cast
        ring

theorem accounted_refill (valid : FramesValid cfg frames) (before : Accounted cfg frames s)
    (cpu count : Nat) (mt : MigrateType) (cold : Bool) :
    Accounted cfg frames (freePagesNext cfg s (.refill cpu count mt cold)) := by
  have ⟨⟨free, used, ok, owned⟩, isolates, counted⟩ := before
  rw [freePagesNext]
  split_ifs with pcpType
  · rw [rmqueueBulk]
    have type : mt ≠ .isolate := by
      rintro rfl
      cases pcpType
    have taken := rmqueueBulkLoop_ok valid type count ok
    generalize rmqueueBulkLoop cfg 0 mt count s.zone = r at taken
    obtain ⟨free', used', ok', same, new⟩ := taken.ok
    have kept {q : Nat} (inUse : used q ≠ none) : used' q = used q :=
      same q fun mem => inUse (taken.fresh q mem).1
    have owned' : Owned used' { s with zone := modZoneFreepageState r.1 (-r.2.length) } := by
      refine ⟨fun {p k} h => ?_, fun {c i p} mem => ?_, owned.once, owned.apart,
        fun {c i p} mem => ?_⟩
      · have there := owned.held h
        rw [kept (by rw [there]; simp), there]
      · rw [kept (owned.used_ne mem)]
        exact owned.cached mem
      · show r.1.freepageType p ≠ _
        rw [taken.others p (owned.used_ne mem)]
        exact owned.stored mem
    refine ⟨⟨free', used', ok'.retype rfl rfl rfl fun _ => Iff.rfl, ?_⟩, ?_, ?_⟩
    · refine owned'.add ?_ taken.once fun p mem => ?_
      · split
        · exact perm_append_comm.trans ((reverse_perm r.2).append_right _)
        · exact List.Perm.refl _
      obtain ⟨fresh, stored⟩ := taken.fresh p mem
      refine ⟨new p mem, ?_, fun c i mem' => owned.used_ne mem' fresh, stored⟩
      cases there : s.held p with
      | none => rfl
      | some k =>
        rw [owned.held there] at fresh
        cases fresh
    · exact isolates.congr taken.nrIsolatePageblock taken.types
    · rw [unisolatedFreePages_modZoneFreepageState, taken.pages, ← counted, ← taken.nrFreePages]
      rfl
  · exact before

/-- A page that `free_pcppages_bulk` takes is the last of a list. -/
theorem nextPcpPage_some {toFree page : Nat} {b b' : BulkState}
    (next : nextPcpPage toFree b = some (page, b')) : ∃ i, (b.lists i).getLast? = some page ∧
      b'.lists = update b.lists i (b.lists i).dropLast := by
  rw [nextPcpPage] at next
  split at next
  · cases next
  split at next
  · cases next
  rename_i current batchFree _ _ last
  obtain ⟨rfl, rfl⟩ := Prod.mk.inj (Option.some.inj next)
  exact ⟨_, last, rfl⟩

theorem accounted_bulkLoop (valid : FramesValid cfg frames) (cpu : Nat) (toFree : Nat)
    {s : FreePagesState} (before : Accounted cfg frames s) {b : BulkState}
    (lists : b.lists = s.pcp cpu)
    (meets : StepsMeet (drainPage cfg) (fun z page => FreeMeets cfg z page 0) s.zone
      (bulkPages toFree b)) {zone : Zone} {rest : PcpLists}
    (res : bulkLoop cfg toFree s.zone b = some (zone, rest)) :
    Accounted cfg frames { s with zone, pcp := update s.pcp cpu rest } := by
  induction toFree generalizing s b with
  | zero =>
    obtain ⟨rfl, rfl⟩ := Prod.mk.inj (Option.some.inj res)
    rw [lists, update_eq_self]
    exact before
  | succ toFree ih =>
    rw [bulkLoop] at res
    rw [bulkPages] at meets
    cases next : nextPcpPage (toFree + 1) b with
    | none =>
      rw [next] at res
      cases res
    | some r =>
      obtain ⟨page, b'⟩ := r
      rw [next] at res meets
      obtain ⟨i, last, fewer⟩ := nextPcpPage_some next
      rw [lists] at last fewer
      obtain ⟨⟨free, used, ok, owned⟩, isolates, counted⟩ := before
      have mem : page ∈ s.pcp cpu i := mem_of_getLast? last
      have list : s.pcp cpu i = (s.pcp cpu i).dropLast ++ [page] :=
        (dropLast_append_getLast? page last).symm
      rw [← update_back (owned.cached mem).1] at ok
      obtain ⟨mt, freed⟩ := drainPage_ok valid ok (update_self ..) meets.1 isolates
        (owned.stored mem)
      have once := owned.once cpu i
      rw [list, nodup_append] at once
      have dropped : Owned (update used page none) { s with pcp := update s.pcp cpu b'.lists } := by
        rw [fewer]
        refine owned.drop (fun j => ?_) (fun j mem' => ?_) ⟨i, mem⟩
        · by_cases same : j = i
          · rw [same, update_self]
            exact dropLast_sublist _
          · rw [update_of_ne same]
        by_cases same : j = i
        · rw [same, update_self] at mem'
          exact once.2.2 page mem' page (mem_singleton_self page) rfl
        · rw [update_of_ne same] at mem'
          exact same (owned.apart mem' mem).2
      have step : Accounted cfg frames { s with
          zone := drainPage cfg s.zone page
          pcp := update s.pcp cpu b'.lists } :=
        accounted_of_freed freed isolates counted rfl
          (dropped.congr fun _ => congrFun freed.freepageType _)
      have lists' : b'.lists = update s.pcp cpu b'.lists cpu := by
        rw [update_self]
      have rest' := ih step lists' meets.2 res
      rwa [update_idem] at rest'

/-- A change of type keeps the account. -/
theorem accounted_reclassed {zone : Zone} {used used' : HeldMap}
    (reclassed : Reclassed cfg frames s.zone free used' zone) (isolates : IsolatesCounted s.zone)
    (counted : s.zone.nrFreePages = unisolatedFreePages cfg s.zone)
    (notFree : ∀ q, used q ≠ none → free q = none) (owned : Owned used s)
    (owned' : Owned used' { s with held }) : Accounted cfg frames { s with zone, held } := by
  obtain ⟨free', ok⟩ := reclassed.ok
  refine ⟨⟨free', used', ok, ?_⟩, reclassed.isolates isolates, ?_⟩
  · exact owned'.congr fun mem => reclassed.freepageType _ (notFree _ (owned.used_ne mem))
  have balance := reclassed.balance
  dsimp only
  omega

/-- Every operation keeps the account. -/
theorem Accounted.next (valid : FramesValid cfg frames) (before : Accounted cfg frames s)
    (op : FreePagesOp) (meets : OpMeets cfg s op) :
    Accounted cfg frames (freePagesNext cfg s op) := by
  cases op with
  | rmqueue order mt => exact accounted_rmqueue valid before order mt
  | free pfn sampled => exact accounted_free valid before pfn sampled meets
  | freeHotCold cpu pfn sampled cold =>
    exact accounted_freeHotCold valid before cpu pfn sampled cold meets
  | refill cpu count mt cold => exact accounted_refill valid before cpu count mt cold
  | drain cpu count =>
    rw [freePagesNext]
    cases res : freePcppagesBulk cfg s.zone (s.pcp cpu) count with
    | none => exact before
    | some r =>
      exact accounted_bulkLoop valid cpu count before rfl meets res
  | isolate page =>
    obtain ⟨⟨free, used, ok, owned⟩, isolates, counted⟩ := before
    have reclassed := setMigratetypeIsolate_ok valid ok meets.2 meets.1
    exact accounted_reclassed reclassed isolates counted ok.toZoned.not_free owned owned
  | unisolate page mt =>
    have ⟨⟨free, used, ok, owned⟩, isolates, counted⟩ := before
    rw [freePagesNext]
    split_ifs with isolate
    · exact before
    obtain ⟨reclassed, fresh⟩ := unsetMigratetypeIsolate_ok valid ok meets isolate
    refine accounted_reclassed reclassed isolates counted ok.toZoned.not_free owned ?_
    cases back : (unsetMigratetypeIsolate cfg s.zone page mt).2 with
    | none => exact owned
    | some order => exact owned.take (fresh (by rw [back]; simp))

end Steps

theorem freePagesBelow_emptyZone (types : Nat → MigrateType) (n : Nat) :
    freePagesBelow (emptyZone types) n = 0 := by
  induction n with
  | zero => rfl
  | succ n ih =>
    rw [freePagesBelow, ih]
    simp [weighted, overTypes, emptyZone]

theorem accounted_start {cfg : ZoneConfig} {frames : Nat → Prop} {types : Nat → MigrateType}
    (blocks : Blocks cfg.maxOrder frames held) (calm : ∀ b, types b ≠ .isolate) :
    Accounted cfg frames (freePagesStart types held) := by
  obtain ⟨_, free, ok⟩ := calmZone_empty blocks calm
  refine ⟨⟨free, held, ⟨ok.toZoned, ok.classes, fun impossible => impossible.elim⟩, ?_⟩, ?_, ?_⟩
  · exact ⟨id, fun mem => absurd mem not_mem_nil, fun _ _ => nodup_nil,
      fun mem => absurd mem not_mem_nil, fun mem => absurd mem not_mem_nil⟩
  · exact ⟨∅, by simp [freePagesStart, emptyZone], fun b isolated => absurd isolated (calm b)⟩
  · exact (freePagesBelow_emptyZone types cfg.maxOrder).symm

/-- `NR_FREE_PAGES` is the number of pages in free blocks that are not on an isolate
list, in every state that is reached by steps which meet the condition. -/
theorem freePagesRun_counted (cfg : ZoneConfig) (frames : Nat → Prop) (held : HeldMap)
    (types : Nat → MigrateType) (valid : FramesValid cfg frames)
    (blocks : Blocks cfg.maxOrder frames held) (calm : ∀ b, types b ≠ .isolate)
    (ops : List FreePagesOp)
    (meets : StepsMeet (freePagesNext cfg) (OpMeets cfg) (freePagesStart types held) ops) :
    (runFrom (freePagesNext cfg) (freePagesStart types held) ops).zone.nrFreePages =
      unisolatedFreePages cfg (runFrom (freePagesNext cfg) (freePagesStart types held) ops).zone :=
  (runFrom_invariant (freePagesNext cfg) (fun _ op before meets => before.next valid op meets)
    ops _ (accounted_start blocks calm) meets).2.2

/-- The first pair is freed, isolated and put back, then both pairs are free. -/
def isolateAndBack : List FreePagesOp :=
  [.free 0 .movable, .isolate 0, .unisolate 0 .movable, .free 0 .movable, .free 2 .movable,
    .refill 0 1 .movable false, .drain 0 1]

theorem freePagesRun_counted_isolateAndBack :
    (runFrom (freePagesNext fourFrames) (freePagesStart (fun _ => .movable) twoPairs)
        isolateAndBack).zone.nrFreePages = unisolatedFreePages fourFrames
        (runFrom (freePagesNext fourFrames) (freePagesStart (fun _ => .movable) twoPairs)
          isolateAndBack).zone :=
  freePagesRun_counted fourFrames (· < 4) twoPairs (fun _ => .movable) fourFrames_valid
    twoPairs_blocks (fun _ => by decide) isolateAndBack (by decide)

/-- Two pageblocks of 512 pages and blocks of up to 1024 pages. -/
def twoPageblocks : ZoneConfig where
  maxOrder := 11
  pageblockOrder := 9
  zoneStartPfn := 0
  zoneEndPfn := 1024
  pfnValidWithin pfn := decide (pfn < 1024)
  pageZone _ := true
  noFallbackCma := false
  mobilityDisabled := false

/-- The second pageblock is freed while the first is free and isolated: the two are merged
on a movable list, and the pages of the first are not counted. -/
theorem freeOnePage_merges_isolated :
    let s := runFrom (freePagesNext twoPageblocks)
      (freePagesStart (fun _ => .movable) fun p => if p = 0 ∨ p = 512 then some 9 else none)
      [.free 0 .movable, .isolate 0, .free 512 .movable]
    s.zone.freeList 10 .movable = [0] ∧ getPageblockMigratetype twoPageblocks s.zone 0 = .isolate ∧
      s.zone.nrFreePages = 512 ∧ unisolatedFreePages twoPageblocks s.zone = 1024 := by
  decide

end Linux318.Guarantees
