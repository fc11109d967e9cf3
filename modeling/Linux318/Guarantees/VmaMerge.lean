import Linux318.Source.Mmap.VmaSplit
import Mathlib.Data.Nat.Bitwise

/-!
`vma_merge` of `mm/mmap.c`, judged by the page map. The vma it returns holds the range with the
file and the offsets asked for, and the pages outside keep what they are mapped with up to
`VM_SOFTDIRTY`. In case 8 the result is the vma of the range itself, grown over the next one:
its flags, name and policy are still the old ones, also for the pages of the next one, until
the caller sets them.
-/
namespace Linux318.Guarantees.VmaMerge
open List Lib Source.Mmap

variable {vma vma' : Vma} {page vmEnd : Nat} {vmas vmas' : List Vma} {r : MergeRequest}
  {res : Option Adjusted}

def offsetAt (vma : Vma) (page : Nat) : Nat := add64 vma.vmPgoff ((page - vma.vmStart) / pageSize)

theorem offsetAt_above {addr : Nat} (le : vma.vmStart ≤ addr) (le' : addr ≤ page)
    (aligned : pageSize ∣ vma.vmStart) (aligned' : pageSize ∣ addr) :
    add64 (offsetAt vma addr) ((page - addr) / pageSize) = offsetAt vma page := by
  rw [offsetAt, add64_assoc, pages_split le le' aligned aligned', offsetAt]

theorem sub64_add64 {a b : Nat} (lt : a < 2 ^ 64) (le : b ≤ 2 ^ 64) : sub64 (add64 a b) b = a := by
  simp only [sub64, add64]
  omega

theorem addPages_neg {x pages : Nat} (le : pages ≤ 2 ^ 64) : addPages x (-pages) = sub64 x pages := by
  rw [addPages, sub64]
  omega

structure Offers (vma : Vma) (r : MergeRequest) : Prop where
  flags : hardFlags vma.vmFlags = hardFlags r.vmFlags
  file : vma.vmFile = r.file
  name : vmaGetAnonName vma = r.anonName
  policy : vma.vmPolicy = r.policy

/-- The vma ends where the range starts, and the range continues it. -/
structure JoinsFront (vma : Vma) (r : MergeRequest) : Prop where
  ends : vma.vmEnd = r.addr
  offers : Offers vma r
  pgoff : offsetAt vma r.addr = r.pgoff

/-- The vma starts where the range ends, and continues it. -/
structure JoinsBack (vma : Vma) (r : MergeRequest) : Prop where
  starts : vma.vmStart = r.reqEnd
  offers : Offers vma r
  pgoff : vma.vmPgoff = add64 r.pgoff ((r.reqEnd - r.addr) / pageSize)

theorem isMergeableVma_spec (mergeable : isMergeableVma vma r.file r.vmFlags r.anonName = true) :
    hardFlags vma.vmFlags = hardFlags r.vmFlags ∧ vma.vmFile = r.file ∧
      vmaGetAnonName vma = r.anonName := by
  rw [isMergeableVma] at mergeable
  split at mergeable
  · simp at mergeable
  next flags =>
  split at mergeable
  · simp at mergeable
  next file =>
  split at mergeable
  · simp at mergeable
  split at mergeable
  · simp at mergeable
  next name =>
  rw [not_not] at flags file name
  refine ⟨?_, file, name⟩
  rw [Nat.and_xor_distrib_right] at flags
  exact Nat.eq_of_xor_eq_zero flags

theorem mergesAfter_spec {prev : Option Vma} (merges : mergesAfter prev r = some vma) :
    prev = some vma ∧ JoinsFront vma r := by
  obtain ⟨eq, test⟩ := Option.filter_eq_some_iff.mp merges
  simp only [canVmaMergeAfter, Bool.and_eq_true, decide_eq_true_eq] at test
  obtain ⟨⟨ends, policy⟩, ⟨mergeable, -⟩, pgoff⟩ := test
  obtain ⟨flags, file, name⟩ := isMergeableVma_spec mergeable
  refine ⟨eq, ends, ⟨flags, file, name, policy⟩, ?_⟩
  rw [← ends]
  exact pgoff

theorem mergesBefore_spec {next : Option Vma} (merges : mergesBefore next r = some vma) :
    next = some vma ∧ JoinsBack vma r := by
  obtain ⟨eq, test⟩ := Option.filter_eq_some_iff.mp merges
  simp only [canVmaMergeBefore, Bool.and_eq_true, decide_eq_true_eq] at test
  obtain ⟨⟨starts, policy⟩, ⟨mergeable, -⟩, pgoff⟩ := test
  obtain ⟨flags, file, name⟩ := isMergeableVma_spec mergeable
  exact ⟨eq, starts.symm, ⟨flags, file, name, policy.symm⟩, pgoff⟩

structure Kept (attr attr' : PageAttr) : Prop where
  file : attr'.file = attr.file
  pgoff : attr'.pgoff = attr.pgoff
  flags : hardFlags attr'.flags = hardFlags attr.flags
  name : attr'.anonName = attr.anonName
  policy : attr'.policy = attr.policy

theorem Kept.refl (attr : PageAttr) : Kept attr attr := ⟨rfl, rfl, rfl, rfl, rfl⟩

/-- The result is the vma that held exactly the range, which is case 8. -/
def IsArea (vmas : List Vma) (r : MergeRequest) (vma : Vma) : Prop :=
  ∃ area ∈ vmas, area.vmStart = r.addr ∧ area.vmEnd = r.reqEnd ∧ Alike area vma

/-- A page that had what the request asks for now has what the area has. -/
structure Joined (vmas : List Vma) (r : MergeRequest) (vma : Vma) (attr attr' : PageAttr) : Prop where
  area : IsArea vmas r vma
  file : attr'.file = attr.file
  pgoff : attr'.pgoff = attr.pgoff
  flags : hardFlags attr.flags = hardFlags r.vmFlags ∧ attr'.flags = vma.vmFlags
  name : attr.anonName = r.anonName ∧ attr'.anonName = vmaGetAnonName vma
  policy : attr.policy = r.policy ∧ attr'.policy = vma.vmPolicy

structure Preserves (vmas vmas' : List Vma) (r : MergeRequest) (vma : Vma) : Prop where
  contains : vma.vmStart ≤ r.addr ∧ r.reqEnd ≤ vma.vmEnd
  inside {page : Nat} {attr : PageAttr} : r.addr ≤ page → page < r.reqEnd →
    (Maps vmas' page attr ↔ attr = vma.attr page)
  requested {page : Nat} : r.addr ≤ page → page < r.reqEnd → (vma.attr page).file = r.file ∧
    (vma.attr page).pgoff = add64 r.pgoff ((page - r.addr) / pageSize) ∧
    ((vma.attr page).anonName = r.anonName ∨ IsArea vmas r vma)
  kept {page : Nat} {attr : PageAttr} : ¬(r.addr ≤ page ∧ page < r.reqEnd) → Maps vmas page attr →
    ∃ attr', Maps vmas' page attr' ∧ (Kept attr attr' ∨ Joined vmas r vma attr attr')
  fresh {page : Nat} {attr' : PageAttr} : ¬(r.addr ≤ page ∧ page < r.reqEnd) →
    Maps vmas' page attr' →
      ∃ attr, Maps vmas page attr ∧ (Kept attr attr' ∨ Joined vmas r vma attr attr')

theorem IsArea.mono (sub : ∀ v ∈ vmas, v ∈ vmas') (area : IsArea vmas r vma) :
    IsArea vmas' r vma := by
  obtain ⟨v, mem, rest⟩ := area
  exact ⟨v, sub v mem, rest⟩

theorem Joined.mono {attr attr' : PageAttr} (sub : ∀ v ∈ vmas, v ∈ vmas')
    (joined : Joined vmas r vma attr attr') : Joined vmas' r vma attr attr' :=
  ⟨joined.area.mono sub, joined.file, joined.pgoff, joined.flags, joined.name, joined.policy⟩

theorem maps_around {front news back : List Vma} {attr : PageAttr} :
    Maps (front ++ news ++ back) page attr ↔
      Maps front page attr ∨ Maps news page attr ∨ Maps back page attr := by
  rw [maps_append, maps_append, or_assoc]

/-- The areas around a merge do not matter. -/
theorem Preserves.frame {olds news : List Vma}
    (front back : List Vma) (before : ∀ a ∈ front, a.vmEnd ≤ r.addr)
    (behind : ∀ b ∈ back, r.reqEnd ≤ b.vmStart) (preserves : Preserves olds news r vma) :
    Preserves (front ++ olds ++ back) (front ++ news ++ back) r vma := by
  have sub : ∀ v ∈ olds, v ∈ front ++ olds ++ back := fun v mem =>
    mem_append_left _ (mem_append_right _ mem)
  refine ⟨preserves.contains, fun {page attr} low high => ?_, fun low high => ?_,
    fun out maps => ?_, fun out maps => ?_⟩
  · have noFront : ¬Maps front page attr := by
      rintro ⟨v, mem, covers, -⟩
      have := before v mem
      have := covers.2
      omega
    have noBack : ¬Maps back page attr := by
      rintro ⟨v, mem, covers, -⟩
      have := behind v mem
      have := covers.1
      omega
    rw [maps_around, preserves.inside low high]
    tauto
  · obtain ⟨file, pgoff, name⟩ := preserves.requested low high
    exact ⟨file, pgoff, name.imp_right (·.mono sub)⟩
  · rcases maps_around.mp maps with maps | maps | maps
    · exact ⟨_, maps_around.mpr (.inl maps), .inl (.refl _)⟩
    · obtain ⟨attr', maps, how⟩ := preserves.kept out maps
      exact ⟨attr', maps_around.mpr (.inr (.inl maps)), how.imp_right (·.mono sub)⟩
    · exact ⟨_, maps_around.mpr (.inr (.inr maps)), .inl (.refl _)⟩
  · rcases maps_around.mp maps with maps | maps | maps
    · exact ⟨_, maps_around.mpr (.inl maps), .inl (.refl _)⟩
    · obtain ⟨attr, maps, how⟩ := preserves.fresh out maps
      exact ⟨attr, maps_around.mpr (.inr (.inl maps)), how.imp_right (·.mono sub)⟩
    · exact ⟨_, maps_around.mpr (.inr (.inr maps)), .inl (.refl _)⟩

/-- What is to be shown of the vmas that change -/
theorem preserves_of {olds news : List Vma}
    (contains : vma.vmStart ≤ r.addr ∧ r.reqEnd ≤ vma.vmEnd) (mem : vma ∈ news)
    (only : ∀ n ∈ news, ∀ page, r.addr ≤ page → page < r.reqEnd → n.Covers page → n = vma)
    (file : vma.vmFile = r.file)
    (pgoff : ∀ page, r.addr ≤ page → offsetAt vma page = add64 r.pgoff ((page - r.addr) / pageSize))
    (name : vmaGetAnonName vma = r.anonName ∨ IsArea olds r vma)
    (covers : ∀ page, ¬(r.addr ≤ page ∧ page < r.reqEnd) →
      ((∃ o ∈ olds, o.Covers page) ↔ ∃ n ∈ news, n.Covers page))
    (keeps : ∀ page, ¬(r.addr ≤ page ∧ page < r.reqEnd) → ∀ o ∈ olds, ∀ n ∈ news, o.Covers page →
      n.Covers page →
        Kept (o.attr page) (n.attr page) ∨ Joined olds r vma (o.attr page) (n.attr page)) :
    Preserves olds news r vma := by
  refine ⟨contains, fun {page attr} low high => ⟨?_, ?_⟩,
    fun {page} low _ => ⟨file, pgoff page low, name⟩, ?_, ?_⟩
  · rintro ⟨n, inNews, covers, rfl⟩
    rw [only n inNews page low high covers]
  · rintro rfl
    exact ⟨vma, mem, ⟨by omega, by omega⟩, rfl⟩
  · rintro page attr out ⟨o, inOlds, coversOld, rfl⟩
    obtain ⟨n, inNews, coversNew⟩ := (covers page out).mp ⟨o, inOlds, coversOld⟩
    exact ⟨_, ⟨n, inNews, coversNew, rfl⟩, keeps page out o inOlds n inNews coversOld coversNew⟩
  · rintro page attr out ⟨n, inNews, coversNew, rfl⟩
    obtain ⟨o, inOlds, coversOld⟩ := (covers page out).mpr ⟨n, inNews, coversNew⟩
    exact ⟨_, ⟨o, inOlds, coversOld, rfl⟩, keeps page out o inOlds n inNews coversOld coversNew⟩

theorem exists_mem_pair {a b : Vma} {p : Vma → Prop} : (∃ v ∈ [a, b], p v) ↔ p a ∨ p b := by
  simp

theorem vmaGetAnonName_alike (alike : Alike vma vma') :
    vmaGetAnonName vma' = vmaGetAnonName vma := by
  rw [vmaGetAnonName, vmaGetAnonName, alike.file, alike.name]

theorem kept_alike (alike : Alike vma vma')
    (pgoff : offsetAt vma' page = offsetAt vma page) : Kept (vma.attr page) (vma'.attr page) :=
  ⟨alike.file, pgoff, congrArg hardFlags alike.flags, vmaGetAnonName_alike alike, alike.policy⟩

theorem kept_offers (offers : Offers vma r) (offers' : Offers vma' r)
    (pgoff : offsetAt vma' page = offsetAt vma page) : Kept (vma.attr page) (vma'.attr page) :=
  ⟨offers'.file.trans offers.file.symm, pgoff, offers'.flags.trans offers.flags.symm,
    offers'.name.trans offers.name.symm, offers'.policy.trans offers.policy.symm⟩

theorem Offers.alike (offers : Offers vma r) (alike : Alike vma vma') : Offers vma' r :=
  ⟨alike.flags ▸ offers.flags, alike.file.trans offers.file,
    (vmaGetAnonName_alike alike).trans offers.name, alike.policy.trans offers.policy⟩

theorem offsetAt_moved (moved : MovedTo vma vma' vma.vmStart vmEnd vma.vmPgoff) (page : Nat) :
    offsetAt vma' page = offsetAt vma page := by
  rw [offsetAt, moved.start, moved.pgoff, offsetAt]

/-- The range of a request is made of pages below the end of the address space. -/
structure RequestOk (r : MergeRequest) : Prop where
  lt : r.addr < r.reqEnd
  bound : r.reqEnd < 2 ^ 64
  alignedAddr : pageSize ∣ r.addr
  alignedEnd : pageSize ∣ r.reqEnd
  pgoff : r.pgoff < 2 ^ 64

section Cases

variable {r : MergeRequest} {prev prev' area area' next : Vma}

/-- The offsets behind the range, counted from the request -/
theorem offsetAt_next (ok : RequestOk r) (joins : JoinsBack next r) (le : r.reqEnd ≤ page) :
    offsetAt next page = add64 r.pgoff ((page - r.addr) / pageSize) := by
  rw [offsetAt, joins.starts, joins.pgoff, add64_assoc,
    pages_split ok.lt.le le ok.alignedAddr ok.alignedEnd]

/-- Cases 1, 2, 6 and 7: the vma in front grows over the range, over the vmas in it and over
the vma behind it where that joins. -/
theorem preserves_grow (mids : List Vma) (joins : Option Vma) (ok : RequestOk r)
    (aligned : pageSize ∣ prev.vmStart) (proper : prev.vmStart < prev.vmEnd)
    (joinsFront : JoinsFront prev r) (mid : ∀ v ∈ mids, r.addr ≤ v.vmStart ∧ v.vmEnd ≤ r.reqEnd)
    (join : ∀ next ∈ joins, next.vmStart < next.vmEnd ∧ JoinsBack next r)
    (upTo : vmEnd = (joins.map Vma.vmEnd).getD r.reqEnd)
    (moved : MovedTo prev prev' prev.vmStart vmEnd prev.vmPgoff) :
    Preserves (prev :: mids ++ joins.toList) [prev'] r prev' := by
  have lt := ok.lt
  have ends := joinsFront.ends
  have start := moved.start
  have newEnd := moved.ends
  have offers' := joinsFront.offers.alike moved.alike
  have offsets : ∀ page, r.addr ≤ page →
      offsetAt prev' page = add64 r.pgoff ((page - r.addr) / pageSize) := by
    intro page le
    rw [offsetAt_moved moved, ← joinsFront.pgoff,
      offsetAt_above (by omega) le aligned ok.alignedAddr]
  have endLe : r.reqEnd ≤ vmEnd := by
    cases joins with
    | none => exact upTo.ge
    | some next =>
      have ⟨_, _, _, _⟩ := join next rfl
      simp only [Option.map_some, Option.getD_some] at upTo
      omega
  refine preserves_of ⟨by omega, by omega⟩ (mem_singleton_self _)
    (fun n mem _ _ _ _ => mem_singleton.mp mem) offers'.file offsets
    (.inl offers'.name) (fun page out => ⟨?_, ?_⟩) ?_
  · rintro ⟨o, mem, low, high⟩
    refine ⟨prev', mem_singleton_self _, ?_⟩
    rcases mem_append.mp mem with mem | mem
    · rcases mem_cons.mp mem with rfl | mem
      · exact ⟨by omega, by omega⟩
      · have := mid o mem
        omega
    · obtain ⟨-, starts, -⟩ := join o (Option.mem_toList.mp mem)
      rw [Option.mem_def.mp (Option.mem_toList.mp mem), Option.map_some, Option.getD_some] at upTo
      exact ⟨by omega, by omega⟩
  · rintro ⟨n, mem, low, high⟩
    obtain rfl := mem_singleton.mp mem
    by_cases before : page < r.addr
    · exact ⟨prev, by simp, by omega, by omega⟩
    cases joins with
    | none =>
      rw [Option.map_none, Option.getD_none] at upTo
      omega
    | some next =>
      obtain ⟨-, starts, -⟩ := join next rfl
      rw [Option.map_some, Option.getD_some] at upTo
      exact ⟨next, by simp, by omega, by omega⟩
  · intro page out o mem n inNew covers _
    obtain rfl := mem_singleton.mp inNew
    have low := covers.1
    have high := covers.2
    refine .inl ?_
    rcases mem_append.mp mem with mem | mem
    · rcases mem_cons.mp mem with rfl | mem
      · exact kept_alike moved.alike (offsetAt_moved moved page)
      · have := mid o mem
        omega
    · obtain ⟨-, joined⟩ := join o (Option.mem_toList.mp mem)
      have starts := joined.starts
      refine kept_offers joined.offers offers' ?_
      rw [offsets page (by omega), offsetAt_next ok joined (by omega)]

/-- The border of two vmas moves from one end of the range to the other. -/
theorem preserves_pair {cut pgoff : Nat} (ok : RequestOk r) (low : prev.vmStart ≤ r.addr)
    (high : r.reqEnd ≤ area.vmEnd) (meet : prev.vmEnd = area.vmStart)
    (taken : vma = prev' ∧ cut = r.reqEnd ∧ area.vmStart = r.addr ∨
      vma = area' ∧ cut = r.addr ∧ area.vmStart = r.reqEnd) (offers : Offers vma r)
    (offsets : ∀ page, r.addr ≤ page → offsetAt vma page = add64 r.pgoff ((page - r.addr) / pageSize))
    (moved : MovedTo prev prev' prev.vmStart cut prev.vmPgoff)
    (movedArea : MovedTo area area' cut area.vmEnd pgoff)
    (keeps : ∀ page, r.reqEnd ≤ page → offsetAt area' page = offsetAt area page) :
    Preserves [prev, area] [prev', area'] r vma := by
  have lt := ok.lt
  have start := moved.start
  have newEnd := moved.ends
  have startArea := movedArea.start
  have endArea := movedArea.ends
  refine preserves_of ?_ ?_ ?_ offers.file offsets (.inl offers.name) ?_ ?_
  · rcases taken with ⟨rfl, _⟩ | ⟨rfl, _⟩ <;> omega
  · rcases taken with ⟨rfl, _⟩ | ⟨rfl, _⟩ <;> simp
  · intro n mem page _ _ covers
    have := covers.1
    have := covers.2
    rcases taken with ⟨rfl, _⟩ | ⟨rfl, _⟩ <;> rcases mem_pair.mp mem with rfl | rfl <;>
      first | rfl | omega
  · simp only [exists_mem_pair, Vma.Covers]
    omega
  intro page out o mem n inNew covers coversNew
  have := covers.1
  have := covers.2
  have := coversNew.1
  have := coversNew.2
  rcases mem_pair.mp mem with rfl | rfl <;> rcases mem_pair.mp inNew with rfl | rfl
  · exact .inl (kept_alike moved.alike (offsetAt_moved moved page))
  · omega
  · omega
  · exact .inl (kept_alike movedArea.alike (keeps page (by omega)))

/-- Case 5: the vma in front grows over the head of the next one. -/
theorem preserves_into (ok : RequestOk r) (aligned : pageSize ∣ prev.vmStart)
    (proper : prev.vmStart < prev.vmEnd) (joins : JoinsFront prev r) (starts : area.vmStart = r.addr)
    (high : r.reqEnd < area.vmEnd) (moved : MovedTo prev prev' prev.vmStart r.reqEnd prev.vmPgoff)
    (movedArea : MovedTo area area' r.reqEnd area.vmEnd (offsetAt area r.reqEnd)) :
    Preserves [prev, area] [prev', area'] r prev' := by
  have lt := ok.lt
  have ends := joins.ends
  refine preserves_pair ok (by omega) (by omega) (by omega) (.inl ⟨rfl, rfl, starts⟩)
    (joins.offers.alike moved.alike) (fun page le => ?_) moved movedArea fun page le => ?_
  · rw [offsetAt_moved moved, ← joins.pgoff, offsetAt_above (by omega) le aligned ok.alignedAddr]
  · rw [offsetAt, movedArea.pgoff, movedArea.start]
    exact offsetAt_above (by omega) le (starts ▸ ok.alignedAddr) ok.alignedEnd

/-- The offsets of a vma that starts with the range -/
theorem offsetAt_front (starts : area'.vmStart = r.addr) (pgoff : area'.vmPgoff = r.pgoff)
    (page : Nat) : offsetAt area' page = add64 r.pgoff ((page - r.addr) / pageSize) := by
  rw [offsetAt, starts, pgoff]

section
variable (ok : RequestOk r) (proper : area.vmStart < area.vmEnd) (joins : JoinsBack area r)
include ok proper joins

/-- Case 3: the vma behind the range grows over it. -/
theorem preserves_front (moved : MovedTo area area' r.addr area.vmEnd r.pgoff) :
    Preserves [area] [area'] r area' := by
  have lt := ok.lt
  have starts := joins.starts
  have start := moved.start
  have newEnd := moved.ends
  have offers' := joins.offers.alike moved.alike
  have offsets := offsetAt_front start moved.pgoff
  have keeps {page : Nat} (le : r.reqEnd ≤ page) : Kept (area.attr page) (area'.attr page) := by
    refine kept_alike moved.alike ?_
    rw [offsets page, offsetAt_next ok joins le]
  refine preserves_of ⟨by omega, by omega⟩ (mem_singleton_self _)
    (fun n mem _ _ _ _ => mem_singleton.mp mem) offers'.file (fun page _ => offsets page)
    (.inl offers'.name) ?_ ?_
  · simp only [mem_singleton, exists_eq_left, Vma.Covers]
    omega
  · intro page out o mem n inNew covers _
    obtain rfl := mem_singleton.mp mem
    obtain rfl := mem_singleton.mp inNew
    have low := covers.1
    exact .inl (keeps (by omega))

/-- Case 4: the tail of the vma in front goes over to the next one. -/
theorem preserves_back (low : prev.vmStart ≤ r.addr) (ends : prev.vmEnd = r.reqEnd)
    (moved : MovedTo prev prev' prev.vmStart r.addr prev.vmPgoff)
    (movedArea : MovedTo area area' r.addr area.vmEnd r.pgoff) :
    Preserves [prev, area] [prev', area'] r area' := by
  have offsets := offsetAt_front movedArea.start movedArea.pgoff
  have starts := joins.starts
  refine preserves_pair ok low (by omega) (by omega) (.inr ⟨rfl, rfl, starts⟩)
    (joins.offers.alike movedArea.alike) (fun page _ => offsets page) moved movedArea
    fun page le => ?_
  rw [offsets page, offsetAt_next ok joins le]

end

/-- Case 8: the vma of the range grows over the next one and keeps its own attributes. -/
theorem preserves_area (ok : RequestOk r) (startsArea : area.vmStart = r.addr)
    (endsArea : area.vmEnd = r.reqEnd) (file : area.vmFile = r.file)
    (proper : next.vmStart < next.vmEnd) (joins : JoinsBack next r)
    (moved : MovedTo area area' r.addr next.vmEnd r.pgoff) :
    Preserves [area, next] [area'] r area' := by
  have lt := ok.lt
  have starts := joins.starts
  have offers := joins.offers
  have start := moved.start
  have newEnd := moved.ends
  have offsets := offsetAt_front start moved.pgoff
  have isArea : IsArea [area, next] r area' :=
    ⟨area, mem_cons_self, startsArea, endsArea, moved.alike⟩
  have file' : area'.vmFile = r.file := moved.alike.file.trans file
  have joined {page : Nat} (le : r.reqEnd ≤ page) :
      Joined [area, next] r area' (next.attr page) (area'.attr page) := by
    refine ⟨isArea, file'.trans offers.file.symm, ?_, ⟨offers.flags, rfl⟩, ⟨offers.name, rfl⟩,
      offers.policy, rfl⟩
    change offsetAt area' page = offsetAt next page
    rw [offsets page, offsetAt_next ok joins le]
  refine preserves_of ⟨by omega, by omega⟩ (mem_singleton_self _)
    (fun n mem _ _ _ _ => mem_singleton.mp mem) file' (fun page _ => offsets page)
    (.inr isArea) ?_ ?_
  · simp only [exists_mem_pair, mem_singleton, exists_eq_left, Vma.Covers]
    omega
  intro page out o mem n inNew covers _
  obtain rfl := mem_singleton.mp inNew
  have low := covers.1
  have high := covers.2
  rcases mem_pair.mp mem with rfl | rfl
  · omega
  · exact .inr (joined (by omega))

end Cases

/-- Where the range may lie: it is free and follows `prev`, or it is part of `prev`, or it is the
head of the next vma. -/
inductive Placed (prev : Option Vma) (back : List Vma) (r : MergeRequest) : Prop where
  | unmapped (before : ∀ p ∈ prev, p.vmEnd ≤ r.addr)
      (behind : ∀ n ∈ back.head?, r.reqEnd ≤ n.vmStart)
  | inPrev {p : Vma} (eq : prev = some p) (low : p.vmStart ≤ r.addr) (high : r.reqEnd ≤ p.vmEnd)
  | inNext {n : Vma} (eq : back.head? = some n) (before : ∀ p ∈ prev, p.vmEnd ≤ r.addr)
      (starts : n.vmStart = r.addr) (high : r.reqEnd ≤ n.vmEnd) (file : n.vmFile = r.file)

/-- A call that returns, with a vma that preserves the page map unless it is NULL -/
def Settles (result : Option Merged) (vmas : List Vma) (r : MergeRequest) : Prop :=
  ∃ merged, result = some merged ∧ ∀ i, merged.vma = some i →
    ∃ vma, merged.vmas[i]? = some vma ∧ Preserves vmas merged.vmas r vma

theorem settles_null (vmas : List Vma) (r : MergeRequest) : Settles (some ⟨none, vmas⟩) vmas r :=
  ⟨_, rfl, fun _ some => by simp at some⟩

theorem settles_of {adjusted : Adjusted} {place : Nat} (ends : adjusted.err = 0 →
      ∃ vma, adjusted.vmas[place]? = some vma ∧ Preserves vmas adjusted.vmas r vma) :
    Settles (some (adjusted.merged place)) vmas r := by
  refine ⟨_, rfl, fun i at_ => ?_⟩
  by_cases fails : adjusted.err ≠ 0
  · simp [Adjusted.merged, fails] at at_
  have shape : adjusted.merged place = ⟨some place, adjusted.vmas⟩ := if_neg fails
  rw [shape] at at_ ⊢
  obtain rfl := Option.some.inj at_
  exact ends (by omega)

theorem settles_of_moves {front back : List Vma} {start pgoff : Nat}
    (moves : Moves res front vma start vmEnd pgoff back)
    (preserves : ∀ vma', MovedTo vma vma' start vmEnd pgoff →
      Preserves vmas (front ++ [vma'] ++ back) r vma') :
    Settles (res.map (·.merged front.length)) vmas r := by
  obtain ⟨adjusted, rfl, ends⟩ := moves
  refine settles_of fun fine => ?_
  obtain ⟨vma', moved, list⟩ := ends fine
  have := preserves vma' moved
  rw [append_assoc, singleton_append, ← list] at this
  exact ⟨vma', by simp [list], this⟩

theorem settles_of_movesBoth {front rest : List Vma} {next : Vma} {start pgoff : Nat}
    {adjustNext : Int} (second : Bool)
    (moves : MovesBoth res front vma next start vmEnd pgoff adjustNext rest)
    (preserves : ∀ vma' next', MovedTo vma vma' start vmEnd pgoff →
      MovedTo next next' (addPages next.vmStart (adjustNext * pageSize)) next.vmEnd
      (addPages next.vmPgoff adjustNext) → Preserves vmas (front ++ [vma', next'] ++ rest) r
      (if second then next' else vma')) :
    Settles (res.map (·.merged (front.length + second.toNat))) vmas r := by
  obtain ⟨adjusted, rfl, ends⟩ := moves
  refine settles_of fun fine => ?_
  obtain ⟨vma', next', moved, movedNext, list⟩ := ends fine
  have := preserves vma' next' moved movedNext
  rw [append_assoc] at this
  exact ⟨_, by cases second <;> simp [list], list ▸ this⟩

/-- If an area ends with the request, next is behind it. -/
theorem mergeNext_spec {back : List Vma} {next : Vma} (eq : mergeNext back r = some next) :
    (∃ rest, back = next :: rest) ∨ ∃ area rest, back = area :: next :: rest ∧
      area.vmEnd = r.reqEnd := by
  cases back with
  | nil => simp [mergeNext] at eq
  | cons area rest =>
    rw [mergeNext] at eq
    split at eq
    · next ends =>
      cases rest with
      | nil => simp at eq
      | cons x rest => exact .inr ⟨area, rest, by simpa using eq, ends⟩
    · exact .inl ⟨rest, by simpa using eq⟩

section Merge

variable {front back : List Vma} {r : MergeRequest}

section After

variable {p : Vma} (req : RequestOk r) (joinsFront : JoinsFront p r)
include req joinsFront

/-- Cases 1, 2, 6 and 7: the vma in front grows over the vmas `mids` and over the one that joins. -/
theorem settles_grow (mids : List Vma) (joins : Option Vma) {rest : List Vma}
    {res : Option Adjusted} (ok : VmasOk (front ++ p :: (mids ++ joins.toList ++ rest)))
    (mid : ∀ v ∈ mids, r.addr ≤ v.vmStart ∧ v.vmEnd ≤ r.reqEnd)
    (join : ∀ next ∈ joins, JoinsBack next r) (behind : ∀ b ∈ rest, r.reqEnd ≤ b.vmStart)
    (moves : Moves res front p p.vmStart ((joins.map Vma.vmEnd).getD r.reqEnd) p.vmPgoff rest) :
    Settles (res.map (·.merged front.length)) (front ++ p :: (mids ++ joins.toList ++ rest)) r := by
  obtain ⟨⟨proper, -⟩, aligned, -⟩ := ok.here
  refine settles_of_moves moves fun vma' moved => ?_
  have small := preserves_grow mids joins req aligned proper joinsFront mid
    (fun next mem => ⟨(ok.proper (by simp [Option.mem_def.mp mem])).1, join next mem⟩) rfl moved
  have whole := small.frame front rest (fun a mem => by
    have := ok.around.1 a mem
    have := joinsFront.ends
    omega) behind
  simpa using whole

/-- Cases 1 and 6: the vma behind the range joins too. -/
theorem merge_after_join {next : Vma} (clone : Nat → Nat) (ok : VmasOk (front ++ p :: back))
    (placed : Placed (some p) back r) (isNext : mergeNext back r = some next)
    (joined : JoinsBack next r) :
    Settles ((vmaAdjust clone front p back p.vmStart next.vmEnd p.vmPgoff none).map
      (·.merged front.length)) (front ++ p :: back) r := by
  have lt := req.lt
  have ends := joinsFront.ends
  have starts := joined.starts
  have join : ∀ n ∈ some next, JoinsBack n r := by simpa using joined
  have properBack (b : Vma) (mem : b ∈ back) : b.vmStart < b.vmEnd :=
    (ok.proper (mem_append_right _ (mem_cons_of_mem _ mem))).1
  have sortedBack := (pairwise_cons.mp (pairwise_append.mp ok.sorted).2.1).2
  rcases mergeNext_spec isNext with ⟨rest, rfl⟩ | ⟨area, rest, rfl, endsArea⟩
  · have properNext := properBack next mem_cons_self
    refine settles_grow req joinsFront [] (some next) ok (by simp) join (fun b mem => ?_)
      (vmaAdjust_over clone rfl)
    have := (pairwise_cons.mp sortedBack).1 b mem
    omega
  have properNext := properBack next (by simp)
  have inNext : area.vmStart = r.addr := by
    cases placed with
    | unmapped _ after =>
      have := after area rfl
      have := properBack area mem_cons_self
      omega
    | inPrev eq _ high =>
      obtain rfl := Option.some.inj eq
      omega
    | inNext eq _ startsArea _ _ =>
      obtain rfl := Option.some.inj eq
      exact startsArea
  refine settles_grow req joinsFront [area] (some next) ok
    (forall_mem_singleton.mpr ⟨by omega, by omega⟩) join (fun b mem => ?_)
    (vmaAdjust_overTwo clone (by omega) rfl)
  have := (pairwise_cons.mp (pairwise_cons.mp sortedBack).2).1 b mem
  omega

/-- Case 5: the boundary to the vma of the range moves up. -/
theorem merge_after_into {area : Vma} {rest : List Vma} (clone : Nat → Nat)
    (ok : VmasOk (front ++ p :: area :: rest)) (startsArea : area.vmStart = r.addr)
    (lower : r.reqEnd < area.vmEnd) :
    Settles ((vmaAdjust clone front p (area :: rest) p.vmStart r.reqEnd p.vmPgoff none).map
      (·.merged front.length)) (front ++ p :: area :: rest) r := by
  obtain ⟨⟨proper, -⟩, aligned, -⟩ := ok.here
  have lt := req.lt
  have moves : MovesBoth (vmaAdjust clone front p (area :: rest) p.vmStart r.reqEnd p.vmPgoff
      none) front p area p.vmStart r.reqEnd p.vmPgoff
      ((r.reqEnd - area.vmStart) / pageSize : Nat) rest :=
    vmaAdjust_into clone (by omega) lower
  refine settles_of_movesBoth false moves fun vma' next' moved movedNext => ?_
  have startNext : addPages area.vmStart
      (((r.reqEnd - area.vmStart) / pageSize : Nat) * (pageSize : Int)) = r.reqEnd := by
    have dvdEnd := req.alignedEnd
    have dvdAddr := req.alignedAddr
    have bound := req.bound
    rw [addPages, pageSize] at *
    omega
  rw [startNext] at movedNext
  have small := preserves_into req aligned proper joinsFront startsArea lower moved movedNext
  have whole := small.frame front rest (fun a mem => by
    have := ok.around.1 a mem
    have := joinsFront.ends
    omega) fun b mem => by
      have := (pairwise_cons.mp (pairwise_cons.mp (pairwise_append.mp ok.sorted).2.1).2).1 b mem
      omega
  simpa using whole

/-- The first branch of `vma_merge` -/
theorem merge_after {joins : Option Vma} (clone : Nat → Nat) (ok : VmasOk (front ++ p :: back))
    (placed : Placed (some p) back r)
    (join : ∀ next ∈ joins, mergeNext back r = some next ∧ JoinsBack next r) :
    Settles ((vmaAdjust clone front p back p.vmStart ((joins.map Vma.vmEnd).getD r.reqEnd)
      p.vmPgoff none).map (·.merged front.length)) (front ++ p :: back) r := by
  have lt := req.lt
  have ends := joinsFront.ends
  have properBack (b : Vma) (mem : b ∈ back) : b.vmStart < b.vmEnd :=
    (ok.proper (mem_append_right _ (mem_cons_of_mem _ mem))).1
  have sortedBack := (pairwise_cons.mp (pairwise_append.mp ok.sorted).2.1).2
  cases joins with
  | some next =>
    obtain ⟨isNext, joined⟩ := join next rfl
    exact merge_after_join req joinsFront clone ok placed isNext joined
  | none =>
    cases placed with
    | unmapped _ after =>
      -- case 2
      have clear : ∀ b ∈ back, r.reqEnd ≤ b.vmStart ∧ b.vmStart < b.vmEnd := by
        intro b mem
        refine ⟨?_, properBack b mem⟩
        cases back with
        | nil => simp at mem
        | cons area rest =>
          have le := after area rfl
          rcases mem_cons.mp mem with rfl | mem
          · exact le
          have := (pairwise_cons.mp sortedBack).1 b mem
          have := properBack area mem_cons_self
          omega
      exact settles_grow req joinsFront [] none ok (by simp) (by simp) (fun b mem => (clear b mem).1)
        (vmaAdjust_plain clone (show p.vmEnd ≤ r.reqEnd by omega) clear)
    | inPrev eq _ high =>
      obtain rfl := Option.some.inj eq
      omega
    | @inNext area eq _ startsArea high file =>
      obtain ⟨rest, rfl⟩ := List.head?_eq_some_iff.mp eq
      rcases high.eq_or_lt with same | lower
      · -- case 7
        refine settles_grow req joinsFront [area] none ok
          (forall_mem_singleton.mpr ⟨by omega, by omega⟩) (by simp) (fun b mem => ?_)
          (vmaAdjust_over clone same)
        have := (pairwise_cons.mp sortedBack).1 b mem
        omega
      · exact merge_after_into req joinsFront clone ok startsArea lower

end After

/-- Case 4 -/
theorem merge_back {p next : Vma} (clone : Nat → Nat) (ok : VmasOk (front ++ p :: back))
    (req : RequestOk r) (placed : Placed (some p) back r) (inside : r.addr < p.vmEnd)
    (isNext : mergeNext back r = some next) (joins : JoinsBack next r) :
    Settles ((vmaAdjust clone front p back p.vmStart r.addr p.vmPgoff none).map
      (·.merged (front.length + 1))) (front ++ p :: back) r := by
  obtain ⟨before, behind⟩ := ok.around
  have properBack (b : Vma) (mem : b ∈ back) : b.vmStart < b.vmEnd :=
    (ok.proper (mem_append_right _ (mem_cons_of_mem _ mem))).1
  obtain ⟨low, high⟩ : p.vmStart ≤ r.addr ∧ r.reqEnd ≤ p.vmEnd := by
    cases placed with
    | unmapped ahead _ =>
      have := ahead p rfl
      omega
    | inPrev eq low high =>
      obtain rfl := Option.some.inj eq
      exact ⟨low, high⟩
    | inNext _ ahead _ _ _ =>
      have := ahead p rfl
      omega
  obtain ⟨rest, rfl⟩ : ∃ rest, back = next :: rest := by
    rcases mergeNext_spec isNext with here | ⟨area, rest, rfl, endsArea⟩
    · exact here
    have := behind area mem_cons_self
    have := properBack area mem_cons_self
    omega
  have sorted := behind next mem_cons_self
  have starts := joins.starts
  have proper := properBack next mem_cons_self
  have ends : p.vmEnd = r.reqEnd := by omega
  have moves : MovesBoth (vmaAdjust clone front p (next :: rest) p.vmStart r.addr p.vmPgoff none)
      front p next p.vmStart r.addr p.vmPgoff (-((p.vmEnd - r.addr) / pageSize : Nat)) rest :=
    vmaAdjust_back clone inside sorted proper
  refine settles_of_movesBoth true moves fun vma' next' moved movedNext => ?_
  have small : (r.reqEnd - r.addr) / pageSize ≤ 2 ^ 64 := by
    have := req.bound
    rw [pageSize]
    omega
  have startNext : addPages next.vmStart
      (-((p.vmEnd - r.addr) / pageSize : Nat) * (pageSize : Int)) = r.addr := by
    have dvdEnd := req.alignedEnd
    have dvdAddr := req.alignedAddr
    have bound := req.bound
    rw [addPages, pageSize] at *
    omega
  rw [startNext, ends, addPages_neg small, joins.pgoff, sub64_add64 req.pgoff small] at movedNext
  have whole := (preserves_back req proper joins low ends moved movedNext).frame
    front rest (fun a mem => (before a mem).trans low) fun b mem => by
      have sortedBack := (pairwise_cons.mp (pairwise_append.mp ok.sorted).2.1).2
      have := (pairwise_cons.mp sortedBack).1 b mem
      omega
  simpa using whole

/-- Cases 3 and 8 -/
theorem merge_front {pre rest : List Vma} {prev : Option Vma} {area next : Vma} (clone : Nat → Nat)
    (ok : VmasOk (pre ++ area :: rest)) (before : ∀ a ∈ pre, a.vmEnd ≤ r.addr) (req : RequestOk r)
    (placed : Placed prev (area :: rest) r) (ahead : ∀ p ∈ prev, p.vmEnd ≤ r.addr)
    (isNext : mergeNext (area :: rest) r = some next) (joins : JoinsBack next r) :
    Settles ((vmaAdjust clone pre area rest r.addr next.vmEnd
      (sub64 next.vmPgoff ((r.reqEnd - r.addr) / pageSize)) none).map (·.merged pre.length))
      (pre ++ area :: rest) r := by
  have lt := req.lt
  have starts := joins.starts
  have properAll (b : Vma) (mem : b ∈ area :: rest) : b.vmStart < b.vmEnd :=
    (ok.proper (mem_append_right _ mem)).1
  have properArea := properAll area mem_cons_self
  have behind := ok.around.2
  have small : (r.reqEnd - r.addr) / pageSize ≤ 2 ^ 64 := by
    have := req.bound
    rw [pageSize]
    omega
  rw [joins.pgoff, sub64_add64 req.pgoff small]
  rcases mergeNext_spec isNext with ⟨rest', eq⟩ | ⟨area', rest', eq, ends⟩
  · -- case 3
    obtain ⟨rfl, rfl⟩ := List.cons.inj eq
    have clear : ∀ b ∈ rest, area.vmEnd ≤ b.vmStart ∧ b.vmStart < b.vmEnd := fun b mem =>
      ⟨behind b mem, properAll b (mem_cons_of_mem _ mem)⟩
    refine settles_of_moves (vmaAdjust_plain clone le_rfl clear) fun vma' moved => ?_
    have whole := (preserves_front req properArea joins moved).frame pre rest before fun b mem => by
        have := behind b mem
        omega
    simpa using whole
  -- case 8
  obtain ⟨rfl, rfl⟩ := List.cons.inj eq
  obtain ⟨startsArea, file⟩ : area.vmStart = r.addr ∧ area.vmFile = r.file := by
    cases placed with
    | unmapped _ after =>
      have := after area rfl
      omega
    | inPrev eq _ high =>
      have := ahead _ eq
      omega
    | inNext eq _ startsArea _ file =>
      obtain rfl := Option.some.inj eq
      exact ⟨startsArea, file⟩
  refine settles_of_moves (vmaAdjust_over clone rfl) fun vma' moved => ?_
  have properNext := properAll next (by simp)
  have whole := (preserves_area req startsArea ends file properNext joins moved).frame pre rest'
    before fun b mem => by
      have sorted := (pairwise_cons.mp (pairwise_append.mp ok.sorted).2.1).2
      have := (pairwise_cons.mp sorted).1 b mem
      omega
  simpa using whole

/-- `vma_merge` for every address space and every request placed as its callers do. -/
theorem vmaMerge_preserves {prev : Option Vma} (clone : Nat → Nat)
    (ok : VmasOk (front ++ prev.toList ++ back)) (first : prev = none → front = [])
    (req : RequestOk r) (placed : Placed prev back r) :
    Settles (vmaMerge clone front prev back r) (front ++ prev.toList ++ back) r := by
  rw [vmaMerge]
  split_ifs with special
  · exact settles_null _ _
  cases after : mergesAfter prev r with
  | some p =>
    obtain ⟨rfl, joinsFront⟩ := mergesAfter_spec after
    have list : front ++ (some p).toList ++ back = front ++ p :: back := by simp
    rw [list] at ok ⊢
    dsimp only
    generalize isJoins : (mergesBefore (mergeNext back r) r).filter
      (fun next => isMergeableAnonVma p.anonVma next.anonVma none) = joins
    have join : ∀ next ∈ joins, mergeNext back r = some next ∧ JoinsBack next r := by
      intro next eq
      rw [Option.mem_def.mp eq] at isJoins
      exact mergesBefore_spec (Option.filter_eq_some_iff.mp isJoins).1
    have settles := merge_after req joinsFront clone ok placed join
    cases joins <;> exact settles
  | none =>
    cases next : mergesBefore (mergeNext back r) r with
    | none => exact settles_null _ _
    | some next =>
      obtain ⟨isNext, joins⟩ := mergesBefore_spec next
      cases inside : prev.filter (fun prev => decide (r.addr < prev.vmEnd)) with
      | some p =>
        obtain ⟨rfl, lt⟩ := Option.filter_eq_some_iff.mp inside
        have list : front ++ (some p).toList ++ back = front ++ p :: back := by simp
        rw [list] at ok ⊢
        exact merge_back clone ok req placed (of_decide_eq_true lt) isNext joins
      | none =>
        have ahead : ∀ p ∈ prev, p.vmEnd ≤ r.addr := by
          intro p eq
          rw [Option.mem_def.mp eq, Option.filter_eq_none_iff] at inside
          have := inside p rfl
          simpa using this
        cases back with
        | nil => simp [mergeNext] at isNext
        | cons area rest =>
          have before : ∀ a ∈ front ++ prev.toList, a.vmEnd ≤ r.addr := by
            cases prev with
            | none => simp [first rfl]
            | some p =>
              have le := ahead p rfl
              refine forall_mem_append.mpr ⟨fun a member => ?_, forall_mem_singleton.mpr le⟩
              have list : front ++ (some p).toList ++ area :: rest = front ++ p :: area :: rest := by
                simp
              rw [list] at ok
              have := ok.around.1 a member
              have := ok.here.1
              omega
          exact merge_front clone ok before req placed ahead isNext joins

end Merge

def between : MergeRequest := ⟨0x2000, 0x3000, 1, none, some 1, 1, 0, 0⟩

def lower : Vma := ⟨0x1000, 0x2000, 0, 1, some 1, 0, 0, false, none, 0⟩

def upper : Vma := ⟨0x3000, 0x4000, 2, 1, some 1, 0, 0, false, none, 0⟩

theorem vmaMerge_preserves_between : Settles (vmaMerge (fun _ => 0) [] (some lower) [upper] between)
      ([] ++ (some lower).toList ++ [upper]) between := by
  exact vmaMerge_preserves (fun _ => 0) (by decide) (by simp)
    ⟨by decide, by decide, by decide, by decide, by decide⟩ (.unmapped (by simp [lower, between])
      (by simp [upper, between]))

def readWrite : List Vma :=
  [⟨0x1000, 0x2000, 0, 1, some 1, 0, 0, false, none, 0⟩,
    ⟨0x2000, 0x3000, 1, 3, some 1, 0, 0, false, none, 0⟩]

def makeWritable : MergeRequest := ⟨0x1000, 0x2000, 3, none, some 1, 0, 0, 0⟩

/-- `mprotect` of a whole vma that then joins the next one: the page behind the range, mapped
with the flags 3, is mapped with the flags 1 when `vma_merge` returns. -/
theorem vmaMerge_next_loses_flags :
    VmasOk readWrite ∧ RequestOk makeWritable ∧ Placed none readWrite makeWritable ∧
      ∃ vmas', vmaMerge (fun _ => 0) [] none readWrite makeWritable = some ⟨some 0, vmas'⟩ ∧
        Maps readWrite 0x2000 ⟨3, some 1, 1, 0, 0⟩ ∧ Maps vmas' 0x2000 ⟨1, some 1, 1, 0, 0⟩ ∧
        ¬Maps vmas' 0x2000 ⟨3, some 1, 1, 0, 0⟩ := by
  refine ⟨by decide, ⟨by decide, by decide, by decide, by decide, by decide⟩,
    .inNext rfl (by simp) rfl (by decide) rfl,
    [⟨0x1000, 0x3000, 0, 1, some 1, 0, 0, false, none, 0⟩], by decide, ?_, ?_, ?_⟩
  · exact ⟨_, mem_cons_of_mem _ mem_cons_self, by decide, by decide⟩
  · exact ⟨_, mem_singleton_self _, by decide, by decide⟩
  · rintro ⟨v, member, -, eq⟩
    rw [mem_singleton.mp member] at eq
    exact absurd eq (by decide)

end Linux318.Guarantees.VmaMerge
