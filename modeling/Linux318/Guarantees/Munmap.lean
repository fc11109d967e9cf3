import Linux318.Source.Mmap.VmaSplit

/-!
`do_munmap` of `mm/mmap.c` removes the pages of its range and no others; where it fails every
page stays mapped as it was.
-/
namespace Linux318.Guarantees.Munmap
open List Lib Source.Mmap

variable {mm : Mm} {start unmapEnd err : Nat} {pre mid post todo : List Vma}

def SameMap (vmas vmas' : List Vma) : Prop := ∀ page attr, Maps vmas' page attr ↔ Maps vmas page attr

def Unmaps (vmas vmas' : List Vma) (start unmapEnd : Nat) : Prop :=
  ∀ page attr, Maps vmas' page attr ↔ Maps vmas page attr ∧ ¬(start ≤ page ∧ page < unmapEnd)

structure MunmapEnds (mm : Mm) (start unmapEnd : Nat) (err : Nat) (mm' : Mm) : Prop where
  ok : VmasOk mm'.vmas
  unmapped : err = 0 → Unmaps mm.vmas mm'.vmas start unmapEnd
  failed : err ≠ 0 → SameMap mm.vmas mm'.vmas

theorem MunmapEnds.of_sameMap {mm' mm'' : Mm} (same : SameMap mm.vmas mm'.vmas)
    (ends : MunmapEnds mm' start unmapEnd err mm'') : MunmapEnds mm start unmapEnd err mm'' :=
  ⟨ends.ok, fun zero page attr => by rw [ends.unmapped zero, same],
    fun ne page attr => by rw [ends.failed ne, same]⟩

theorem MunmapEnds.refused (ok : VmasOk mm.vmas) (start unmapEnd : Nat) (ne : err ≠ 0) :
    MunmapEnds mm start unmapEnd err mm :=
  ⟨ok, fun zero => absurd zero ne, fun _ _ _ => Iff.rfl⟩

theorem maps_bounds {vmas : List Vma} {page : Nat} {attr : PageAttr} (maps : Maps vmas page attr) :
    ∃ vma ∈ vmas, vma.vmStart ≤ page ∧ page < vma.vmEnd := by
  obtain ⟨vma, mem, covers, -⟩ := maps
  exact ⟨vma, mem, covers⟩

/-- The middle of the list goes, nothing else. -/
theorem unmaps_middle (before : ∀ a ∈ pre, a.vmEnd ≤ start)
    (inside : ∀ v ∈ mid, start ≤ v.vmStart ∧ v.vmEnd ≤ unmapEnd)
    (behind : ∀ b ∈ post, unmapEnd ≤ b.vmStart) :
    Unmaps (pre ++ mid ++ post) (pre ++ post) start unmapEnd := by
  intro page attr
  simp only [maps_append]
  constructor
  · rintro (maps | maps)
    · obtain ⟨v, mem, -, lt⟩ := maps_bounds maps
      have := before v mem
      exact ⟨.inl (.inl maps), by omega⟩
    · obtain ⟨v, mem, ge, -⟩ := maps_bounds maps
      have := behind v mem
      exact ⟨.inr maps, by omega⟩
  · rintro ⟨(maps | maps) | maps, out⟩
    · exact .inl maps
    · obtain ⟨v, mem, ge, lt⟩ := maps_bounds maps
      have := inside v mem
      exact absurd ⟨by omega, by omega⟩ out
    · exact .inr maps

theorem dropWhile_middle
    (inside : ∀ v ∈ mid, v.vmStart < unmapEnd) (behind : ∀ b ∈ post, unmapEnd ≤ b.vmStart) :
    (mid ++ post).dropWhile (fun vma => vma.vmStart < unmapEnd) = post := by
  have holds : ∀ v ∈ mid, decide (v.vmStart < unmapEnd) = true := fun v mem =>
    decide_eq_true (inside v mem)
  rw [dropWhile_append_of_pos holds]
  cases post with
  | nil => rfl
  | cons b rest =>
    have := behind b mem_cons_self
    rw [dropWhile_cons_of_neg (by simpa using this)]

/-- Cutting out whole areas unmaps their range. -/
theorem detach_ends (ok : VmasOk mm.vmas) (split : mm.vmas = pre ++ mid ++ post)
    (nonempty : mid ≠ []) (before : ∀ a ∈ pre, a.vmEnd ≤ start)
    (inside : ∀ v ∈ mid, start ≤ v.vmStart ∧ v.vmEnd ≤ unmapEnd)
    (behind : ∀ b ∈ post, unmapEnd ≤ b.vmStart) :
    ∃ mm', detachVmasToBeUnmapped mm pre.length unmapEnd = some mm' ∧
      MunmapEnds mm start unmapEnd 0 mm' := by
  obtain ⟨first, rest, rfl⟩ := exists_cons_of_ne_nil nonempty
  have below : ∀ v ∈ rest, v.vmStart < unmapEnd := by
    intro v mem
    have inVmas : v ∈ mm.vmas := by
      rw [split]
      simp [mem]
    have proper := ok.proper inVmas
    have := (inside v (mem_cons_of_mem _ mem)).2
    omega
  have left := dropWhile_middle below behind
  have dropped : mm.vmas.drop pre.length = first :: (rest ++ post) := by
    rw [split, append_assoc, drop_left]
    rfl
  have taken : mm.vmas.take pre.length = pre := by rw [split, append_assoc, take_left]
  rw [detachVmasToBeUnmapped, dropped]
  refine ⟨_, rfl, ?_, fun _ => ?_, fun ne => absurd rfl ne⟩
  · rw [left, taken]
    refine ok.sublist ?_
    rw [split, append_assoc]
    exact (sublist_append_right _ _).append_left pre
  · rw [left, taken, split]
    exact unmaps_middle before inside behind

/-- The range ends between two vmas once the last one is split. -/
theorem splitLast_ends (clone : Nat → Nat) (fault : Nat) (ok : VmasOk mm.vmas)
    (whole : mm.vmas = pre ++ todo) (aligned : pageSize ∣ unmapEnd)
    (before : ∀ a ∈ pre, a.vmEnd ≤ unmapEnd) :
    ∃ err mm', splitLast clone fault mm unmapEnd = some (err, mm') ∧ VmasOk mm'.vmas ∧
      SameMap mm.vmas mm'.vmas ∧ (err = 0 → ∃ mid post, mm'.vmas = pre ++ mid ++ post ∧
        (∀ v ∈ mid, v.vmEnd ≤ unmapEnd) ∧ (∀ b ∈ post, unmapEnd ≤ b.vmStart) ∧
        (todo.head?.map Vma.vmStart = (mid ++ post).head?.map Vma.vmStart)) := by
  obtain ⟨mid, back, found⟩ : ∃ mid back, findVma unmapEnd todo = (mid, back) := ⟨_, _, rfl⟩
  obtain ⟨parts, below, above⟩ := findVma_split found
  rw [splitLast, whole, findVma_append before, found]
  have unsplit (clear : ∀ b ∈ back, unmapEnd ≤ b.vmStart) :
      ∃ err mm', some (0, mm) = some (err, mm') ∧ VmasOk mm'.vmas ∧
        SameMap (pre ++ todo) mm'.vmas ∧ (err = 0 → ∃ mid post, mm'.vmas = pre ++ mid ++ post ∧
          (∀ v ∈ mid, v.vmEnd ≤ unmapEnd) ∧ (∀ b ∈ post, unmapEnd ≤ b.vmStart) ∧
          (todo.head?.map Vma.vmStart = (mid ++ post).head?.map Vma.vmStart)) :=
    ⟨0, mm, rfl, ok, fun _ _ => by rw [whole],
      fun _ => ⟨mid, back, by rw [whole, parts, append_assoc], below, clear, by rw [parts]⟩⟩
  cases back with
  | nil => exact unsplit (by simp)
  | cons last back =>
    have list : pre ++ todo = pre ++ mid ++ last :: back := by rw [parts, append_assoc]
    have okSplit : VmasOk (pre ++ mid ++ last :: back) := list ▸ whole ▸ ok
    have high := above last rfl
    dsimp only
    split_ifs with low
    · by_cases fails : fault ≠ 0
      · rw [splitVma, if_pos fails]
        simp only [Option.map_some, Mm.afterSplit]
        rw [if_pos fails]
        exact ⟨fault, _, rfl, okSplit, fun _ _ => by rw [list], fun zero => absurd zero fails⟩
      obtain rfl : fault = 0 := by omega
      rw [splitVma_eq clone true okSplit low high]
      refine ⟨0, _, rfl, okSplit.split low high aligned, fun page attr => ?_, fun _ => ?_⟩
      · rw [list]
        exact maps_split_in okSplit low high aligned page attr
      refine ⟨mid ++ [last.below unmapEnd], last.above unmapEnd :: back, ?_, ?_, ?_, ?_⟩
      · simp
      · exact forall_mem_append.mpr ⟨below, forall_mem_singleton.mpr le_rfl⟩
      · refine forall_mem_cons.mpr ⟨le_rfl, fun b mem => ?_⟩
        exact high.le.trans (okSplit.around.2 b mem)
      · rw [parts]
        cases mid <;> rfl
    · refine unsplit (forall_mem_cons.mpr ⟨by omega, fun b mem => ?_⟩)
      have := okSplit.around.2 b mem
      omega

/-- The split at the end and the detaching. -/
theorem unmapFrom_ends {first : Vma} (clone : Nat → Nat) (fault : Nat) (ok : VmasOk mm.vmas)
    (whole : mm.vmas = pre ++ first :: todo) (lt : start < unmapEnd) (aligned : pageSize ∣ unmapEnd)
    (before : ∀ a ∈ pre, a.vmEnd ≤ start) (low : start ≤ first.vmStart)
    (high : first.vmStart < unmapEnd) :
    ∃ err mm', unmapFrom clone fault mm pre.length unmapEnd = some (err, mm') ∧
      MunmapEnds mm start unmapEnd err mm' := by
  obtain ⟨err, mm', split, ok', same, cut⟩ := splitLast_ends clone fault ok whole aligned
    fun a mem => (before a mem).trans lt.le
  rw [unmapFrom, split, Option.bind_some]
  dsimp only
  split_ifs with fails
  · exact ⟨err, mm', rfl, ok', fun zero => absurd zero fails, fun _ => same⟩
  obtain ⟨mid, post, eq, below, behind, head⟩ := cut (by omega)
  have starts : ∀ v ∈ mid ++ post, start ≤ v.vmStart := by
    cases list : mid ++ post with
    | nil => simp
    | cons v rest =>
      rw [list] at head
      have headStart : first.vmStart = v.vmStart := by simpa using head
      have sorted : (v :: rest).Pairwise fun a b => a.vmEnd ≤ b.vmStart := by
        rw [eq, append_assoc, list] at ok'
        exact (pairwise_append.mp ok'.sorted).2.1
      have inVmas : v ∈ mm'.vmas := by
        rw [eq, append_assoc, list]
        simp
      have proper := ok'.proper inVmas
      refine forall_mem_cons.mpr ⟨by omega, fun b mem => ?_⟩
      have := (pairwise_cons.mp sorted).1 b mem
      omega
  have nonempty : mid ≠ [] := by
    rintro rfl
    cases post with
    | nil => simp at head
    | cons b rest =>
      have headStart : first.vmStart = b.vmStart := by simpa using head
      have := behind b mem_cons_self
      omega
  obtain ⟨mm'', detached, ends⟩ := detach_ends ok' eq nonempty before
    (fun v mem => ⟨starts v (mem_append_left _ mem), below v mem⟩) behind
  rw [detached]
  exact ⟨0, mm'', rfl, ends.of_sameMap same⟩

/-- An address space whose task size leaves room for the alignment of a length -/
structure MmOk (mm : Mm) : Prop where
  vmas : VmasOk mm.vmas
  taskSize : mm.taskSize + pageSize ≤ 2 ^ 64

theorem pageAlign_eq {len : Nat} (small : len + pageSize ≤ 2 ^ 64) :
    pageAlign len = (len + (pageSize - 1)) / pageSize * pageSize := by
  rw [pageAlign, add64_eq]
  rw [pageSize] at *
  omega

theorem pageSize_dvd_pageAlign (len : Nat) : pageSize ∣ pageAlign len := Nat.dvd_mul_left _ _

/-- `do_munmap` from every well-formed address space, for every range and every failure. -/
theorem doMunmap_exact {mm : Mm} (ok : MmOk mm) (clone : Nat → Nat) (fault1 fault2 start len : Nat) :
    ∃ err mm', doMunmap clone fault1 fault2 mm start len = some (err, mm') ∧
      MunmapEnds mm start (start + pageAlign len) err mm' := by
  have bound := ok.taskSize
  rw [doMunmap]
  by_cases refused : start % pageSize ≠ 0 ∨ mm.taskSize < start ∨ mm.taskSize - start < len
  · rw [if_pos refused]
    exact ⟨einval, mm, rfl, .refused ok.vmas _ _ (by decide)⟩
  rw [if_neg refused]
  push Not at refused
  obtain ⟨startAligned, inTask, lenIn⟩ := refused
  by_cases empty : pageAlign len = 0
  · rw [if_pos empty]
    exact ⟨einval, mm, rfl, .refused ok.vmas _ _ (by decide)⟩
  rw [if_neg empty]
  have sum : add64 start (pageAlign len) = start + pageAlign len := by
    refine add64_eq ?_
    rw [pageAlign_eq (by omega)]
    rw [pageSize] at *
    omega
  have startDvd : pageSize ∣ start := Nat.dvd_of_mod_eq_zero startAligned
  have endDvd : pageSize ∣ start + pageAlign len := Nat.dvd_add startDvd (pageSize_dvd_pageAlign len)
  have lt : start < start + pageAlign len := by omega
  simp only [sum]
  generalize start + pageAlign len = unmapEnd at *
  obtain ⟨front, back, found⟩ : ∃ front back, findVma start mm.vmas = (front, back) := ⟨_, _, rfl⟩
  obtain ⟨whole, before, above⟩ := findVma_split found
  rw [found]
  have okSplit : VmasOk (front ++ back) := whole ▸ ok.vmas
  have outside (clear : ∀ b ∈ back, unmapEnd ≤ b.vmStart) : MunmapEnds mm start unmapEnd 0 mm := by
    refine ⟨ok.vmas, fun _ => ?_, fun ne => absurd rfl ne⟩
    have none : Unmaps (front ++ [] ++ back) (front ++ back) start unmapEnd :=
      unmaps_middle before (by simp) clear
    rwa [append_nil, ← whole] at none
  cases back with
  | nil => exact ⟨0, mm, rfl, outside (by simp)⟩
  | cons vma back =>
    have startLt := above vma rfl
    dsimp only
    by_cases clear : unmapEnd ≤ vma.vmStart
    · rw [if_pos clear]
      refine ⟨0, mm, rfl, outside (forall_mem_cons.mpr ⟨clear, fun b member => ?_⟩)⟩
      have := okSplit.around.2 b member
      have := okSplit.here.1
      omega
    rw [if_neg clear]
    by_cases splits : vma.vmStart < start
    · rw [if_pos splits]
      by_cases full : unmapEnd < vma.vmEnd ∧ mm.maxMapCount ≤ mm.mapCount
      · rw [if_pos full]
        exact ⟨errNomem, mm, rfl, .refused ok.vmas _ _ (by decide)⟩
      rw [if_neg full]
      by_cases fails : fault1 ≠ 0
      · rw [splitVma, if_pos fails, Option.bind_some]
        simp only [Mm.afterSplit]
        rw [if_pos fails]
        rw [if_pos fails, ← whole]
        exact ⟨fault1, mm, rfl, .refused ok.vmas _ _ fails⟩
      obtain rfl : fault1 = 0 := by omega
      rw [splitVma_eq clone false okSplit splits startLt]
      have same : SameMap mm.vmas (front ++ vma.below start :: vma.above start :: back) := by
        intro page attr
        rw [whole]
        exact maps_split_in okSplit splits startLt startDvd page attr
      let halved : Mm := { mm with
        vmas := front ++ vma.below start :: vma.above start :: back
        mapCount := mm.mapCount + 1 }
      have okHalved : VmasOk halved.vmas := okSplit.split splits startLt startDvd
      have list : halved.vmas = (front ++ [vma.below start]) ++ vma.above start :: back := by
        simp [halved]
      have before : ∀ a ∈ front ++ [vma.below start], a.vmEnd ≤ start :=
        forall_mem_append.mpr ⟨before, forall_mem_singleton.mpr le_rfl⟩
      obtain ⟨err, mm', eq, ends⟩ :=
        unmapFrom_ends clone fault2 okHalved list lt endDvd before le_rfl lt
      rw [length_append] at eq
      exact ⟨err, mm', eq, ends.of_sameMap same⟩
    · rw [if_neg splits]
      exact unmapFrom_ends clone fault2 ok.vmas whole lt endDvd before (by omega) (by omega)

def threePages : Mm where
  vmas := [⟨0x1000, 0x4000, 7, 0, some 1, 0, 0, false, none, 0⟩]
  mapCount := 1
  maxMapCount := 2
  taskSize := 2 ^ 39

theorem threePages_ok : MmOk threePages where
  vmas := by decide
  taskSize := by decide

/-- A hole in the middle, where the second split fails. -/
theorem doMunmap_exact_middle :
    ∃ err mm', doMunmap (fun _ => 0) 0 12 threePages 0x2000 0x1000 = some (err, mm') ∧
      MunmapEnds threePages 0x2000 (0x2000 + pageAlign 0x1000) err mm' :=
  doMunmap_exact threePages_ok (fun _ => 0) 0 12 0x2000 0x1000

end Linux318.Guarantees.Munmap
