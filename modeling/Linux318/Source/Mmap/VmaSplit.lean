import Linux318.Source.Mmap.VmaList
import Mathlib.Data.List.TakeDrop
import Mathlib.Data.List.TakeWhile

/-!
Splitting and detaching vmas, judged by the page map: a split changes nothing, and what is
detached is what lies in the range. When `vma_adjust` moves a boundary, one vma gets new bounds
and the vmas it grows over are gone or start later.
-/
namespace Linux318.Source.Mmap
open List Lib

section Maps

variable {vmas front back : List Vma} {vma : Vma} {page : Nat} {attr : PageAttr}

@[simp] theorem maps_nil : Maps [] page attr ↔ False := by simp [Maps]

@[simp] theorem maps_cons : Maps (vma :: vmas) page attr ↔
    (vma.Covers page ∧ vma.attr page = attr) ∨ Maps vmas page attr := by
  simp [Maps]

@[simp] theorem maps_append : Maps (front ++ back) page attr ↔
    Maps front page attr ∨ Maps back page attr := by
  simp [Maps, or_and_right, exists_or]

end Maps

theorem VmasOk.sublist {vmas vmas' : List Vma} (ok : VmasOk vmas) (sub : vmas'.Sublist vmas) :
    VmasOk vmas' :=
  ⟨ok.sorted.sublist sub, fun mem => ok.proper (sub.subset mem),
    fun mem => ok.aligned (sub.subset mem)⟩

theorem VmasOk.around {front back : List Vma} {vma : Vma} (ok : VmasOk (front ++ vma :: back)) :
    (∀ a ∈ front, a.vmEnd ≤ vma.vmStart) ∧ ∀ b ∈ back, vma.vmEnd ≤ b.vmStart := by
  obtain ⟨-, tail, across⟩ := pairwise_append.mp ok.sorted
  exact ⟨fun a mem => across a mem vma mem_cons_self, (pairwise_cons.mp tail).1⟩

theorem VmasOk.here {front back : List Vma} {vma : Vma} (ok : VmasOk (front ++ vma :: back)) :
    (vma.vmStart < vma.vmEnd ∧ vma.vmEnd < 2 ^ 64) ∧
      pageSize ∣ vma.vmStart ∧ pageSize ∣ vma.vmEnd := by
  have mem : vma ∈ front ++ vma :: back := mem_append_right _ mem_cons_self
  exact ⟨ok.proper mem, ok.aligned mem⟩

def Vma.below (vma : Vma) (addr : Nat) : Vma := { vma with vmEnd := addr }

def Vma.above (vma : Vma) (addr : Nat) : Vma :=
  { vma with vmStart := addr, vmPgoff := add64 vma.vmPgoff ((addr - vma.vmStart) / pageSize) }

theorem add64_assoc (a b c : Nat) : add64 (add64 a b) c = add64 a (b + c) := by
  simp only [add64]
  omega

/-- Page numbers count on over an aligned address. -/
theorem pages_split {start addr page : Nat} (le : start ≤ addr) (le' : addr ≤ page)
    (aligned : pageSize ∣ start) (aligned' : pageSize ∣ addr) :
    (addr - start) / pageSize + (page - addr) / pageSize = (page - start) / pageSize := by
  rw [pageSize] at *
  omega

theorem Vma.above_attr {vma : Vma} {addr page : Nat} (le : vma.vmStart ≤ addr) (le' : addr ≤ page)
    (aligned : pageSize ∣ vma.vmStart) (aligned' : pageSize ∣ addr) :
    (vma.above addr).attr page = vma.attr page := by
  simp only [attr, above, add64_assoc, pages_split le le' aligned aligned']
  rfl

theorem maps_split {vma : Vma} {addr : Nat} (lt : vma.vmStart < addr) (lt' : addr < vma.vmEnd)
    (aligned : pageSize ∣ vma.vmStart) (aligned' : pageSize ∣ addr) (page : Nat) (attr : PageAttr) :
    Maps [vma.below addr, vma.above addr] page attr ↔ Maps [vma] page attr := by
  have low : (vma.below addr).Covers page ↔ vma.vmStart ≤ page ∧ page < addr := Iff.rfl
  have high : (vma.above addr).Covers page ↔ addr ≤ page ∧ page < vma.vmEnd := Iff.rfl
  have whole : vma.Covers page ↔ vma.vmStart ≤ page ∧ page < vma.vmEnd := Iff.rfl
  have same : (vma.below addr).attr page = vma.attr page := rfl
  by_cases before : page < addr
  · have : ¬addr ≤ page := by omega
    have : page < vma.vmEnd := by omega
    simp [*]
  · have le : addr ≤ page := by omega
    have : vma.vmStart ≤ page := by omega
    simp [Vma.above_attr lt.le le aligned aligned', *]

theorem insertVmStruct_append {new : Vma} {front back : List Vma}
    (before : ∀ a ∈ front, a.vmEnd ≤ new.vmStart) :
    insertVmStruct new (front ++ back) = (insertVmStruct new back).map (front ++ ·) := by
  induction front with
  | nil => simp
  | cons vma rest ih =>
    obtain ⟨head, before⟩ := forall_mem_cons.mp before
    rw [cons_append, insertVmStruct, if_neg (by omega), ih before, Option.map_map]
    rfl

theorem insertVmStruct_head {new : Vma} {back : List Vma} (proper : new.vmStart < new.vmEnd)
    (behind : ∀ b ∈ back, new.vmEnd ≤ b.vmStart ∧ b.vmStart < b.vmEnd) :
    insertVmStruct new back = some (new :: back) := by
  cases back with
  | nil => rfl
  | cons vma rest =>
    obtain ⟨⟨le, lt⟩, -⟩ := forall_mem_cons.mp behind
    rw [insertVmStruct, if_pos (by omega), if_neg (by omega)]

section Split

variable {front back : List Vma} {vma : Vma} {addr : Nat}

theorem splitVma_eq (clone : Nat → Nat) (newBelow : Bool) (ok : VmasOk (front ++ vma :: back))
    (lt : vma.vmStart < addr) (lt' : addr < vma.vmEnd) :
    splitVma clone 0 front vma back addr newBelow =
      some ⟨0, front ++ vma.below addr :: vma.above addr :: back⟩ := by
  obtain ⟨before, behind⟩ := ok.around
  have properBack : ∀ b ∈ back, b.vmStart < b.vmEnd := fun b mem =>
    (ok.proper (mem_append_right _ (mem_cons_of_mem _ mem))).1
  cases newBelow with
  | true =>
    have place : insertVmStruct (vma.below addr) (front ++ vma.above addr :: back) =
        some (front ++ vma.below addr :: vma.above addr :: back) := by
      have before : ∀ a ∈ front, a.vmEnd ≤ (vma.below addr).vmStart := before
      rw [insertVmStruct_append before, insertVmStruct_head lt]
      · rfl
      · refine forall_mem_cons.mpr ⟨⟨le_rfl, lt'⟩, fun b mem => ⟨?_, properBack b mem⟩⟩
        exact lt'.le.trans (behind b mem)
    change (insertVmStruct (vma.below addr) (front ++ vma.above addr :: back)).map _ = _
    rw [place]
    rfl
  | false =>
    have place : insertVmStruct (vma.above addr) (front ++ vma.below addr :: back) =
        some (front ++ vma.below addr :: vma.above addr :: back) := by
      rw [append_cons, insertVmStruct_append, insertVmStruct_head]
      · simp
      · exact lt'
      · exact fun b mem => ⟨behind b mem, properBack b mem⟩
      · refine forall_mem_append.mpr ⟨fun a mem => ?_, forall_mem_singleton.mpr le_rfl⟩
        exact (before a mem).trans lt.le
    change (insertVmStruct (vma.above addr) (front ++ vma.below addr :: back)).map _ = _
    rw [place]
    rfl

section
variable (ok : VmasOk (front ++ vma :: back)) (lt : vma.vmStart < addr) (lt' : addr < vma.vmEnd)
  (aligned : pageSize ∣ addr)
include ok lt lt' aligned

theorem VmasOk.split : VmasOk (front ++ vma.below addr :: vma.above addr :: back) := by
  obtain ⟨before, behind⟩ := ok.around
  obtain ⟨⟨-, bound⟩, alignStart, alignEnd⟩ := ok.here
  obtain ⟨sortedFront, sortedTail, across⟩ := pairwise_append.mp ok.sorted
  have sortedBack := (pairwise_cons.mp sortedTail).2
  have mem {v : Vma} (mem : v ∈ front ++ vma.below addr :: vma.above addr :: back) :
      v ∈ front ++ vma :: back ∨ v = vma.below addr ∨ v = vma.above addr := by
    simp only [mem_append, mem_cons] at mem ⊢
    tauto
  refine ⟨?_, ?_, ?_⟩
  · refine pairwise_append.mpr ⟨sortedFront, ?_, ?_⟩
    · refine pairwise_cons.mpr ⟨?_, pairwise_cons.mpr ⟨behind, sortedBack⟩⟩
      exact forall_mem_cons.mpr ⟨le_rfl, fun b inBack => lt'.le.trans (behind b inBack)⟩
    intro a inFront
    refine forall_mem_cons.mpr ⟨before a inFront, forall_mem_cons.mpr
      ⟨(before a inFront).trans lt.le, fun b inBack => ?_⟩⟩
    exact across a inFront b (mem_cons_of_mem _ inBack)
  · intro v inNew
    rcases mem inNew with old | rfl | rfl
    · exact ok.proper old
    · exact ⟨lt, by dsimp only [Vma.below]; omega⟩
    · exact ⟨lt', bound⟩
  · intro v inNew
    rcases mem inNew with old | rfl | rfl
    · exact ok.aligned old
    · exact ⟨alignStart, aligned⟩
    · exact ⟨aligned, alignEnd⟩

theorem maps_split_in (page : Nat) (attr : PageAttr) :
    Maps (front ++ vma.below addr :: vma.above addr :: back) page attr ↔
      Maps (front ++ vma :: back) page attr := by
  have parts := maps_split lt lt' ok.here.2.1 aligned page attr
  simp only [maps_append, maps_cons, maps_nil, or_false] at parts ⊢
  rw [← parts, or_assoc]

end

end Split

theorem findVma_eq (addr : Nat) (vmas : List Vma) :
    findVma addr vmas = (vmas.takeWhile (fun vma => vma.vmEnd ≤ addr),
      vmas.dropWhile (fun vma => vma.vmEnd ≤ addr)) := span_eq_takeWhile_dropWhile _ _

theorem findVma_split {addr : Nat} {vmas front back : List Vma}
    (found : findVma addr vmas = (front, back)) :
    vmas = front ++ back ∧ (∀ a ∈ front, a.vmEnd ≤ addr) ∧ ∀ b ∈ back.head?, addr < b.vmEnd := by
  rw [findVma_eq] at found
  obtain ⟨rfl, rfl⟩ := Prod.mk.inj found
  refine ⟨takeWhile_append_dropWhile.symm, fun a mem => ?_, fun b head => ?_⟩
  · have := mem_takeWhile_imp mem
    simpa using this
  have := List.head?_dropWhile_not (fun vma : Vma => decide (vma.vmEnd ≤ addr)) vmas
  rw [Option.mem_def.mp head] at this
  simpa using this

theorem findVma_append {addr : Nat} {pre vmas : List Vma} (before : ∀ a ∈ pre, a.vmEnd ≤ addr) :
    findVma addr (pre ++ vmas) = (pre ++ (findVma addr vmas).1, (findVma addr vmas).2) := by
  have holds : ∀ a ∈ pre, decide (a.vmEnd ≤ addr) = true := fun a mem =>
    decide_eq_true (before a mem)
  simp only [findVma_eq, takeWhile_append_of_pos holds, dropWhile_append_of_pos holds]

/-- The two vmas map pages alike, up to their bounds and offsets. -/
structure Alike (vma vma' : Vma) : Prop where
  flags : vma'.vmFlags = vma.vmFlags
  file : vma'.vmFile = vma.vmFile
  name : vma'.sharedName = vma.sharedName
  policy : vma'.vmPolicy = vma.vmPolicy

structure MovedTo (vma vma' : Vma) (start vmEnd pgoff : Nat) : Prop where
  alike : Alike vma vma'
  start : vma'.vmStart = start
  ends : vma'.vmEnd = vmEnd
  pgoff : vma'.vmPgoff = pgoff

theorem importAnon_alike (importer exporter : Vma) (err : Nat) :
    MovedTo importer (importAnon importer exporter err).1 importer.vmStart importer.vmEnd
      importer.vmPgoff := by
  rw [importAnon]
  split
  · split <;> exact ⟨⟨rfl, rfl, rfl, rfl⟩, rfl, rfl, rfl⟩
  · exact ⟨⟨rfl, rfl, rfl, rfl⟩, rfl, rfl, rfl⟩

theorem movedTo_of_alike {vma vma' : Vma} (alike : Alike vma vma') (start vmEnd pgoff : Nat) :
    MovedTo vma { vma' with vmStart := start, vmEnd, vmPgoff := pgoff } start vmEnd pgoff :=
  ⟨⟨alike.flags, alike.file, alike.name, alike.policy⟩, rfl, rfl, rfl⟩

theorem movedTo_moveStart {next next' : Vma}
    (same : MovedTo next next' next.vmStart next.vmEnd next.vmPgoff) (adjustNext : Int) :
    MovedTo next (moveStart next' adjustNext)
      (addPages next.vmStart (adjustNext * pageSize)) next.vmEnd
      (addPages next.vmPgoff adjustNext) := by
  refine ⟨⟨same.alike.flags, same.alike.file, same.alike.name, same.alike.policy⟩, ?_, same.ends, ?_⟩
  · rw [← same.start]
    rfl
  · rw [← same.pgoff]
    rfl

def Moves (result : Option Adjusted) (front : List Vma) (vma : Vma) (start vmEnd pgoff : Nat)
    (back : List Vma) : Prop :=
  ∃ adjusted, result = some adjusted ∧ (adjusted.err = 0 → ∃ vma', MovedTo vma vma' start vmEnd pgoff ∧
    adjusted.vmas = front ++ vma' :: back)

def MovesBoth (result : Option Adjusted) (front : List Vma) (vma next : Vma)
    (start vmEnd pgoff : Nat) (adjustNext : Int) (rest : List Vma) : Prop :=
  ∃ adjusted, result = some adjusted ∧ (adjusted.err = 0 → ∃ vma' next',
    MovedTo vma vma' start vmEnd pgoff ∧
    MovedTo next next' (addPages next.vmStart (adjustNext * pageSize)) next.vmEnd
      (addPages next.vmPgoff adjustNext) ∧
    adjusted.vmas = front ++ vma' :: next' :: rest)

section Remove

variable {front rest : List Vma} {next : Vma}

theorem removeNext_once (clone : Nat → Nat) (start pgoff : Nat) (vma : Vma) {vmEnd : Nat}
    (pass : Nat) (le : vmEnd ≤ next.vmEnd) :
    Moves (removeNext clone start pgoff front (next :: rest) vma vmEnd pass) front vma start
      next.vmEnd pgoff rest := by
  have alike := (importAnon_alike vma next (clone pass)).alike
  rw [removeNext]
  generalize importAnon vma next (clone pass) = imported at *
  obtain ⟨vma', err⟩ := imported
  dsimp only at alike ⊢
  rw [if_neg (Nat.not_lt.mpr le)]
  split_ifs with fails
  · exact ⟨_, rfl, fun zero => absurd zero fails⟩
  · exact ⟨_, rfl, fun _ => ⟨_, movedTo_of_alike alike start next.vmEnd pgoff, rfl⟩⟩

theorem removeNext_twice (clone : Nat → Nat) (start pgoff : Nat) (vma : Vma) {last : Vma}
    {vmEnd : Nat} (pass : Nat) (lt : next.vmEnd < vmEnd) (le : next.vmEnd ≤ last.vmEnd) :
    Moves (removeNext clone start pgoff front (next :: last :: rest) vma vmEnd pass) front vma
      start last.vmEnd pgoff rest := by
  have alike := (importAnon_alike vma next (clone pass)).alike
  rw [removeNext]
  generalize importAnon vma next (clone pass) = imported at *
  obtain ⟨vma', err⟩ := imported
  dsimp only at alike ⊢
  split_ifs with fails
  · exact ⟨_, rfl, fun zero => absurd zero fails⟩
  obtain ⟨adjusted, eq, moves⟩ := removeNext_once clone start pgoff
    { vma' with vmStart := start, vmEnd := next.vmEnd, vmPgoff := pgoff } (pass + 1) le
  refine ⟨adjusted, eq, fun zero => ?_⟩
  obtain ⟨vma'', moved, list⟩ := moves zero
  refine ⟨vma'', ⟨⟨moved.alike.flags.trans alike.flags, moved.alike.file.trans alike.file,
    moved.alike.name.trans alike.name, moved.alike.policy.trans alike.policy⟩, moved.start,
    moved.ends, moved.pgoff⟩, list⟩

end Remove

section Adjust

variable {front rest : List Vma} {vma next : Vma} {start vmEnd pgoff : Nat}

section
variable (clone : Nat → Nat)
include clone

/-- The vma may end in front of its neighbour but not lower than before. -/
theorem vmaAdjust_plain {back : List Vma} (le : vma.vmEnd ≤ vmEnd)
    (clear : ∀ b ∈ back, vmEnd ≤ b.vmStart ∧ b.vmStart < b.vmEnd) :
    Moves (vmaAdjust clone front vma back start vmEnd pgoff none) front vma start vmEnd pgoff
      back := by
  have same : Alike vma vma := ⟨rfl, rfl, rfl, rfl⟩
  have moved := movedTo_of_alike same start vmEnd pgoff
  cases back with
  | nil => exact ⟨_, rfl, fun _ => ⟨_, moved, rfl⟩⟩
  | cons next rest =>
    obtain ⟨above, proper⟩ := clear next List.mem_cons_self
    rw [vmaAdjust]
    rw [if_neg (by omega), if_neg (by omega), if_neg (by omega)]
    exact ⟨_, rfl, fun _ => ⟨_, moved, rfl⟩⟩

theorem vmaAdjust_over (same : vmEnd = next.vmEnd) :
    Moves (vmaAdjust clone front vma (next :: rest) start vmEnd pgoff none) front vma start vmEnd
      pgoff rest := by
  subst same
  rw [vmaAdjust]
  rw [if_pos le_rfl]
  exact removeNext_once clone start pgoff vma 0 le_rfl

theorem vmaAdjust_overTwo {last : Vma} (lt : next.vmEnd < vmEnd) (same : vmEnd = last.vmEnd) :
    Moves (vmaAdjust clone front vma (next :: last :: rest) start vmEnd pgoff none) front vma
      start vmEnd pgoff rest := by
  rw [vmaAdjust]
  rw [if_pos lt.le, same]
  exact removeNext_twice clone start pgoff vma 0 (same ▸ lt) (by omega)

theorem vmaAdjust_into (low : next.vmStart < vmEnd) (high : vmEnd < next.vmEnd) :
    MovesBoth (vmaAdjust clone front vma (next :: rest) start vmEnd pgoff none) front vma next
      start vmEnd pgoff ((vmEnd - next.vmStart) / pageSize : Nat) rest := by
  have alike := (importAnon_alike vma next (clone 0)).alike
  rw [vmaAdjust]
  rw [if_neg (by omega), if_pos low]
  generalize importAnon vma next (clone 0) = imported at *
  obtain ⟨vma', err⟩ := imported
  dsimp only at alike ⊢
  split_ifs with fails
  · exact ⟨_, rfl, fun zero => absurd zero fails⟩
  exact ⟨_, rfl, fun _ => ⟨_, _, movedTo_of_alike alike start vmEnd pgoff,
    movedTo_moveStart ⟨⟨rfl, rfl, rfl, rfl⟩, rfl, rfl, rfl⟩ _, rfl⟩⟩

theorem vmaAdjust_back (low : vmEnd < vma.vmEnd) (sorted : vma.vmEnd ≤ next.vmStart)
    (proper : next.vmStart < next.vmEnd) :
    MovesBoth (vmaAdjust clone front vma (next :: rest) start vmEnd pgoff none) front vma next
      start vmEnd pgoff (-((vma.vmEnd - vmEnd) / pageSize : Nat)) rest := by
  have imports := importAnon_alike next vma (clone 0)
  rw [vmaAdjust]
  rw [if_neg (by omega), if_neg (by omega), if_pos low]
  generalize importAnon next vma (clone 0) = imported at *
  obtain ⟨next', err⟩ := imported
  dsimp only at imports ⊢
  split_ifs with fails
  · exact ⟨_, rfl, fun zero => absurd zero fails⟩
  have same : Alike vma vma := ⟨rfl, rfl, rfl, rfl⟩
  exact ⟨_, rfl, fun _ => ⟨_, _, movedTo_of_alike same start vmEnd pgoff,
    movedTo_moveStart imports _, rfl⟩⟩

end

end Adjust

end Linux318.Source.Mmap
