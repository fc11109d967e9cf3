import Linux318.Source.Fs.ExtentStatusRemove

/-!
The calls on the extent status tree: inserting, removing, caching, looking up, and finding delayed
extents.
-/
namespace Linux318.Source.Fs
open Lib

variable {ei : EsInode} {es : ExtentStatus} {entries : List ExtentStatus}

theorem rangeEnd_eq {lblk len : Nat} (pos : 0 < len) (bound : lblk + len ≤ 2 ^ 32) :
    rangeEnd lblk len = some (lblk + len - 1) := by
  have fin : (lblk + len + 0xffffffff) % 2 ^ 32 = lblk + len - 1 := by omega
  rw [rangeEnd, fin, if_neg (by omega)]

section NewExtent

variable (lblk len pblk status : Nat)

theorem newExtent_fine (pos : 0 < len) (bound : lblk + len ≤ extMaxBlocks) :
    FineExtent (newExtent lblk len pblk status) := by
  refine ⟨pos, bound, ?_⟩
  show pblockStatus pblk status < 2 ^ 64
  rw [pblockStatus_eq]
  omega

theorem newExtent_value (b : Nat) : esValue (newExtent lblk len pblk status) b =
    (status % 16, if hasPblock (status % 16) then some ((pblk + (b - lblk)) % 2 ^ 60) else none) := by
  have word : (newExtent lblk len pblk status).esPblk = status % 16 * 2 ^ 60 + pblk % 2 ^ 60 :=
    pblockStatus_eq pblk status
  have high : ext4EsStatus (newExtent lblk len pblk status) = status % 16 := by
    rw [ext4EsStatus_eq, word]
    omega
  have low : ext4EsPblock (newExtent lblk len pblk status) = pblk % 2 ^ 60 := by
    rw [ext4EsPblock_eq, word]
    omega
  rw [esValue, high, low, Nat.mod_add_mod]
  rfl

end NewExtent

theorem insertRetry_spec (shape : Shape ExtentStatus) {newes : ExtentStatus} (fine : FineExtent newes)
    (failures : List Bool) (ok : EsOk ei)
    (clear : Clear ei.entries newes.esLblk (newes.esLblk + newes.esLen)) :
    ∃ err ei', insertRetry shape newes failures ei = some (err, ei') ∧ EsOk ei' ∧
      (failures = [] → err = .zero ∧ Adds ei ei' newes) := by
  induction failures generalizing ei with
  | nil =>
    rcases esInsertExtent_spec shape ok fine clear true with ⟨no, _⟩ | ⟨ei', inserted, ok', adds⟩
    · cases no
    · exact ⟨.zero, ei', inserted, ok', fun _ => ⟨rfl, adds⟩⟩
  | cons elsewhere rest ih =>
    rw [insertRetry]
    rcases esInsertExtent_spec shape ok fine clear false with ⟨_, failed⟩ | ⟨ei', inserted, ok', _⟩
    · obtain ⟨nr, ei', shrunk, ok', sub⟩ := ext4EsShrink_spec ok elsewhere
      rw [failed]
      simp only [shrunk]
      cases nr with
      | zero => exact ⟨_, ei', rfl, ok', by simp⟩
      | succ nr =>
        obtain ⟨err, ei'', res, ok'', _⟩ := ih ok' (clear.sublist sub)
        exact ⟨err, ei'', res, ok'', by simp⟩
    · rw [inserted]
      exact ⟨.zero, ei', rfl, ok', by simp⟩

section
variable (shape : Shape ExtentStatus) (ok : EsOk ei) {lblk len : Nat}
include shape ok

theorem ext4EsRemoveExtent_spec (bound : lblk + len ≤ 2 ^ 32) (failures : List Bool) :
    ∃ err ei', ext4EsRemoveExtent shape ei lblk len failures = some (err, ei') ∧ EsOk ei' ∧
      (failures = [] → err = .zero ∧ ∀ b v,
        Exposes ei'.entries b v ↔ Exposes ei.entries b v ∧ ¬(lblk ≤ b ∧ b < lblk + len)) := by
  unfold ext4EsRemoveExtent
  by_cases empty : len = 0
  · refine ⟨.zero, ei, if_pos empty, ok, fun _ => ⟨rfl, fun b v => ⟨fun h => ⟨h, ?_⟩, And.left⟩⟩⟩
    omega
  obtain ⟨err, ei', removed, ok', _, exact⟩ := esRemoveExtent_spec shape
    (show lblk ≤ lblk + len - 1 by omega) (by omega) failures ok
  rw [if_neg empty, rangeEnd_eq (by omega) bound]
  simp only [removed]
  refine ⟨err, ei', rfl, ok', fun none => ⟨(exact none).1, fun b v => ?_⟩⟩
  rw [(exact none).2 b v]
  refine and_congr_right fun _ => not_congr ?_
  omega

theorem ext4EsInsertExtent_spec (bound : lblk + len ≤ extMaxBlocks) (pblk status : Nat)
    (removeFailures failures : List Bool) :
    ∃ err ei', ext4EsInsertExtent shape ei lblk len pblk status removeFailures failures =
        some (err, ei') ∧ EsOk ei' ∧
      (removeFailures = [] → failures = [] → err = .zero ∧ ∀ b v, Exposes ei'.entries b v ↔
        (Exposes ei.entries b v ∧ ¬(lblk ≤ b ∧ b < lblk + len)) ∨
          ((lblk ≤ b ∧ b < lblk + len) ∧ esValue (newExtent lblk len pblk status) b = v)) := by
  have small : lblk + len ≤ 2 ^ 32 := by
    simp only [extMaxBlocks] at bound
    omega
  unfold ext4EsInsertExtent
  by_cases empty : len = 0
  · refine ⟨.zero, ei, if_pos empty, ok, fun _ _ => ⟨rfl, fun b v => ?_⟩⟩
    constructor
    · exact fun h => .inl ⟨h, by omega⟩
    rintro (h | h)
    · exact h.1
    · exact absurd h.1 (by omega)
  have fine := newExtent_fine lblk len pblk status (by omega) bound
  obtain ⟨err, ei', removed, ok', clear, exact⟩ := esRemoveExtent_spec shape
    (show lblk ≤ lblk + len - 1 by omega) (by omega) removeFailures ok
  rw [if_neg empty, rangeEnd_eq (by omega) small]
  simp only [removed]
  cases err with
  | enomem => exact ⟨.enomem, ei', rfl, ok', fun none => absurd (exact none).1 (by simp)⟩
  | zero =>
    have fin : lblk + len - 1 + 1 = lblk + len := by omega
    have free := clear rfl
    rw [fin] at free
    obtain ⟨err, ei'', inserted, ok'', adds⟩ := insertRetry_spec shape fine failures ok' free
    refine ⟨err, ei'', inserted, ok'', fun one two => ⟨(adds two).1, fun b v => ?_⟩⟩
    rw [(adds two).2 b v, (exact one).2 b v]
    refine or_congr (and_congr_right fun _ => not_congr ?_) Iff.rfl
    omega

theorem ext4EsCacheExtent_spec (bound : lblk + len ≤ extMaxBlocks) (pblk status : Nat) (alloc : Bool) :
    ∃ ei', ext4EsCacheExtent shape ei lblk len pblk status alloc = some ei' ∧ EsOk ei' ∧
      (¬Clear ei.entries lblk (lblk + len) → ei' = ei) ∧
      (alloc = true → 0 < len → Clear ei.entries lblk (lblk + len) →
        Adds ei ei' (newExtent lblk len pblk status)) := by
  have small : lblk + len ≤ 2 ^ 32 := by
    simp only [extMaxBlocks] at bound
    omega
  unfold ext4EsCacheExtent
  by_cases empty : len = 0
  · exact ⟨ei, if_pos empty, ok, fun _ => rfl, fun _ pos => absurd pos (by omega)⟩
  have fine := newExtent_fine lblk len pblk status (by omega) bound
  rw [if_neg empty, rangeEnd_eq (by omega) small]
  have inserts (clear : Clear ei.entries lblk (lblk + len)) :
      ∃ ei', (esInsertExtent shape ei (newExtent lblk len pblk status) alloc).map (·.2) = some ei' ∧
        EsOk ei' ∧ (¬Clear ei.entries lblk (lblk + len) → ei' = ei) ∧
        (alloc = true → 0 < len → Clear ei.entries lblk (lblk + len) →
          Adds ei ei' (newExtent lblk len pblk status)) := by
    rcases esInsertExtent_spec shape ok fine clear alloc with ⟨no, failed⟩ | ⟨ei', inserted, ok', adds⟩
    · refine ⟨ei, by rw [failed]; rfl, ok, fun _ => rfl, fun yes => ?_⟩
      rw [no] at yes
      cases yes
    · exact ⟨ei', by rw [inserted]; rfl, ok', fun meets => absurd clear meets, fun _ _ _ => adds⟩
  rcases esTreeSearch_spec shape ok.list lblk with
    ⟨found, before⟩ | ⟨pre, es, post, found, split, before, hi⟩
  · rw [found]
    exact inserts fun es mem => .inl (before es mem)
  rw [found]
  dsimp only
  split_ifs
  · refine inserts fun e mem => ?_
    have list := ok.list
    rw [split] at list mem
    rcases List.mem_append.mp mem with inPre | mem
    · exact .inl (before e inPre)
    right
    rcases List.mem_cons.mp mem with rfl | inPost
    · omega
    · have behind := list.hi e inPost
      omega
  · refine ⟨ei, rfl, ok, fun _ => rfl, fun _ _ clear => absurd (clear es (by simp [split])) ?_⟩
    have pos := (ok.list.fine es (by simp [split])).nonempty
    omega

end

theorem cachedExtent_spec (ok : EsOk ei) :
    ∃ r, cachedExtent ei = some r ∧ ∀ es, r = some es → es ∈ ei.entries := by
  unfold cachedExtent
  cases cached : ei.cacheEs with
  | none => exact ⟨none, rfl, by simp⟩
  | some addr =>
    obtain ⟨es, mem, same⟩ := ok.cache addr cached
    have found : (ei.entries.find? fun es => es.addr = addr).isSome := by
      rw [List.find?_isSome]
      exact ⟨es, mem, by simpa using same⟩
    obtain ⟨e, he⟩ := Option.isSome_iff_exists.mp found
    refine ⟨some e, by simp only [he]; rfl, ?_⟩
    rintro _ ⟨⟩
    exact List.mem_of_find?_eq_some he

theorem inRange_iff (fine : FineExtent es) (lblk : Nat) :
    inRange lblk es = true ↔ Covers es lblk := by
  have bound := fine.lt_two_pow
  have pos := fine.nonempty
  have fin : (es.esLblk + es.esLen + 0xffffffff) % 2 ^ 32 = es.esLblk + es.esLen - 1 := by omega
  rw [inRange, fin, Covers]
  simp only [Bool.and_eq_true, decide_eq_true_eq]
  omega

/-- A lookup finds the extent of the block, through the cache or through the tree. -/
theorem ext4EsLookupExtent_spec (shape : Shape ExtentStatus) (ok : EsOk ei) (lblk : Nat) :
    ∃ r, ext4EsLookupExtent shape ei lblk = some r ∧
      ∀ es, r = some es ↔ es ∈ ei.entries ∧ Covers es lblk := by
  obtain ⟨cached, hc, mem⟩ := cachedExtent_spec ok
  have tree : ∃ r, lookupDescend lblk (shape.tree ei.entries) = some r ∧
      ∀ es, r = some es ↔ es ∈ ei.entries ∧ Covers es lblk := by
    have list : EsList (shape.tree ei.entries).toList ei.nextAddr := by
      rw [shape.inorder]
      exact ok.list
    have found := lookupDescend_spec lblk list
    rwa [shape.inorder] at found
  rw [ext4EsLookupExtent, hc]
  cases cached with
  | none => exact tree
  | some es1 =>
    by_cases hit : inRange lblk es1 = true
    · have here := mem es1 rfl
      have covers := (inRange_iff (ok.list.fine es1 here) lblk).mp hit
      refine ⟨some es1, by simp [hit], fun es => ⟨?_, fun ⟨inList, also⟩ => ?_⟩⟩
      · rintro ⟨⟩
        exact ⟨here, covers⟩
      · rw [ok.list.exposes_unique here inList covers also]
    · simpa [hit] using tree

/-- What a lookup exposes: the status of the block, and its physical block if it has one. -/
def lookupValue (shape : Shape ExtentStatus) (ei : EsInode) (lblk : Nat) :
    Option (Option (Nat × Option Nat)) :=
  (ext4EsLookupExtent shape ei lblk).map fun r => r.map fun es => esValue es lblk

section
variable (shape : Shape ExtentStatus) (ok : EsOk ei) (lblk : Nat)
include shape ok lblk

theorem lookupValue_spec :
    ∃ r, lookupValue shape ei lblk = some r ∧ ∀ v, r = some v ↔ Exposes ei.entries lblk v := by
  obtain ⟨r, res, found⟩ := ext4EsLookupExtent_spec shape ok lblk
  refine ⟨r.map fun es => esValue es lblk, by rw [lookupValue, res]; rfl, fun v => ?_⟩
  rw [Option.map_eq_some_iff]
  constructor
  · rintro ⟨es, some, value⟩
    obtain ⟨mem, covers⟩ := (found es).mp some
    exact ⟨es, mem, covers, value⟩
  · rintro ⟨es, mem, covers, value⟩
    exact ⟨es, (found es).mpr ⟨mem, covers⟩, value⟩

theorem lookupValue_eq_some_iff (v : Nat × Option Nat) :
    lookupValue shape ei lblk = some (some v) ↔ Exposes ei.entries lblk v := by
  obtain ⟨r, res, found⟩ := lookupValue_spec shape ok lblk
  rw [res, Option.some_inj, found]

theorem lookupValue_eq_none_iff :
    lookupValue shape ei lblk = some none ↔ ∀ v, ¬Exposes ei.entries lblk v := by
  obtain ⟨r, res, found⟩ := lookupValue_spec shape ok lblk
  rw [res, Option.some_inj, Option.eq_none_iff_forall_ne_some]
  exact forall_congr' fun v => not_congr (found v)

end

/-- Two trees expose the same for a block that both map to the same. -/
theorem lookupValue_congr (shape shape' : Shape ExtentStatus) {ei' : EsInode} (ok : EsOk ei)
    (ok' : EsOk ei') {lblk : Nat}
    (same : ∀ v, Exposes ei'.entries lblk v ↔ Exposes ei.entries lblk v) :
    lookupValue shape' ei' lblk = lookupValue shape ei lblk := by
  obtain ⟨r, res, found⟩ := lookupValue_spec shape ok lblk
  obtain ⟨r', result', found'⟩ := lookupValue_spec shape' ok' lblk
  rw [res, result']
  congr 1
  exact Option.ext fun v => (found' v).trans ((same v).trans (found v).symm)

theorem mem_of_rbNext {addr : Nat} (next : rbNext entries addr = some es) : es ∈ entries := by
  fun_induction rbNext entries addr with
  | case1 a b rest =>
    cases next
    simp
  | case2 a b rest addr ne ih => exact List.mem_cons_of_mem a (ih next)
  | case3 => cases next

theorem mem_of_delayedLoop {fin fuel : Nat} {es1 : ExtentStatus} (mem : es1 ∈ entries)
    (found : delayedLoop entries fin fuel es1 = some es) : es ∈ entries := by
  induction fuel generalizing es1 with
  | zero =>
    cases found
    exact mem
  | succ fuel ih =>
    rw [delayedLoop] at found
    cases next : rbNext entries es1.addr with
    | none =>
      simp only [next] at found
      cases found
      exact mem
    | some es2 =>
      have inList := mem_of_rbNext next
      simp only [next] at found
      split_ifs at found
      · cases found
        exact inList
      · exact ih inList found

theorem startExtent_spec (shape : Shape ExtentStatus) (ok : EsOk ei) (lblk : Nat) :
    ∃ r, startExtent shape ei lblk = some r ∧ ∀ es, r = some es → es ∈ ei.entries := by
  obtain ⟨cached, hc, mem⟩ := cachedExtent_spec ok
  have tree : ∃ r, esTreeSearch shape ei lblk = some r ∧ ∀ es, r = some es → es ∈ ei.entries := by
    rcases esTreeSearch_spec shape ok.list lblk with ⟨found, _⟩ | ⟨pre, es, post, found, split, _⟩
    · exact ⟨none, found, by simp⟩
    refine ⟨some es, found, ?_⟩
    rintro _ ⟨⟩
    simp [split]
  rw [startExtent, hc]
  cases cached with
  | none => exact tree
  | some es1 =>
    by_cases hit : inRange lblk es1 = true
    · exact ⟨some es1, by simp [hit], mem⟩
    · simpa [hit] using tree

theorem ext4EsFindDelayedExtentRange_spec (shape : Shape ExtentStatus) (ok : EsOk ei)
    {lblk fin : Nat} (order : lblk ≤ fin) :
    ∃ r, ext4EsFindDelayedExtentRange shape ei lblk fin = some r ∧ EsOk r.2 := by
  obtain ⟨start, hs, mem⟩ := startExtent_spec shape ok lblk
  rw [ext4EsFindDelayedExtentRange, if_neg (by omega), hs]
  cases start with
  | none => exact ⟨(none, ei), rfl, ok⟩
  | some es1 =>
    have here := mem es1 rfl
    simp only
    cases found : (if ext4EsIsDelayed es1 = true then some es1 else
      delayedLoop ei.entries fin ei.entries.length es1) with
    | none => exact ⟨(none, ei), rfl, ok⟩
    | some es =>
      have inList : es ∈ ei.entries := by
        split_ifs at found
        · cases found
          exact here
        · exact mem_of_delayedLoop here found
      simp only
      split_ifs
      · refine ⟨_, rfl, ⟨ok.list, ?_, ok.allNr, ok.lruNr⟩⟩
        rintro _ ⟨⟩
        exact ⟨es, inList, rfl⟩
      · exact ⟨(none, ei), rfl, ok⟩

end Linux318.Source.Fs
