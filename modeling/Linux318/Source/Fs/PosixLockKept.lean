import Mathlib.Data.List.Nodup
import Linux318.Source.Fs.PosixLockFile

/-!
What every update of a lock list keeps, in whatever state the list is: a record whose
waiters are not woken stays in the list with its owner and type and covers at least the
range it had, and no address is used twice. So a blocked request finds its blocker there.
-/
namespace Linux318.Source.Fs
open List

variable {b fl : FileLock} {newFl newFl2 : Option Nat} {l : List FileLock} {fin start : Int}
  {w : Walk} {addr : Nat}

structure Widens (b b' : FileLock) : Prop where
  addr : b'.addr = b.addr
  kind : b'.kind = b.kind
  owner : b'.flOwner = b.flOwner
  type : b'.flType = b.flType
  start : b'.flStart ≤ b.flStart
  fin : b.flEnd ≤ b'.flEnd

theorem Widens.refl (b : FileLock) : Widens b b :=
  ⟨rfl, rfl, rfl, rfl, le_refl _, le_refl _⟩

theorem Widens.trans {a c : FileLock} (h1 : Widens a b) (h2 : Widens b c) : Widens a c :=
  ⟨h2.addr.trans h1.addr, h2.kind.trans h1.kind, h2.owner.trans h1.owner, h2.type.trans h1.type,
    le_trans h2.start h1.start, le_trans h1.fin h2.fin⟩

/-- A lock that stands in the way still does so when its range grows. -/
theorem Widens.conflict {b' : FileLock} (widens : Widens b b')
    (conflict : posixLocksConflict fl b = true) : posixLocksConflict fl b' = true := by
  rw [posixLocksConflict_iff] at conflict ⊢
  rw [widens.kind, widens.owner, widens.type]
  have := widens.start
  have := widens.fin
  exact ⟨conflict.1, conflict.2.1, by omega, conflict.2.2.2⟩

/-- The records of the list and the two spare records have different addresses. -/
structure Addrs (locks : List FileLock) (newFl newFl2 : Option Nat) : Prop where
  nodup : (locks.map FileLock.addr).Nodup
  fresh : ∀ a, newFl = some a → ∀ fl ∈ locks, fl.addr ≠ a
  fresh2 : ∀ a, newFl2 = some a → ∀ fl ∈ locks, fl.addr ≠ a
  distinct : ∀ a, newFl = some a → newFl2 ≠ some a

theorem Addrs.eq {locks : List FileLock} (addrs : Addrs locks newFl newFl2)
    {p r : FileLock} (hp : p ∈ locks) (hr : r ∈ locks) (same : p.addr = r.addr) : p = r :=
  inj_on_of_nodup_map addrs.nodup hp hr same

structure WalkAddrs (w : Walk) (locks : List FileLock) : Prop where
  nodup : ((w.passed ++ locks).map FileLock.addr).Nodup
  fresh : ∀ a, w.newFl = some a → ∀ fl ∈ w.passed ++ locks, fl.addr ≠ a
  linked : w.linked = true → w.request ∈ w.passed

/-- What the walk does to the records between two points of the loop. -/
structure WalkKeeps (w : Walk) (locks : List FileLock) (w' : Walk) (locks' : List FileLock) :
    Prop where
  woken : w.woken ⊆ w'.woken
  kept : ∀ b ∈ w.passed ++ locks, b.addr ∈ w'.woken ∨ ∃ b' ∈ w'.passed ++ locks', Widens b b'
  addrs : WalkAddrs w' locks'
  source : ∀ fl ∈ w'.passed ++ locks',
    (∃ b ∈ w.passed ++ locks, b.addr = fl.addr) ∨ w.newFl = some fl.addr
  newFl : w'.newFl = none ∨ w'.newFl = w.newFl

theorem WalkKeeps.trans {w' w'' : Walk} {l' l'' : List FileLock} (h1 : WalkKeeps w l w' l')
    (h2 : WalkKeeps w' l' w'' l'') : WalkKeeps w l w'' l'' where
  woken := List.Subset.trans h1.woken h2.woken
  kept := by
    intro b hb
    rcases h1.kept b hb with h | ⟨b', hb', widens⟩
    · exact .inl (h2.woken h)
    rcases h2.kept b' hb' with h | ⟨b'', hb'', widens'⟩
    · exact .inl (widens.addr ▸ h)
    · exact .inr ⟨b'', hb'', widens.trans widens'⟩
  addrs := h2.addrs
  source := by
    intro fl hfl
    rcases h2.source fl hfl with ⟨b, hb, same⟩ | hnew
    · rcases h1.source b hb with ⟨a, ha, same'⟩ | hnew
      · exact .inl ⟨a, ha, same'.trans same⟩
      · exact .inr (same ▸ hnew)
    · rcases h1.newFl with h | h
      · simp [h] at hnew
      · exact .inr (h ▸ hnew)
  newFl := by
    rcases h2.newFl with h | h
    · exact .inl h
    · rw [h]
      exact h1.newFl

theorem WalkKeeps.same {w' : Walk} {l' : List FileLock} (addrs : WalkAddrs w l)
    (list : w'.passed ++ l' = w.passed ++ l) (woken : w'.woken = w.woken)
    (newFl : w'.newFl = w.newFl) (linked : w'.linked = true → w'.request ∈ w'.passed) :
    WalkKeeps w l w' l' where
  woken := woken ▸ List.Subset.refl _
  kept := fun b hb => .inr ⟨b, list ▸ hb, Widens.refl b⟩
  addrs := ⟨list ▸ addrs.nodup, by rw [newFl, list]; exact addrs.fresh, linked⟩
  source := fun fl hfl => .inl ⟨fl, list ▸ hfl, rfl⟩
  newFl := .inr newFl

theorem WalkKeeps.refl (addrs : WalkAddrs w l) : WalkKeeps w l w l :=
  .same addrs rfl rfl rfl addrs.linked

theorem WalkKeeps.pass (addrs : WalkAddrs w (fl :: l)) : WalkKeeps w (fl :: l) (w.pass fl) l :=
  .same addrs (by simp [Walk.pass]) rfl rfl fun h => mem_append_left _ (addrs.linked h)

theorem WalkKeeps.delete
    (addrs : WalkAddrs w (fl :: l)) : WalkKeeps w (fl :: l) (w.delete fl) l := by
  have sub : (w.passed ++ l).Sublist (w.passed ++ fl :: l) :=
    (List.Sublist.refl _).append (sublist_cons_self _ _)
  constructor
  case woken => exact subset_cons_self _ _
  case kept =>
    intro b hb
    by_cases hfl : b = fl
    · exact .inl (by simp [Walk.delete, hfl])
    refine .inr ⟨b, ?_, Widens.refl b⟩
    simp only [mem_append, mem_cons] at hb
    exact mem_append.mpr (by tauto)
  case addrs =>
    exact ⟨addrs.nodup.sublist (sub.map _), fun a ha r hr => addrs.fresh a ha r (sub.subset hr),
      addrs.linked⟩
  case source => exact fun r hr => .inl ⟨r, sub.subset hr, rfl⟩
  case newFl => exact .inr rfl

theorem map_addr_setRange (addr : Nat) (start fin : Int) (l : List FileLock) :
    (setRange addr start fin l).map FileLock.addr = l.map FileLock.addr := by
  rw [setRange, map_map]
  refine map_congr_left fun fl _ => ?_
  simp only [Function.comp]
  split <;> rfl

/-- The widening of the request widens its record in the list. -/
theorem WalkKeeps.widen (addrs : WalkAddrs w l) (hstart : start ≤ w.request.flStart)
    (hfin : w.request.flEnd ≤ fin) : WalkKeeps w l (w.widen start fin) l := by
  cases linked : w.linked with
  | false =>
    refine .same addrs (by simp [Walk.widen, linked]) rfl rfl ?_
    simp [Walk.widen, linked]
  | true =>
    have hpassed : (w.widen start fin).passed = setRange w.request.addr start fin w.passed := by
      simp [Walk.widen, linked]
    have mem : w.request ∈ w.passed := addrs.linked linked
    have nodup := addrs.nodup
    rw [map_append, nodup_append'] at nodup
    have image : ∀ b ∈ w.passed, ∃ b' ∈ setRange w.request.addr start fin w.passed, Widens b b' := by
      intro b hb
      refine ⟨_, mem_map_of_mem hb, ?_⟩
      split
      · next same =>
        have hreq : b = w.request := inj_on_of_nodup_map nodup.1 hb mem same
        exact ⟨rfl, rfl, rfl, rfl, hreq ▸ hstart, hreq ▸ hfin⟩
      · exact Widens.refl b
    have haddr : ∀ fl ∈ setRange w.request.addr start fin w.passed,
        ∃ b ∈ w.passed, b.addr = fl.addr := by
      intro fl hfl
      have := mem_map_of_mem (f := FileLock.addr) hfl
      rw [map_addr_setRange] at this
      exact mem_map.mp this
    have source : ∀ fl ∈ (w.widen start fin).passed ++ l,
        ∃ b ∈ w.passed ++ l, b.addr = fl.addr := by
      intro fl hfl
      rw [hpassed] at hfl
      rcases mem_append.mp hfl with hfl | hfl
      · obtain ⟨b, hb, same⟩ := haddr fl hfl
        exact ⟨b, mem_append_left _ hb, same⟩
      · exact ⟨fl, mem_append_right _ hfl, rfl⟩
    constructor
    case woken => exact List.Subset.refl _
    case kept =>
      intro b hb
      rw [hpassed]
      rcases mem_append.mp hb with hb | hb
      · obtain ⟨b', hb', widens⟩ := image b hb
        exact .inr ⟨b', mem_append_left _ hb', widens⟩
      · exact .inr ⟨b, mem_append_right _ hb, Widens.refl b⟩
    case addrs =>
      refine ⟨?_, ?_, fun _ => ?_⟩
      · rw [hpassed, map_append, map_addr_setRange, ← map_append]
        exact addrs.nodup
      · intro a ha fl hfl
        obtain ⟨b, hb, same⟩ := source fl hfl
        exact same ▸ addrs.fresh a ha b hb
      · rw [hpassed]
        exact mem_map.mpr ⟨w.request, mem, by simp [Walk.widen]⟩
    case source => exact fun fl hfl => .inl (source fl hfl)
    case newFl => exact .inr rfl

/-- The request merges with `fl` and the walk goes on with that record. -/
theorem WalkKeeps.merge (addrs : WalkAddrs w (fl :: l)) (hstart : start ≤ fl.flStart)
    (hfin : fl.flEnd ≤ fin) : WalkKeeps w (fl :: l)
      { w.pass { fl with flStart := start, flEnd := fin } with
        request := { fl with flStart := start, flEnd := fin }, linked := true, added := true }
      l := by
  have nodup := addrs.nodup
  have fresh := addrs.fresh
  constructor
  case woken => exact List.Subset.refl _
  case kept =>
    intro b hb
    simp only [mem_append, mem_cons] at hb
    rcases hb with hb | rfl | hb
    · exact .inr ⟨b, by simp [Walk.pass, hb], Widens.refl b⟩
    · exact .inr ⟨{ b with flStart := start, flEnd := fin }, by simp [Walk.pass],
        ⟨rfl, rfl, rfl, rfl, hstart, hfin⟩⟩
    · exact .inr ⟨b, by simp [hb], Widens.refl b⟩
  case addrs =>
    refine ⟨by simpa [Walk.pass] using nodup, ?_, fun _ => by simp [Walk.pass]⟩
    intro a ha r hr
    simp only [Walk.pass, mem_append, mem_singleton] at hr
    rcases hr with (hr | rfl) | hr
    · exact fresh a ha r (by simp [hr])
    · exact fresh a ha fl (by simp)
    · exact fresh a ha r (by simp [hr])
  case source =>
    intro r hr
    simp only [Walk.pass, mem_append, mem_singleton] at hr
    rcases hr with (hr | rfl) | hr
    · exact .inl ⟨r, by simp [hr], rfl⟩
    · exact .inl ⟨fl, by simp, rfl⟩
    · exact .inl ⟨r, by simp [hr], rfl⟩
  case newFl => exact .inr rfl

/-- The spare record takes the place of `fl`. -/
theorem WalkKeeps.replace (addrs : WalkAddrs w (fl :: l)) (spare : w.newFl = some addr) :
    WalkKeeps w (fl :: l) { w.delete fl with
        passed := w.passed ++ [{ w.request with addr := addr }]
        request := { w.request with addr := addr }, linked := true, newFl := none, added := true }
      l := by
  have nodup := addrs.nodup
  have fresh := addrs.fresh addr spare
  constructor
  case woken => exact subset_cons_self _ _
  case kept =>
    intro b hb
    simp only [mem_append, mem_cons] at hb
    rcases hb with hb | rfl | hb
    · exact .inr ⟨b, by simp [hb], Widens.refl b⟩
    · exact .inl (by simp [Walk.delete])
    · exact .inr ⟨b, by simp [hb], Widens.refl b⟩
  case addrs =>
    refine ⟨?_, by simp, fun _ => by simp⟩
    have hl : addr ∉ l.map FileLock.addr := by
      intro h
      obtain ⟨r, hr, same⟩ := mem_map.mp h
      exact fresh r (by simp [hr]) same
    have hpassed : addr ∉ w.passed.map FileLock.addr := by
      intro h
      obtain ⟨r, hr, same⟩ := mem_map.mp h
      exact fresh r (by simp [hr]) same
    simp only [map_append, map_cons, append_assoc, singleton_append]
    simp only [map_append, map_cons] at nodup
    rw [nodup_middle, nodup_cons] at nodup ⊢
    exact ⟨by simp [hl, hpassed], nodup.2⟩
  case source =>
    intro r hr
    simp only [mem_append, mem_singleton] at hr
    rcases hr with (hr | rfl) | hr
    · exact .inl ⟨r, by simp [hr], rfl⟩
    · exact .inr spare
    · exact .inl ⟨r, by simp [hr], rfl⟩
  case newFl => exact .inl rfl

theorem differentType_keeps {next : Walk → WalkEnd} (addrs : WalkAddrs w (fl :: l))
    (ih : ∀ w', WalkAddrs w' l → WalkKeeps w' l (next w').walk (next w').rest) :
    WalkKeeps w (fl :: l) (differentType w fl l next).walk (differentType w fl l next).rest := by
  rw [differentType_eq rfl]
  generalize (decide (w.request.flType = .unlck) || w.added) = added
  generalize (if fl.flStart < w.request.flStart then some fl.addr else w.left) = left
  have marked : WalkKeeps w (fl :: l) { w with added := added, left := left } (fl :: l) :=
    .same addrs rfl rfl rfl addrs.linked
  dsimp only
  split
  · exact .same addrs rfl rfl rfl addrs.linked
  split
  · split
    · have deleted := WalkKeeps.delete marked.addrs
      exact marked.trans (deleted.trans (ih _ deleted.addrs))
    cases hnew : w.newFl with
    | none =>
      rw [hnew] at marked
      exact marked
    | some addr => exact marked.trans (WalkKeeps.replace marked.addrs hnew)
  · have passed := WalkKeeps.pass marked.addrs
    exact marked.trans (passed.trans (ih _ passed.addrs))

/-- The loop keeps every record that it does not delete. -/
theorem processLocks_keeps (l : List FileLock) (w : Walk) (addrs : WalkAddrs w l) :
    WalkKeeps w l (processLocks w l).walk (processLocks w l).rest := by
  induction l generalizing w with
  | nil => exact WalkKeeps.refl addrs
  | cons fl l ih =>
    rw [processLocks]
    split
    · exact WalkKeeps.refl addrs
    split
    · split
      · exact (WalkKeeps.pass addrs).trans (ih _ (WalkKeeps.pass addrs).addrs)
      split
      · exact WalkKeeps.refl addrs
      generalize hs : (if fl.flStart > w.request.flStart then w.request.flStart
        else fl.flStart) = start
      generalize hf : (if fl.flEnd < w.request.flEnd then w.request.flEnd
        else fl.flEnd) = fin
      have hstart : start ≤ w.request.flStart ∧ start ≤ fl.flStart := by
        rw [← hs]
        split <;> omega
      have hfin : w.request.flEnd ≤ fin ∧ fl.flEnd ≤ fin := by
        rw [← hf]
        split <;> omega
      have widened := WalkKeeps.widen addrs hstart.1 hfin.1
      split
      · have deleted := WalkKeeps.delete widened.addrs
        exact widened.trans (deleted.trans (ih _ deleted.addrs))
      · have merged := WalkKeeps.merge widened.addrs hstart.2 hfin.2
        exact widened.trans (merged.trans (ih _ merged.addrs))
    · split
      · exact (WalkKeeps.pass addrs).trans (ih _ (WalkKeeps.pass addrs).addrs)
      split
      · exact WalkKeeps.refl addrs
      · exact differentType_keeps addrs ih

theorem mem_setEnd_of_ne (hb : b ∈ l) (hne : b.addr ≠ addr) : b ∈ setEnd addr fin l :=
  mem_map.mpr ⟨b, hb, if_neg hne⟩

theorem map_addr_setEnd (addr : Nat) (fin : Int) (l : List FileLock) :
    (setEnd addr fin l).map FileLock.addr = l.map FileLock.addr := by
  rw [setEnd, map_map]
  refine map_congr_left fun fl _ => ?_
  simp only [Function.comp]
  split <;> rfl

/-- What the trimming leaves alone: it wakes the waiters of the records that it changes, and
adds the spare records. -/
structure TrimKeeps (w : Walk) (inserted rest : List FileLock) (newFl2 : Option Nat)
    (u : Update) : Prop where
  woken : w.woken ⊆ u.woken
  kept : ∀ b ∈ w.passed ++ rest, b.addr ∈ u.woken ∨ b ∈ u.iFlock
  addrs : ∃ copy, (copy = [] ∨ ∃ a, newFl2 = some a ∧ copy = [a]) ∧
    u.iFlock.map FileLock.addr = w.passed.map FileLock.addr ++ copy ++
      inserted.map FileLock.addr ++ rest.map FileLock.addr

theorem TrimKeeps.left {inserted rest : List FileLock} {u : Update}
    (keeps : TrimKeeps w inserted rest newFl2 u) (left : Nat) (fin : Int) :
    TrimKeeps w inserted rest newFl2
      { u with iFlock := setEnd left fin u.iFlock, woken := left :: u.woken } where
  woken := subset_cons_of_subset _ keeps.woken
  kept := by
    intro b hb
    by_cases hleft : b.addr = left
    · exact .inl (by simp [hleft])
    rcases keeps.kept b hb with h | h
    · exact .inl (mem_cons_of_mem _ h)
    · exact .inr (mem_setEnd_of_ne h hleft)
  addrs := by
    rw [map_addr_setEnd]
    exact keeps.addrs

theorem trim_keeps (w : Walk) (inserted rest : List FileLock) (newFl2 : Option Nat) :
    TrimKeeps w inserted rest newFl2 (trim w inserted rest newFl2) := by
  have uncut : TrimKeeps w inserted rest newFl2 ⟨.ok, w.passed ++ inserted ++ rest, w.woken⟩ := by
    refine ⟨List.Subset.refl _, fun b hb => .inr ?_, [], .inl rfl, by simp⟩
    simp only [mem_append] at hb ⊢
    tauto
  have cut : ∀ (right : FileLock) (tail : List FileLock) (start : Int), rest = right :: tail →
      TrimKeeps w inserted rest newFl2
        ⟨.ok, w.passed ++ inserted ++ { right with flStart := start } :: tail,
          right.addr :: w.woken⟩ := by
    rintro right tail start rfl
    refine ⟨subset_cons_self _ _, fun b hb => ?_, [], .inl rfl, by simp⟩
    simp only [mem_append, mem_cons] at hb ⊢
    rcases hb with hb | rfl | hb
    · exact .inr (.inl (.inl hb))
    · exact .inl (.inl rfl)
    · exact .inr (.inr (.inr hb))
  have split : ∀ (right : FileLock) (tail : List FileLock) (start : Int) (addr : Nat),
      rest = right :: tail → newFl2 = some addr →
      TrimKeeps w inserted rest newFl2 ⟨.ok, w.passed ++ { right with addr := addr } :: inserted ++
          { right with flStart := start } :: tail, right.addr :: w.woken⟩ := by
    rintro right tail start addr rfl hspare
    refine ⟨subset_cons_self _ _, fun b hb => ?_, [addr], .inr ⟨addr, hspare, rfl⟩, by simp⟩
    simp only [mem_append, mem_cons] at hb ⊢
    rcases hb with hb | rfl | hb
    · exact .inr (.inl (.inl hb))
    · exact .inl (.inl rfl)
    · exact .inr (.inr (.inr hb))
  unfold trim
  split
  · next _ right tail _ =>
    split
    · exact (split right tail _ _ rfl rfl).left _ _
    split
    · exact (cut right tail _ rfl).left _ _
    · exact cut right tail _ rfl
  · split
    · exact uncut.left _ _
    · exact uncut

theorem nodup_insert {a n c : List Nat} (nodup : (a ++ c).Nodup) (hn : n.Nodup)
    (fresh : ∀ v ∈ n, v ∉ a ++ c) : (a ++ n ++ c).Nodup := by
  rw [append_assoc, nodup_append_comm, append_assoc, nodup_append']
  refine ⟨hn, nodup_append_comm.mp nodup, disjoint_left.mpr fun v hv hmem => ?_⟩
  exact fresh v hv (by simp only [mem_append] at hmem ⊢; tauto)

structure UpdateKeeps (locks : List FileLock) (newFl newFl2 : Option Nat) (u : Update) : Prop where
  kept : ∀ b ∈ locks, b.addr ∈ u.woken ∨ ∃ b' ∈ u.iFlock, Widens b b'
  nodup : (u.iFlock.map FileLock.addr).Nodup
  source : ∀ fl ∈ u.iFlock,
    (∃ b ∈ locks, b.addr = fl.addr) ∨ newFl = some fl.addr ∨ newFl2 = some fl.addr

section Keeps
variable {w : Walk} {locks : List FileLock} {e : WalkEnd} {newFl2 : Option Nat}
  (keeps : WalkKeeps w locks e.walk e.rest)
  (addrs : Addrs (w.passed ++ locks) w.newFl newFl2)

include keeps in
/-- The code after the loop gives up, or has nothing to do. -/
theorem WalkKeeps.unchanged (error : LockResult) : UpdateKeeps (w.passed ++ locks) w.newFl newFl2
      ⟨error, e.walk.passed ++ e.rest, e.walk.woken⟩ where
  kept := keeps.kept
  nodup := keeps.addrs.nodup
  source := fun fl hfl => (keeps.source fl hfl).imp_right .inl

include keeps addrs in
/-- The trimming, with `inserted` either nothing or the first spare record. -/
theorem WalkKeeps.trim (inserted : List FileLock)
    (spare : inserted = [] ∨ ∃ n, inserted = [n] ∧ e.walk.newFl = some n.addr) :
    UpdateKeeps (w.passed ++ locks) w.newFl newFl2 (trim e.walk inserted e.rest newFl2) := by
  obtain ⟨woken, kept, copy, hcopy, haddrs⟩ := trim_keeps e.walk inserted e.rest newFl2
  have hspare : ∀ a, e.walk.newFl = some a → w.newFl = some a := by
    intro a ha
    rcases keeps.newFl with h | h
    · simp [h] at ha
    · rw [← h, ha]
  have hold : ∀ v ∈ (e.walk.passed ++ e.rest).map FileLock.addr,
      (∃ b ∈ w.passed ++ locks, b.addr = v) ∨ w.newFl = some v := by
    rw [forall_mem_map]
    exact keeps.source
  have hfirst : ∀ v ∈ inserted.map FileLock.addr, e.walk.newFl = some v := by
    rw [forall_mem_map]
    intro n hn
    rcases spare with rfl | ⟨m, rfl, hm⟩
    · simp at hn
    · rw [mem_singleton.mp hn, hm]
  have hsecond : ∀ v ∈ copy, newFl2 = some v := by
    intro v hv
    rcases hcopy with rfl | ⟨a, ha, rfl⟩
    · simp at hv
    · rw [mem_singleton.mp hv, ha]
  constructor
  case kept =>
    intro b hb
    rcases keeps.kept b hb with h | ⟨b', hb', widens⟩
    · exact .inl (woken h)
    rcases kept b' hb' with h | h
    · exact .inl (widens.addr ▸ h)
    · exact .inr ⟨b', h, widens⟩
  case nodup =>
    rw [haddrs, append_assoc (_ ++ _), append_assoc, ← append_assoc copy, ← append_assoc]
    have nodup := keeps.addrs.nodup
    rw [map_append] at nodup
    refine nodup_insert nodup ?_ ?_
    · rcases hcopy with rfl | ⟨a, ha, rfl⟩ <;> rcases spare with rfl | ⟨m, rfl, hm⟩ <;> try simp
      exact fun h => addrs.distinct _ (hspare _ hm) (by rw [ha, h])
    intro v hv hmem
    rw [← map_append] at hmem
    rcases mem_append.mp hv with hv | hv
    · rcases hold v hmem with ⟨b, hb, rfl⟩ | hnew
      · exact addrs.fresh2 _ (hsecond _ hv) b hb rfl
      · exact addrs.distinct v hnew (hsecond v hv)
    · obtain ⟨fl, hfl, rfl⟩ := mem_map.mp hmem
      exact keeps.addrs.fresh _ (hfirst _ hv) fl hfl rfl
  case source =>
    intro fl hfl
    have mem := mem_map_of_mem (f := FileLock.addr) hfl
    rw [haddrs] at mem
    simp only [mem_append] at mem
    rcases mem with ((h | h) | h) | h
    · exact (hold _ (by simp only [map_append, mem_append, h, true_or])).imp_right .inl
    · exact .inr (.inr (hsecond _ h))
    · exact .inr (.inl (hspare _ (hfirst _ h)))
    · exact (hold _ (by simp only [map_append, mem_append, h, or_true])).imp_right .inl

include keeps addrs in
theorem WalkKeeps.finishUpdate (flExists : Bool) :
    UpdateKeeps (w.passed ++ locks) w.newFl newFl2 (finishUpdate flExists e newFl2) := by
  unfold Fs.finishUpdate
  dsimp only
  split
  · exact keeps.unchanged _
  split
  · exact keeps.unchanged _
  split
  · exact keeps.trim addrs [] (.inl rfl)
  split
  · exact keeps.unchanged _
  split
  · exact keeps.unchanged _
  · next hnew => exact keeps.trim addrs _ (.inr ⟨_, rfl, hnew⟩)

end Keeps

/-- An update keeps every record whose waiters it does not wake, and the addresses. -/
theorem posixUpdate_keeps {locks : List FileLock} (req : PosixRequest)
    (addrs : Addrs locks newFl newFl2) :
    UpdateKeeps locks newFl newFl2 (posixUpdate locks req newFl newFl2) := by
  unfold posixUpdate
  generalize hx : locks.takeWhile (otherOwner req.lock) = x
  generalize hy : locks.dropWhile (otherOwner req.lock) = y
  have hlocks : locks = x ++ y := by rw [← hx, ← hy, takeWhile_append_dropWhile]
  rw [hlocks] at addrs ⊢
  have keeps := processLocks_keeps y
    { passed := x, request := req.lock, linked := false, added := false, left := none,
      right := false, newFl := newFl, woken := [] } ⟨addrs.nodup, addrs.fresh, by simp⟩
  exact keeps.finishUpdate addrs req.flExists

structure AddrsOk (s : LockState) : Prop where
  nodup : ∀ ino, ((s.iFlock ino).map FileLock.addr).Nodup
  used : ∀ ino, ∀ fl ∈ s.iFlock ino, fl.addr < s.nextAddr

theorem AddrsOk.empty : AddrsOk .empty where
  nodup := fun _ => nodup_nil
  used := by simp [LockState.empty]

/-- The spare records of a call have addresses that are not in use. -/
theorem AddrsOk.addrs {s : LockState} (ok : AddrsOk s) (ino : Nat)
    (first : ∀ a, newFl = some a → a = s.nextAddr)
    (second : ∀ a, newFl2 = some a → a = s.nextAddr + 1) : Addrs (s.iFlock ino) newFl newFl2 where
  nodup := ok.nodup ino
  fresh := by
    intro a ha fl hfl
    have := first a ha
    have := ok.used ino fl hfl
    omega
  fresh2 := by
    intro a ha fl hfl
    have := second a ha
    have := ok.used ino fl hfl
    omega
  distinct := by
    intro a ha ha2
    have := first a ha
    have := second a ha2
    omega

theorem AddrsOk.of_iFlock {s t : LockState} (ok : AddrsOk s) (same : t.iFlock = s.iFlock)
    (grows : s.nextAddr ≤ t.nextAddr) : AddrsOk t where
  nodup := fun ino => same ▸ ok.nodup ino
  used := fun ino fl hfl => lt_of_lt_of_le (ok.used ino fl (same ▸ hfl)) grows

theorem lockStep_addrsOk (s : LockState) (e : LockEvent) (ok : AddrsOk s) :
    AddrsOk (lockStep s e) := by
  cases e with
  | deleteBlock addr => exact ok.of_iFlock rfl (le_refl _)
  | call ino req alloc alloc2 =>
    rcases posixLockFile_cases s ino req alloc alloc2 with
      ⟨fl, _, hcall | ⟨_, hcall⟩ | ⟨_, hcall⟩⟩ | ⟨_, _, hcall⟩ |
      ⟨_, _, newFl, newFl2, first, second, hcall⟩ <;> rw [lockStep, hcall]
    any_goals exact ok.of_iFlock rfl (Nat.le_add_right _ _)
    have keeps := posixUpdate_keeps req (ok.addrs ino first second)
    refine ⟨fun i => ?_, fun i => ?_⟩ <;> by_cases hi : i = ino
    · simp only [if_pos hi, keeps.nodup]
    · simp only [if_neg hi, ok.nodup i]
    · simp only [if_pos hi]
      intro fl hfl
      rcases keeps.source fl hfl with ⟨b, hb, same⟩ | hnew | hnew
      · have := ok.used ino b hb
        omega
      · have := first _ hnew
        omega
      · have := second _ hnew
        omega
    · simp only [if_neg hi]
      exact fun fl hfl => Nat.lt_add_right 2 (ok.used i fl hfl)

variable {b b' : FileLock} {s s' : LockState} {w : Waiter}

/-- The request waits for a record of its inode's list that stands in its way. `hashed`
tells that this record is no OFD lock. -/
structure Blocked (s : LockState) (w : Waiter) (b : FileLock) : Prop where
  member : b ∈ s.iFlock w.ino
  addr : b.addr = w.flNext
  conflict : posixLocksConflict w.request b = true
  hashed : w.hashed = !isOfdlck b

def WaitersOk (s : LockState) : Prop := ∀ w ∈ s.blocked, ∃ b, Blocked s w b

theorem conflicting_some {locks : List FileLock} {req : PosixRequest} {fl : FileLock}
    (h : conflicting locks req = some fl) : fl ∈ locks ∧ posixLocksConflict req.lock fl = true := by
  unfold conflicting at h
  split at h
  · cases h
  have found := List.find?_some h
  rw [Bool.and_eq_true] at found
  exact ⟨mem_of_find?_eq_some h, found.2⟩

theorem Widens.isOfdlck (widens : Widens b b') : isOfdlck b' = isOfdlck b := by
  rw [Fs.isOfdlck, Fs.isOfdlck, widens.kind, widens.owner]

theorem Blocked.widen (blocked : Blocked s w b) (widens : Widens b b')
    (mem : b' ∈ s'.iFlock w.ino) : Blocked s' w b' where
  member := mem
  addr := widens.addr.trans blocked.addr
  conflict := widens.conflict blocked.conflict
  hashed := by rw [blocked.hashed, widens.isOfdlck]

theorem Blocked.of_iFlock (blocked : Blocked s w b) (same : s'.iFlock = s.iFlock) :
    Blocked s' w b :=
  blocked.widen (Widens.refl b) (same ▸ blocked.member)

theorem blocker_some (h : s.blocker w = some b) : b ∈ s.iFlock w.ino ∧ b.addr = w.flNext :=
  ⟨mem_of_find?_eq_some h, by simpa using List.find?_some h⟩

theorem AddrsOk.blocker_eq (ok : AddrsOk s)
    (mem : b ∈ s.iFlock w.ino) (addr : b.addr = w.flNext) : s.blocker w = some b := by
  cases h : s.blocker w with
  | none =>
    have := List.find?_eq_none.mp h b mem
    simp [addr] at this
  | some b' =>
    obtain ⟨member', addr'⟩ := blocker_some h
    rw [inj_on_of_nodup_map (ok.nodup w.ino) member' mem (addr'.trans addr.symm)]

theorem Blocked.blocker_eq (blocked : Blocked s w b) (ok : AddrsOk s) : s.blocker w = some b :=
  ok.blocker_eq blocked.member blocked.addr

/-- What a step does to the blocked requests: a request that stays blocked has the same
blocker, perhaps with a wider range, and at most one request is blocked anew. -/
theorem lockStep_blocked (e : LockEvent) (addrs : AddrsOk s) (ok : WaitersOk s)
    (hw : w ∈ (lockStep s e).blocked) :
    (w ∈ s.blocked ∧ ∃ b b', Blocked s w b ∧ Widens b b' ∧ Blocked (lockStep s e) w b') ∨
    ∃ ino req alloc alloc2 fl, e = .call ino req alloc alloc2 ∧
      conflicting (s.iFlock ino) req = some fl ∧ posixLocksDeadlock s req.lock fl = false ∧
      w = ⟨req.lock, ino, fl.addr, isPosix fl && !isOfdlck fl⟩ ∧
      (lockStep s e).blocked = w :: s.blocked ∧ Blocked (lockStep s e) w fl := by
  have stays : ∀ s' : LockState, s'.iFlock = s.iFlock → w ∈ s.blocked →
      ∃ b b', Blocked s w b ∧ Widens b b' ∧ Blocked s' w b' := by
    intro s' same hw
    obtain ⟨b, blocked⟩ := ok w hw
    exact ⟨b, b, blocked, Widens.refl b, blocked.of_iFlock same⟩
  cases e with
  | deleteBlock addr =>
    have hw' : w ∈ s.blocked := mem_of_mem_filter hw
    exact .inl ⟨hw', stays _ rfl hw'⟩
  | call ino req alloc alloc2 =>
    rw [lockStep] at hw ⊢
    rcases posixLockFile_cases s ino req alloc alloc2 with
      ⟨fl, hfl, hcall | ⟨_, hcall⟩ | ⟨free, hcall⟩⟩ | ⟨_, _, hcall⟩ |
      ⟨_, _, newFl, newFl2, first, second, hcall⟩ <;> rw [hcall] at hw ⊢
    · exact .inl ⟨hw, stays _ rfl hw⟩
    · exact .inl ⟨hw, stays _ rfl hw⟩
    · rcases mem_cons.mp hw with rfl | hw
      · obtain ⟨mem, conflict⟩ := conflicting_some hfl
        have hposix := ((posixLocksConflict_iff _ _).mp conflict).1
        refine .inr ⟨ino, req, alloc, alloc2, fl, rfl, hfl, free, rfl, rfl, mem, rfl, conflict, ?_⟩
        simp [isPosix, hposix]
      · exact .inl ⟨hw, stays _ rfl hw⟩
    · exact .inl ⟨hw, stays _ rfl hw⟩
    obtain ⟨hw', hwoken⟩ := mem_filter.mp hw
    obtain ⟨b, blocked⟩ := ok w hw'
    refine .inl ⟨hw', b, ?_⟩
    by_cases hino : w.ino = ino
    · have mem := blocked.member
      rw [hino] at mem
      rcases (posixUpdate_keeps req (addrs.addrs ino first second)).kept b mem with
        h | ⟨b', hb', widens⟩
      · rw [blocked.addr] at h
        simp [h] at hwoken
      · exact ⟨b', blocked, widens, blocked.widen widens (by simpa only [hino, if_true] using hb')⟩
    · exact ⟨b, blocked, Widens.refl b,
        blocked.widen (Widens.refl b) (by simpa only [if_neg hino] using blocked.member)⟩

theorem lockStep_waitersOk (s : LockState) (e : LockEvent) (addrs : AddrsOk s) (ok : WaitersOk s) :
    WaitersOk (lockStep s e) := by
  intro w hw
  rcases lockStep_blocked e addrs ok hw with
    ⟨_, _, b', _, _, blocked⟩ | ⟨_, _, _, _, fl, _, _, _, _, _, blocked⟩
  · exact ⟨b', blocked⟩
  · exact ⟨fl, blocked⟩

end Linux318.Source.Fs
