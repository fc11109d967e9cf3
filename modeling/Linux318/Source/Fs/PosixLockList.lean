import Linux318.Lib.Grouped
import Linux318.Source.Fs.PosixLockCarve

/-!
The lock list of one inode in normal form, the map from owners and offsets to lock modes
that it stands for, and what one update does to both.
-/
namespace Linux318.Source.Fs
open Lib
open List hiding span
open FileLock (span)

variable {owner : LockOwner} {v offset : Int} {t type : LockType}

structure LockListOk (locks : List FileLock) : Prop where
  posix : ∀ fl ∈ locks, fl.kind = .posix
  range : ∀ fl ∈ locks, 0 ≤ fl.flStart ∧ fl.flStart ≤ fl.flEnd ∧ fl.flEnd ≤ offsetMax
  type : ∀ fl ∈ locks, fl.flType = .rdlck ∨ fl.flType = .wrlck
  contiguous : Grouped FileLock.flOwner locks
  ordered : locks.Pairwise fun a b => a.flOwner = b.flOwner →
    a.flEnd < b.flStart ∧ (a.flType = b.flType → a.flEnd + 1 < b.flStart)
  exclusive : ∀ a ∈ locks, ∀ b ∈ locks, a.flOwner ≠ b.flOwner → locksOverlap a b = true →
    a.flType = .rdlck ∧ b.flType = .rdlck

theorem LockListOk.nil : LockListOk [] := by
  constructor <;> simp [Grouped.nil]

def ownLocks (owner : LockOwner) (locks : List FileLock) : List FileLock :=
  locks.filter fun fl => fl.flOwner = owner

theorem ownLocks_split {x y z : List FileLock}
    (split : KeySplit FileLock.flOwner owner x y z) : ownLocks owner (x ++ y ++ z) = y := by
  have hx : x.filter (fun fl => decide (fl.flOwner = owner)) = [] :=
    filter_eq_nil_iff.mpr fun r hr => by simpa using split.before r hr
  have hy : y.filter (fun fl => decide (fl.flOwner = owner)) = y :=
    filter_eq_self.mpr fun r hr => by simpa using split.own r hr
  have hz : z.filter (fun fl => decide (fl.flOwner = owner)) = [] :=
    filter_eq_nil_iff.mpr fun r hr => by simpa using split.after r hr
  simp only [ownLocks, filter_append, hx, hy, hz, append_nil, nil_append]

theorem LockListOk.own {x y z : List FileLock} (ok : LockListOk (x ++ y ++ z))
    (split : KeySplit FileLock.flOwner owner x y z) : OwnLocks owner y where
  owned := split.own
  nonempty := fun fl hfl => (ok.range fl (by simp [hfl])).2.1
  held := by
    intro fl hfl
    rcases ok.type fl (by simp [hfl]) with h | h <;> simp [h]
  sorted := by
    have hy := (pairwise_append.mp (pairwise_append.mp ok.ordered).1).2.1
    refine hy.imp_of_mem fun {a b} ha hb apart => ?_
    exact apart ((split.own a ha).trans (split.own b hb).symm)

/-- An update that succeeds carves the owner's locks. -/
theorem posixUpdate_carved {locks : List FileLock} {req : PosixRequest} {newFl newFl2 : Option Nat}
    (ok : LockListOk locks) (addrs : Addrs locks newFl newFl2)
    (replaces : ReplacesLast req.lock (ownLocks req.flOwner locks))
    (success : (posixUpdate locks req newFl newFl2).error = .ok) :
    ∃ x y z, locks = x ++ y ++ z ∧ KeySplit FileLock.flOwner req.flOwner x y z ∧
      (y = [] → z = []) ∧ ∃ y' start fin,
        Carved x y z req.lock (posixUpdate locks req newFl newFl2).iFlock y' start fin := by
  have hother : ∀ fl ∈ locks, otherOwner req.lock fl = decide (fl.flOwner ≠ req.flOwner) := by
    intro fl hfl
    have hcomm : req.flOwner = fl.flOwner ↔ fl.flOwner = req.flOwner := eq_comm
    simp [otherOwner, isPosix, ok.posix fl hfl, posixSameOwner, PosixRequest.lock, hcomm]
  obtain ⟨y, z, hdrop, closed, split⟩ := ok.contiguous.split req.flOwner
  obtain ⟨taken, dropped⟩ := while_congr hother
  rw [← dropped] at hdrop
  rw [← taken] at split
  have hlocks : locks = locks.takeWhile (otherOwner req.lock) ++ y ++ z := by
    rw [append_assoc, ← hdrop, takeWhile_append_dropWhile]
  refine ⟨_, y, z, hlocks, split, closed, ?_⟩
  generalize hx : locks.takeWhile (otherOwner req.lock) = x at *
  have own : OwnLocks req.flOwner y := LockListOk.own (hlocks ▸ ok) split
  rw [hlocks, ownLocks_split split] at replaces
  let start : Walk :=
    { passed := x, request := req.lock, linked := false, added := false, left := none,
      right := false, newFl := newFl, woken := [] }
  have hu : posixUpdate locks req newFl newFl2 =
      finishUpdate req.flExists (processLocks start (y ++ z)) newFl2 := by
    simp only [posixUpdate, hdrop, hx, start]
  have opening : Opening x [] req.lock newFl start := by
    constructor <;> simp [start]
    constructor <;> simp
  rcases processLocks_shape x z req.lock newFl y [] start opening own
      (fun fl hfl => ok.posix fl (by rw [hlocks]; simp [hfl]))
      (fun r hr => split.after r (mem_of_mem_head? hr)) req.range.2.1 (by
        have nodup := addrs.nodup
        rw [hlocks, map_append] at nodup
        simpa using (nodup_append.mp nodup).1)
      replaces with failed | ⟨low, gone, stay, hy, shape⟩
  · simp [hu, finishUpdate, failed] at success
  rw [hu] at success ⊢
  subst hy
  rw [hlocks] at addrs
  have addrs' : Addrs (x ++ low ++ gone ++ stay ++ z) newFl newFl2 := by
    simpa only [append_assoc] using addrs
  have kinds : ∀ fl ∈ low ++ gone ++ stay, fl.kind = req.lock.kind := fun fl hfl =>
    ok.posix fl (hlocks ▸ mem_append_left _ (mem_append_right _ hfl))
  exact shape.finishUpdate own kinds addrs' req.range.2.1 success

section Preserved
variable {x y z y' locks : List FileLock} {req : PosixRequest} {start fin : Int}
  (ok : LockListOk (x ++ y ++ z))
  (split : KeySplit FileLock.flOwner req.flOwner x y z)
  (carved : Carved x y z req.lock locks y' start fin)

theorem mem_span_iff {l : List FileLock} : Span.Holds (l.map span) v t ↔
      ∃ fl ∈ l, fl.flType = t ∧ fl.flStart ≤ v ∧ v ≤ fl.flEnd := by
  simp only [Span.Holds, mem_map]
  constructor
  · rintro ⟨_, ⟨fl, hfl, rfl⟩, found⟩
    exact ⟨fl, hfl, found⟩
  · rintro ⟨fl, hfl, found⟩
    exact ⟨fl.span, ⟨fl, hfl, rfl⟩, found⟩

theorem holds_window : Span.Holds (window req.lock start fin) v t ↔
      req.flType ≠ .unlck ∧ req.flType = t ∧ start ≤ v ∧ v ≤ fin := by
  by_cases unlock : req.flType = .unlck <;> simp [window, unlock, PosixRequest.lock, Span.Holds]

include carved in
theorem Carved.bounds : start ≤ req.flStart ∧ req.flEnd ≤ fin :=
  ⟨carved.starts, carved.ends⟩

include carved in
/-- A point that the new locks hold was held in the same mode before, or is requested. -/
theorem Carved.holds_new (holds : Span.Holds (y'.map span) v t) :
    (req.flType ≠ .unlck ∧ t = req.flType ∧ req.flStart ≤ v ∧ v ≤ req.flEnd) ∨
    (Span.Holds (y.map span) v t ∧ (v < req.flStart ∨ req.flEnd < v)) := by
  rw [carved.spans, Span.holds_carve, holds_window] at holds
  have bounds := carved.bounds
  rcases holds with ⟨lock, rfl, hlo, hhi⟩ | ⟨hold, out⟩
  · by_cases hv : req.flStart ≤ v ∧ v ≤ req.flEnd
    · exact .inl ⟨lock, rfl, hv⟩
    · exact .inr ⟨carved.covered v hlo hhi (show v < req.flStart ∨ req.flEnd < v by omega),
        by omega⟩
  · exact .inr ⟨hold, by omega⟩

include ok carved in
theorem Carved.nonempty_new : ∀ fl ∈ y', fl.flStart ≤ fl.flEnd := by
  have bounds := carved.bounds
  have h3 := req.range
  have hy : ∀ r ∈ y.map span, r.lo ≤ r.hi := by
    rw [forall_mem_map]
    exact fun fl hfl => (ok.range fl (by simp [hfl])).2.1
  have hnew : ∀ r ∈ window req.lock start fin, r.lo ≤ r.hi := by
    intro r hr
    unfold window at hr
    split at hr
    · simp at hr
    rw [mem_singleton.mp hr]
    show start ≤ fin
    omega
  have hcarve : ∀ r ∈ Span.carve start fin (window req.lock start fin) (y.map span),
      r.lo ≤ r.hi := Span.nonempty_carve hy hnew
  rw [← carved.spans, forall_mem_map] at hcarve
  exact hcarve

include ok carved in
/-- The new locks have a type that can be held, and lie within the offsets. -/
theorem Carved.range_new {fl : FileLock} (hfl : fl ∈ y') :
    (0 ≤ fl.flStart ∧ fl.flStart ≤ fl.flEnd ∧ fl.flEnd ≤ offsetMax) ∧
    (fl.flType = .rdlck ∨ fl.flType = .wrlck) := by
  have hne := carved.nonempty_new ok fl hfl
  have hreq := req.range
  have point : ∀ v, fl.flStart ≤ v → v ≤ fl.flEnd →
      (0 ≤ v ∧ v ≤ offsetMax) ∧ (fl.flType = .rdlck ∨ fl.flType = .wrlck) := by
    intro v hlo hhi
    rcases carved.holds_new (mem_span_iff.mpr ⟨fl, hfl, rfl, hlo, hhi⟩) with
      ⟨lock, htype, _⟩ | ⟨hold, _⟩
    · have := req.posixType
      rw [htype]
      exact ⟨by omega, by tauto⟩
    · obtain ⟨r, hr, htype, _⟩ := mem_span_iff.mp hold
      have hrange := ok.range r (by simp [hr])
      rw [← htype]
      exact ⟨by omega, ok.type r (by simp [hr])⟩
  have hs := point fl.flStart (le_refl _) hne
  have he := point fl.flEnd hne (le_refl _)
  exact ⟨⟨hs.1.1, hne, he.1.2⟩, hs.2⟩

include ok split carved in
theorem Carved.sorted_new : y'.Pairwise fun a b => Span.Apart a.span b.span := by
  have bounds := carved.bounds
  have h3 := req.range
  have own := ok.own split
  have sorted : (y.map span).Pairwise Span.Apart := pairwise_map.mpr own.sorted
  rw [← pairwise_map (R := Span.Apart), carved.spans, window]
  split
  · exact Span.pairwise_carve_nil sorted (by omega)
  · exact Span.pairwise_carve_single sorted (by omega) carved.absorbs

theorem locksOverlap_iff (a b : FileLock) :
    locksOverlap a b = true ↔ b.flStart ≤ a.flEnd ∧ a.flStart ≤ b.flEnd := by
  simp [locksOverlap]

variable (free : req.flType ≠ .unlck → ∀ p ∈ x ++ y ++ z, posixLocksConflict req.lock p = false)

include ok split carved free in
/-- A request that passed the conflict check only meets read locks of others. -/
theorem Carved.exclusive_new
    {fl p : FileLock} (hfl : fl ∈ y') (hp : p ∈ x ++ z) (overlap : locksOverlap fl p = true) :
    fl.flType = .rdlck ∧ p.flType = .rdlck := by
  have hmem : p ∈ x ++ y ++ z := by
    simp only [mem_append] at hp ⊢
    tauto
  have howner : p.flOwner ≠ req.flOwner := by
    rcases mem_append.mp hp with hp | hp
    · exact split.before p hp
    · exact split.after p hp
  rw [locksOverlap_iff] at overlap
  have hne := carved.nonempty_new ok fl hfl
  have hp' := ok.range p hmem
  -- a point that both locks cover
  let v := max fl.flStart p.flStart
  rcases carved.holds_new (mem_span_iff.mpr ⟨fl, hfl, rfl, (by omega : fl.flStart ≤ v),
      (by omega : v ≤ fl.flEnd)⟩) with ⟨lock, htype, hlo, hhi⟩ | ⟨hold, _⟩
  · have hfree := free lock p hmem
    rw [← Bool.not_eq_true, posixLocksConflict_iff] at hfree
    have hmeet : p.flStart ≤ req.lock.flEnd ∧ req.lock.flStart ≤ p.flEnd := by
      simp only [PosixRequest.lock]
      omega
    have hwr : ¬ (p.flType = .wrlck ∨ req.flType = .wrlck) := fun h =>
      hfree ⟨ok.posix p hmem, Ne.symm howner, hmeet, h⟩
    have h4 := ok.type p hmem
    have h5 := req.posixType
    rw [htype]
    tauto
  · obtain ⟨r, hr, htype, hlo, hhi⟩ := mem_span_iff.mp hold
    have hrp := ok.exclusive r (by simp [hr]) p hmem (by rw [split.own r hr]; exact Ne.symm howner)
      (by rw [locksOverlap_iff]; omega)
    exact ⟨htype ▸ hrp.1, hrp.2⟩

include ok split carved free in
theorem Carved.listOk (closed : y = [] → z = []) : LockListOk locks := by
  have hxz : ∀ fl ∈ x ++ z, fl ∈ x ++ y ++ z := by
    intro fl hfl
    simp only [mem_append] at hfl ⊢
    tauto
  have hcases : ∀ fl ∈ x ++ y' ++ z, fl ∈ y' ∨ fl ∈ x ++ z := by
    intro fl hfl
    simp only [mem_append] at hfl ⊢
    tauto
  have howned : ∀ fl ∈ y', fl.flOwner = req.flOwner := fun fl hfl => (carved.owners fl hfl).1
  rw [carved.list]
  constructor
  case posix =>
    intro fl hfl
    rcases hcases fl hfl with hfl | hfl
    · exact (carved.owners fl hfl).2
    · exact ok.posix fl (hxz fl hfl)
  case range =>
    intro fl hfl
    rcases hcases fl hfl with hfl | hfl
    · exact (carved.range_new ok hfl).1
    · exact ok.range fl (hxz fl hfl)
  case type =>
    intro fl hfl
    rcases hcases fl hfl with hfl | hfl
    · exact (carved.range_new ok hfl).2
    · exact ok.type fl (hxz fl hfl)
  case contiguous => exact ok.contiguous.replace split closed howned
  case ordered =>
    obtain ⟨hxy, hz, hxyz⟩ := pairwise_append.mp ok.ordered
    obtain ⟨hx, _, _⟩ := pairwise_append.mp hxy
    refine pairwise_append.mpr ⟨pairwise_append.mpr ⟨hx, ?_, ?_⟩, hz, ?_⟩
    · exact (carved.sorted_new ok split).imp fun {a b} apart (_ : a.flOwner = b.flOwner) => apart
    · intro a ha b hb same
      exact absurd (same.trans (howned b hb)) (split.before a ha)
    intro a ha b hb same
    rcases mem_append.mp ha with ha | ha
    · exact hxyz a (mem_append_left _ ha) b hb same
    · exact absurd (same.symm.trans (howned a ha)) (split.after b hb)
  case exclusive =>
    intro a ha b hb hne overlap
    rcases hcases a ha with ha | ha <;> rcases hcases b hb with hb | hb
    · exact absurd ((howned a ha).trans (howned b hb).symm) hne
    · exact carved.exclusive_new ok split free ha hb overlap
    · have := carved.exclusive_new ok split free hb ha
        ((locksOverlap_iff b a).mpr ((locksOverlap_iff a b).mp overlap).symm)
      exact this.symm
    · exact ok.exclusive a (hxz a ha) b (hxz b hb) hne overlap

end Preserved

inductive LockMode where
  | unlocked | read | write
  deriving DecidableEq, Repr

def holdsAt (locks : List FileLock) (owner : LockOwner) (type : LockType) (offset : Int) : Bool :=
  locks.any fun fl => isPosix fl && fl.flOwner = owner && fl.flType = type &&
    fl.flStart ≤ offset && offset ≤ fl.flEnd

def lockMode (locks : List FileLock) (owner : LockOwner) (offset : Int) : LockMode :=
  if holdsAt locks owner .wrlck offset then .write
  else if holdsAt locks owner .rdlck offset then .read
  else .unlocked

def LockType.mode : LockType → LockMode
  | .rdlck => .read
  | .wrlck => .write
  | _ => .unlocked

theorem holdsAt_iff {locks : List FileLock} : holdsAt locks owner type offset = true ↔
      ∃ fl ∈ locks, fl.kind = .posix ∧ fl.flOwner = owner ∧ fl.flType = type ∧
        fl.flStart ≤ offset ∧ offset ≤ fl.flEnd := by
  simp [holdsAt, isPosix, and_assoc]

section Mode
variable {x y z y' locks : List FileLock} {req : PosixRequest} {start fin : Int}
  (ok : LockListOk (x ++ y ++ z))
  (split : KeySplit FileLock.flOwner req.flOwner x y z)
  (carved : Carved x y z req.lock locks y' start fin)

/-- The owner's locks decide what the owner holds. -/
theorem holdsAt_own {own : List FileLock} (hx : ∀ fl ∈ x, fl.flOwner ≠ owner)
    (hz : ∀ fl ∈ z, fl.flOwner ≠ owner)
    (howned : ∀ fl ∈ own, fl.flOwner = owner ∧ fl.kind = .posix) :
    holdsAt (x ++ own ++ z) owner type offset = true ↔
      Span.Holds (own.map span) offset type := by
  rw [holdsAt_iff, mem_span_iff]
  constructor
  · rintro ⟨fl, hfl, _, howner, found⟩
    simp only [mem_append] at hfl
    rcases hfl with (hfl | hfl) | hfl
    · exact absurd howner (hx fl hfl)
    · exact ⟨fl, hfl, found⟩
    · exact absurd howner (hz fl hfl)
  · rintro ⟨fl, hfl, found⟩
    exact ⟨fl, by simp [hfl], (howned fl hfl).2, (howned fl hfl).1, found⟩

include ok split carved in
/-- The owner holds the requested type in the requested range, and what it held outside. -/
theorem Carved.holdsAt_owner (held : type ≠ .unlck) (offset : Int) :
    holdsAt locks req.flOwner type offset = true ↔
      if req.flStart ≤ offset ∧ offset ≤ req.flEnd then req.flType = type
      else holdsAt (x ++ y ++ z) req.flOwner type offset = true := by
  have bounds := carved.bounds
  have own := ok.own split
  rw [carved.list, holdsAt_own split.before split.after carved.owners,
    holdsAt_own split.before split.after fun fl hfl => ⟨split.own fl hfl, ok.posix fl (by simp [hfl])⟩]
  rw [carved.spans, Span.holds_carve, holds_window]
  split
  · next inside =>
    constructor
    · rintro (⟨_, rfl, _⟩ | ⟨_, out⟩)
      · rfl
      · omega
    · rintro rfl
      exact .inl ⟨held, rfl, by omega, by omega⟩
  · next out =>
    constructor
    · rintro (⟨_, rfl, hlo, hhi⟩ | ⟨hold, _⟩)
      · exact carved.covered offset hlo hhi (show offset < req.flStart ∨ req.flEnd < offset by omega)
      · exact hold
    intro hold
    by_cases hwin : start ≤ offset ∧ offset ≤ fin
    · have hreq := carved.covered offset hwin.1 hwin.2
        (show offset < req.flStart ∨ req.flEnd < offset by omega)
      have hsame : req.flType = type := Span.holds_unique (pairwise_map.mpr own.sorted) hreq hold
      exact .inl ⟨hsame ▸ held, hsame, hwin⟩
    · exact .inr ⟨hold, by omega⟩

include split carved in
theorem Carved.holdsAt_other (hne : owner ≠ req.flOwner) (type : LockType) (offset : Int) :
    holdsAt locks owner type offset = holdsAt (x ++ y ++ z) owner type offset := by
  rw [Bool.eq_iff_iff, holdsAt_iff, holdsAt_iff, carved.list]
  constructor
  · rintro ⟨fl, hfl, found⟩
    refine ⟨fl, ?_, found⟩
    simp only [mem_append] at hfl ⊢
    rcases hfl with (hfl | hfl) | hfl
    · exact .inl (.inl hfl)
    · exact absurd (found.2.1.symm.trans (carved.owners fl hfl).1) hne
    · exact .inr hfl
  · rintro ⟨fl, hfl, found⟩
    refine ⟨fl, ?_, found⟩
    simp only [mem_append] at hfl ⊢
    rcases hfl with (hfl | hfl) | hfl
    · exact .inl (.inl hfl)
    · exact absurd (found.2.1.symm.trans (split.own fl hfl)) hne
    · exact .inr hfl

include ok split carved in
/-- An update sets the owner's modes in the requested range and no other mode. -/
theorem Carved.lockMode_eq (owner : LockOwner) (offset : Int) : lockMode locks owner offset =
      if owner = req.flOwner ∧ req.flStart ≤ offset ∧ offset ≤ req.flEnd then req.flType.mode
      else lockMode (x ++ y ++ z) owner offset := by
  by_cases howner : owner = req.flOwner
  · subst howner
    have hwr := carved.holdsAt_owner ok split (show LockType.wrlck ≠ .unlck by simp) offset
    have hrd := carved.holdsAt_owner ok split (show LockType.rdlck ≠ .unlck by simp) offset
    by_cases inside : req.flStart ≤ offset ∧ offset ≤ req.flEnd
    · rw [if_pos inside] at hwr hrd
      rw [if_pos ⟨rfl, inside⟩, lockMode]
      simp only [hwr, hrd]
      rcases req.posixType with h | h | h <;> simp [h, LockType.mode]
    · rw [if_neg inside] at hwr hrd
      rw [if_neg fun h => inside h.2, lockMode, lockMode]
      simp only [hwr, hrd]
  · rw [if_neg fun h => howner h.1, lockMode, lockMode, carved.holdsAt_other split howner,
      carved.holdsAt_other split howner]

end Mode

end Linux318.Source.Fs
