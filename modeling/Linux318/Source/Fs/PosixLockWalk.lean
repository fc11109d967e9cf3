import Linux318.Lib.Span
import Linux318.Source.Fs.PosixLockFile

/-!
What the loop of `__posix_lock_file` does to the records of one owner. Those records are
a list of ranges in normal form; the loop finds the window that the request takes once it
has absorbed the records of its type, and the code after the loop carves that window out.
-/
namespace Linux318.Source.Fs
open Lib List

variable {owner : LockOwner} {fl request : FileLock} {locks base stay : List FileLock} {addr : Nat}
  {start fin : Int} {type : LockType}

def FileLock.span (fl : FileLock) : Span LockType := ⟨fl.flStart, fl.flEnd, fl.flType⟩

structure OwnLocks (owner : LockOwner) (locks : List FileLock) : Prop where
  owned : ∀ fl ∈ locks, fl.flOwner = owner
  nonempty : ∀ fl ∈ locks, fl.flStart ≤ fl.flEnd
  held : ∀ fl ∈ locks, fl.flType ≠ .unlck
  sorted : locks.Pairwise fun a b => Span.Apart a.span b.span

theorem OwnLocks.of_cons (own : OwnLocks owner (fl :: locks)) : OwnLocks owner locks where
  owned := fun r mem => own.owned r (mem_cons_of_mem _ mem)
  nonempty := fun r mem => own.nonempty r (mem_cons_of_mem _ mem)
  held := fun r mem => own.held r (mem_cons_of_mem _ mem)
  sorted := (pairwise_cons.mp own.sorted).2

theorem OwnLocks.head_before {r : FileLock}
    (own : OwnLocks owner (fl :: locks)) (mem : r ∈ locks) : fl.flEnd < r.flStart :=
  ((pairwise_cons.mp own.sorted).1 r mem).1

/-- Every lock starts after the request, with a gap if it has the request's type. -/
def Beyond (request : FileLock) (locks : List FileLock) : Prop :=
  ∀ r ∈ locks, request.flEnd < r.flStart ∧
    (r.flType = request.flType → request.flEnd + 1 < r.flStart)

/-- Where the loop stopped: before a lock that reaches over the end of the request
(`right`), or before locks beyond it. -/
def StopsAt (request : FileLock) (right : Bool) (locks : List FileLock) : Prop :=
  match right, locks with
  | true, r :: tail => r.flType ≠ request.flType ∧ r.flStart ≤ request.flEnd ∧
      request.flEnd < r.flEnd ∧ Beyond request tail
  | true, [] => False
  | false, _ => Beyond request locks

theorem OwnLocks.beyond (own : OwnLocks owner (fl :: locks)) (reach : request.flEnd < fl.flEnd) :
    Beyond request locks := by
  intro r mem
  have hfl := own.head_before mem
  exact ⟨by omega, fun _ => by omega⟩

theorem OwnLocks.beyond_cons
    (own : OwnLocks owner (fl :: locks)) (after : request.flEnd < fl.flStart)
    (gap : fl.flType = request.flType → request.flEnd + 1 < fl.flStart) :
    Beyond request (fl :: locks) := by
  have hfl := own.nonempty fl mem_cons_self
  intro r mem
  rcases mem_cons.mp mem with rfl | mem
  · exact ⟨after, gap⟩
  · exact own.beyond (by omega) r mem

theorem setRange_append (addr : Nat) (start fin : Int) (a b : List FileLock) :
    setRange addr start fin (a ++ b) = setRange addr start fin a ++ setRange addr start fin b :=
  map_append

theorem setRange_of_ne
    (absent : ∀ fl ∈ locks, fl.addr ≠ addr) : setRange addr start fin locks = locks := by
  rw [setRange, map_congr_left, map_id]
  intro fl mem
  rw [if_neg (absent fl mem), id]

theorem setEnd_append (addr : Nat) (fin : Int) (a b : List FileLock) :
    setEnd addr fin (a ++ b) = setEnd addr fin a ++ setEnd addr fin b :=
  map_append

theorem setEnd_of_ne (absent : ∀ fl ∈ locks, fl.addr ≠ addr) : setEnd addr fin locks = locks := by
  rw [setEnd, map_congr_left, map_id]
  intro fl mem
  rw [if_neg (absent fl mem), id]

/-- The loop stops at the first lock of another owner. -/
theorem processLocks_other (w : Walk) (locks : List FileLock)
    (other : ∀ fl ∈ locks.head?, fl.flOwner ≠ w.request.flOwner) :
    processLocks w locks = ⟨w, locks, false⟩ := by
  cases locks with
  | nil => rfl
  | cons fl rest =>
    have hfl : w.request.flOwner ≠ fl.flOwner := Ne.symm (other fl (by simp))
    simp [processLocks, posixSameOwner, hfl]

/-- The record of the request in the list, if the pointer has moved into it. -/
def Walk.record (w : Walk) : List FileLock := if w.linked then [w.request] else []

theorem Walk.widen_passed {w : Walk} (passed : w.passed = base ++ w.record)
    (absent : w.linked = true → ∀ fl ∈ base, fl.addr ≠ w.request.addr) :
    (w.widen start fin).passed = base ++ (w.widen start fin).record := by
  cases linked : w.linked with
  | false => simpa [Walk.widen, Walk.record, linked] using passed
  | true =>
    simp only [Walk.widen, Walk.record, linked] at passed ⊢
    rw [passed, setRange_append, setRange_of_ne (absent linked)]
    simp [setRange]

/-- The state of the loop once `added` is set: only the end of the request, the stop
position and the woken list still change. -/
def Walk.advance (w : Walk) (base : List FileLock) (fin : Int) (right : Bool)
    (woken : List Nat) : Walk :=
  let request := { w.request with flEnd := fin }
  { w with
    request := request
    passed := base ++ (if w.linked then [request] else [])
    right := right
    woken := woken }

theorem Walk.advance_stop {w : Walk} (right : Bool) (passed : w.passed = base ++ w.record) :
    w.advance base w.request.flEnd right w.woken = { w with right := right } := by
  change { w with passed := base ++ w.record, right := right } = { w with right := right }
  rw [← passed]

theorem Walk.advance_self {w : Walk} (noRight : w.right = false)
    (passed : w.passed = base ++ w.record) : w.advance base w.request.flEnd false w.woken = w := by
  rw [Walk.advance_stop false passed, ← noRight]

/-- What the records `gone` that the loop removed tell about the new end. -/
structure Swallowed (request : FileLock) (fin : Int) (gone : List FileLock) : Prop where
  grows : request.flEnd ≤ fin
  inside : ∀ d ∈ gone, request.flStart ≤ d.flStart ∧ d.flEnd ≤ fin
  covered : ∀ v, request.flEnd < v → v ≤ fin →
    ∃ d ∈ gone, d.flType = request.flType ∧ d.flStart ≤ v ∧ v ≤ d.flEnd

theorem Swallowed.none (request : FileLock) : Swallowed request request.flEnd [] where
  grows := le_refl _
  inside := by simp
  covered := fun v h1 h2 => absurd h1 (by omega)

/-- A lock of the request's type that starts at most one past its end. -/
theorem Swallowed.merge {gone : List FileLock} (type : fl.flType = request.flType)
    (start : request.flStart ≤ fl.flStart) (near : fl.flStart ≤ request.flEnd + 1)
    (rest : Swallowed { request with flEnd := max request.flEnd fl.flEnd } fin gone) :
    Swallowed request fin (fl :: gone) where
  grows := by have := rest.grows; simp only at this; omega
  inside := by
    have grows := rest.grows
    intro d mem
    rcases mem_cons.mp mem with rfl | mem
    · exact ⟨start, by simp only at grows; omega⟩
    · exact rest.inside d mem
  covered := by
    intro v h1 h2
    by_cases hv : v ≤ fl.flEnd
    · exact ⟨fl, mem_cons_self, type, by omega, hv⟩
    · obtain ⟨d, mem, found⟩ := rest.covered v (by simp only; omega) h2
      exact ⟨d, mem_cons_of_mem _ mem, found⟩

/-- A lock of another type inside the request. -/
theorem Swallowed.remove {gone : List FileLock}
    (start : request.flStart ≤ fl.flStart) (inside : fl.flEnd ≤ request.flEnd)
    (rest : Swallowed request fin gone) : Swallowed request fin (fl :: gone) where
  grows := rest.grows
  inside := by
    have grows := rest.grows
    intro d mem
    rcases mem_cons.mp mem with rfl | mem
    · exact ⟨start, by omega⟩
    · exact rest.inside d mem
  covered := by
    intro v h1 h2
    obtain ⟨d, mem, found⟩ := rest.covered v h1 h2
    exact ⟨d, mem_cons_of_mem _ mem, found⟩

/-- From `added` on, the loop removes the locks inside the request, lets the request grow
over locks of its own type, and stops at the first lock beyond. -/
theorem processLocks_added (base z : List FileLock) (ys : List FileLock) (w : Walk)
    (added : w.added = true) (noRight : w.right = false) (passed : w.passed = base ++ w.record)
    (absent : w.linked = true → ∀ fl ∈ base, fl.addr ≠ w.request.addr)
    (own : OwnLocks w.request.flOwner ys) (other : ∀ fl ∈ z.head?, fl.flOwner ≠ w.request.flOwner)
    (after : ∀ fl ∈ ys, w.request.flStart ≤ fl.flStart)
    (unlinked : w.linked = false → ∀ fl ∈ ys, fl.flType ≠ w.request.flType) :
    ∃ gone stay fin right woken, ys = gone ++ stay ∧
      processLocks w (ys ++ z) = ⟨w.advance base fin right woken, stay ++ z, false⟩ ∧
      Swallowed w.request fin gone ∧
      StopsAt { w.request with flEnd := fin } right stay := by
  induction ys generalizing w with
  | nil =>
    refine ⟨[], [], w.request.flEnd, false, w.woken, rfl, ?_, Swallowed.none _, ?_⟩
    · rw [nil_append, processLocks_other w z other, Walk.advance_self noRight passed]
    · simp [StopsAt, Beyond]
  | cons fl ys ih =>
    have hown : w.request.flOwner = fl.flOwner := (own.owned fl mem_cons_self).symm
    have hne := own.nonempty fl mem_cons_self
    have hstart := after fl mem_cons_self
    have hafter : ∀ r ∈ ys, w.request.flStart ≤ r.flStart :=
      fun r mem => after r (mem_cons_of_mem _ mem)
    have hunlinked : w.linked = false → ∀ r ∈ ys, r.flType ≠ w.request.flType :=
      fun hl r mem => unlinked hl r (mem_cons_of_mem _ mem)
    by_cases htype : w.request.flType = fl.flType
    · have h1 : ¬ fl.flEnd < w.request.flStart - 1 := by omega
      by_cases h2 : fl.flStart - 1 > w.request.flEnd
      · refine ⟨[], fl :: ys, w.request.flEnd, false, w.woken, rfl, ?_, Swallowed.none _, ?_⟩
        · rw [Walk.advance_self noRight passed, cons_append, processLocks]
          simp [htype, h1, h2]
        · exact own.beyond_cons (by simp only; omega) (fun _ => by simp only; omega)
      have hs : (if fl.flStart > w.request.flStart then w.request.flStart else fl.flStart) =
          w.request.flStart := by split <;> omega
      have hf : (if fl.flEnd < w.request.flEnd then w.request.flEnd else fl.flEnd) =
          max w.request.flEnd fl.flEnd := by split <;> omega
      obtain ⟨gone, stay, fin, right, woken, hys, hrun, hswallow, hstop⟩ :=
        ih ((w.widen w.request.flStart (max w.request.flEnd fl.flEnd)).delete fl) added noRight
          (Walk.widen_passed passed absent) absent own.of_cons other hafter hunlinked
      refine ⟨fl :: gone, stay, fin, right, woken, by rw [hys, cons_append], ?_,
        Swallowed.merge htype.symm hstart (by omega) hswallow, hstop⟩
      rw [cons_append, processLocks]
      simp only [posixSameOwner, hown, if_pos htype, if_neg h1, if_neg h2, hs, hf, added]
      exact hrun
    have h1 : ¬ fl.flEnd < w.request.flStart := by omega
    by_cases h2 : fl.flStart > w.request.flEnd
    · refine ⟨[], fl :: ys, w.request.flEnd, false, w.woken, rfl, ?_, Swallowed.none _, ?_⟩
      · rw [Walk.advance_self noRight passed, cons_append, processLocks]
        simp [htype, h1, h2]
      · exact own.beyond_cons h2 (fun same => absurd same.symm htype)
    have hkeep : (if w.request.flType = .unlck then { w with added := true } else w) = w := by
      cases w
      cases added
      simp
    have h3 : ¬ fl.flStart < w.request.flStart := by omega
    by_cases h4 : fl.flEnd > w.request.flEnd
    · refine ⟨[], fl :: ys, w.request.flEnd, true, w.woken, rfl, ?_, Swallowed.none _, ?_⟩
      · rw [Walk.advance_stop true passed, cons_append, processLocks]
        simp [posixSameOwner, hown, htype, h1, h2, differentType, hkeep, h3, h4]
      · exact ⟨fun same => htype same.symm, by simp only; omega, h4, own.beyond h4⟩
    obtain ⟨gone, stay, fin, right, woken, hys, hrun, hswallow, hstop⟩ :=
      ih (w.delete fl) added noRight passed absent own.of_cons other hafter hunlinked
    refine ⟨fl :: gone, stay, fin, right, woken, by rw [hys, cons_append], ?_,
      Swallowed.remove hstart (by omega) hswallow, hstop⟩
    rw [cons_append, processLocks]
    simp only [posixSameOwner, hown, if_neg htype, if_neg h1, if_neg h2, differentType, hkeep,
      if_neg h3, if_neg h4, added, if_pos hstart]
    exact hrun

/-- The locks passed before the request meets anything: they start before it, and only
the one that `left` points to reaches into it. -/
structure Lower (start fin : Int) (type : LockType) (left : Option Nat)
    (locks : List FileLock) : Prop where
  starts : ∀ p ∈ locks, p.flStart < start
  ends : ∀ p ∈ locks, p.flEnd ≤ fin
  gap : ∀ p ∈ locks, p.flType = type → p.flEnd + 1 < start
  reaches : ∀ p ∈ locks, start ≤ p.flEnd → left = some p.addr

theorem Lower.snoc {left left' : Option Nat} (lower : Lower start fin type left locks)
    (starts : fl.flStart < start) (ends : fl.flEnd ≤ fin)
    (gap : fl.flType = type → fl.flEnd + 1 < start)
    (reaches : start ≤ fl.flEnd → left' = some fl.addr)
    (keep : ∀ p ∈ locks, start ≤ p.flEnd → left' = some p.addr) :
    Lower start fin type left' (locks ++ [fl]) := by
  constructor <;> intro p mem <;> rcases mem_append.mp mem with mem | mem
  · exact lower.starts p mem
  · exact mem_singleton.mp mem ▸ starts
  · exact lower.ends p mem
  · exact mem_singleton.mp mem ▸ ends
  · exact lower.gap p mem
  · exact mem_singleton.mp mem ▸ gap
  · exact keep p mem
  · exact mem_singleton.mp mem ▸ reaches

/-- How the loop leaves the owner's locks `before ++ gone ++ stay`: it has passed
`before`, removed `gone` and stopped at `stay`. -/
structure WalkShape (x before gone stay z : List FileLock) (req : FileLock)
    (newFl : Option Nat) (e : WalkEnd) : Prop where
  failed : e.failed = false
  rest : e.rest = stay ++ z
  passed : e.walk.passed = x ++ before ++ e.walk.record
  kind : e.walk.request.kind = req.kind
  owner : e.walk.request.flOwner = req.flOwner
  type : e.walk.request.flType = req.flType
  start : e.walk.request.flStart ≤ req.flStart
  fin : req.flEnd ≤ e.walk.request.flEnd
  pending : e.walk.linked = false → e.walk.request = req ∧ e.walk.newFl = newFl
  mode : e.walk.added = true → e.walk.linked = true ∨ req.flType = .unlck
  linked : e.walk.linked = true → e.walk.added = true ∧ req.flType ≠ .unlck ∧ gone ≠ [] ∧
    ((∃ d ∈ gone, d.addr = e.walk.request.addr) ∨ newFl = some e.walk.request.addr)
  idle : e.walk.added = false → gone = [] ∧
    (req.flType = .unlck → e.walk.left = none ∧ e.walk.right = false)
  lower : Lower e.walk.request.flStart e.walk.request.flEnd req.flType e.walk.left before
  left : ∀ a, e.walk.left = some a →
    (∃ p ∈ before, p.addr = a ∧ e.walk.request.flStart ≤ p.flEnd) ∨
    (e.walk.right = true ∧ ∃ r ∈ stay.head?, r.addr = a ∧ r.flStart < e.walk.request.flStart)
  split : e.walk.right = true → ∀ r ∈ stay.head?, r.flStart < e.walk.request.flStart →
    e.walk.left = some r.addr
  inside : ∀ d ∈ gone, e.walk.request.flStart ≤ d.flStart ∧ d.flEnd ≤ e.walk.request.flEnd
  covered : ∀ v, e.walk.request.flStart ≤ v → v ≤ e.walk.request.flEnd →
    v < req.flStart ∨ req.flEnd < v → ∃ d ∈ gone, d.flType = req.flType ∧ d.flStart ≤ v ∧ v ≤ d.flEnd
  stops : StopsAt e.walk.request e.walk.right stay

/-- The locks after one that the request replaces do not concern the request. This is
what the unlinked `fl->fl_next` makes the loop assume. -/
def ReplacesLast (req : FileLock) (locks : List FileLock) : Prop :=
  ∀ before fl after, locks = before ++ fl :: after → req.flType ≠ .unlck →
    fl.flType ≠ req.flType → req.flStart ≤ fl.flStart → fl.flEnd ≤ req.flEnd →
    (∀ m ∈ before, m.flType = req.flType → m.flEnd + 1 < req.flStart) → Beyond req after

instance (req : FileLock) (locks : List FileLock) : Decidable (Beyond req locks) :=
  inferInstanceAs (Decidable (∀ r ∈ locks, _))

theorem replacesLast_iff (req : FileLock) (locks : List FileLock) : ReplacesLast req locks ↔
    ∀ i : Fin locks.length, req.flType ≠ .unlck → locks[i].flType ≠ req.flType →
      req.flStart ≤ locks[i].flStart → locks[i].flEnd ≤ req.flEnd →
      (∀ m ∈ locks.take i, m.flType = req.flType → m.flEnd + 1 < req.flStart) →
      Beyond req (locks.drop (i + 1)) := by
  constructor
  · intro replaces i
    exact replaces _ _ _ (by simp)
  · rintro each before fl after rfl
    simpa using each ⟨before.length, by simp⟩

instance decidableReplacesLast (req : FileLock) (locks : List FileLock) :
    Decidable (ReplacesLast req locks) :=
  decidable_of_iff' _ (replacesLast_iff req locks)

theorem Lower.mono {start' fin' : Int} {left : Option Nat} (lower : Lower start fin type left locks)
    (grows : fin ≤ fin') (starts : ∀ p ∈ locks, p.flStart < start')
    (gap : ∀ p ∈ locks, p.flType = type → p.flEnd + 1 < start')
    (reaches : ∀ p ∈ locks, start' ≤ p.flEnd → start ≤ p.flEnd) :
    Lower start' fin' type left locks where
  starts := starts
  ends := fun p mem => le_trans (lower.ends p mem) grows
  gap := gap
  reaches := fun p mem h => lower.reaches p mem (reaches p mem h)

/-- A walk in the phase before `added`, or an unlock that has not removed anything. -/
structure Opening (x before : List FileLock) (req : FileLock) (newFl : Option Nat)
    (w : Walk) : Prop where
  passed : w.passed = x ++ before
  request : w.request = req
  linked : w.linked = false
  right : w.right = false
  newFl : w.newFl = newFl
  added : w.added = true → req.flType = .unlck
  idle : w.added = false → req.flType = .unlck → w.left = none
  lower : Lower req.flStart req.flEnd req.flType w.left before
  left : ∀ a, w.left = some a → ∃ p ∈ before, p.addr = a ∧ req.flStart ≤ p.flEnd

variable {x before z : List FileLock} {req : FileLock} {newFl : Option Nat} {w : Walk}

section
variable (opening : Opening x before req newFl w)
include opening

/-- The loop ends before anything was removed. -/
theorem Opening.shape_stop (beyond : Beyond req stay) :
    WalkShape x before [] stay z req newFl ⟨w, stay ++ z, false⟩ where
  failed := rfl
  rest := rfl
  passed := by simp [Walk.record, opening.linked, opening.passed]
  kind := by rw [opening.request]
  owner := by rw [opening.request]
  type := by rw [opening.request]
  start := by rw [opening.request]
  fin := by rw [opening.request]
  pending := fun _ => ⟨opening.request, opening.newFl⟩
  mode := fun h => .inr (opening.added h)
  linked := fun h => absurd h (by simp [opening.linked])
  idle := fun h => ⟨rfl, fun unlock => ⟨opening.idle h unlock, opening.right⟩⟩
  lower := by rw [opening.request]; exact opening.lower
  left := fun a h => .inl (by rw [opening.request]; exact opening.left a h)
  split := fun h => absurd h (by simp [opening.right])
  inside := by simp
  covered := by
    rw [opening.request]
    omega
  stops := by rw [opening.right, opening.request]; exact beyond

/-- The loop ends at a lock of another type that reaches over the end of the request. -/
theorem Opening.shape_right (type : fl.flType ≠ req.flType)
    (starts : fl.flStart ≤ req.flEnd) (reaches : req.flEnd < fl.flEnd) (beyond : Beyond req stay)
    (clear : ∀ p ∈ before, p.flEnd < fl.flStart) (added : Bool)
    (mode : added = true ↔ req.flType = .unlck) : WalkShape x before [] (fl :: stay) z req newFl
      ⟨{ w with
          added := added
          left := if fl.flStart < req.flStart then some fl.addr else w.left
          right := true }, fl :: stay ++ z, false⟩ where
  failed := rfl
  rest := rfl
  passed := by simp [Walk.record, opening.linked, opening.passed]
  kind := by simp only [opening.request]
  owner := by simp only [opening.request]
  type := by simp only [opening.request]
  start := by simp [opening.request]
  fin := by simp [opening.request]
  pending := fun _ => ⟨opening.request, opening.newFl⟩
  mode := fun h => .inr (mode.mp h)
  linked := fun h => absurd h (by simp [opening.linked])
  idle := fun h => ⟨rfl, fun unlock => absurd (mode.mpr unlock) (Bool.eq_false_iff.mp h)⟩
  lower := by
    simp only [opening.request]
    refine { opening.lower with reaches := fun p mem h => ?_ }
    have hp := clear p mem
    rw [if_neg (by omega)]
    exact opening.lower.reaches p mem h
  left := by
    simp only [opening.request]
    intro a h
    split at h
    · next hs =>
      cases h
      exact .inr ⟨trivial, fl, by simp, rfl, hs⟩
    · exact .inl (opening.left a h)
  split := by
    simp only [opening.request]
    intro _ r hr hs
    cases hr
    rw [if_pos hs]
  inside := by simp
  covered := by
    simp only [opening.request]
    omega
  stops := by
    simp only [opening.request]
    exact ⟨type, starts, reaches, beyond⟩

/-- The loop ends at a lock that the request replaces. -/
theorem Opening.shape_replace (spare : newFl = some addr) (lock : req.flType ≠ .unlck)
    (inside : req.flStart ≤ fl.flStart ∧ fl.flEnd ≤ req.flEnd) (beyond : Beyond req stay) :
    WalkShape x before [fl] stay z req newFl ⟨{ w.delete fl with
          passed := w.passed ++ [{ req with addr := addr }], request := { req with addr := addr },
          linked := true, newFl := none, added := true }, stay ++ z, false⟩ where
  failed := rfl
  rest := rfl
  passed := by simp [Walk.record, opening.passed]
  kind := rfl
  owner := rfl
  type := rfl
  start := le_refl _
  fin := le_refl _
  pending := fun h => absurd h (by simp)
  mode := fun _ => .inl rfl
  linked := fun _ => ⟨rfl, lock, by simp, .inr spare⟩
  idle := fun h => absurd h (by simp)
  lower := opening.lower
  left := fun a h => .inl (opening.left a h)
  split := fun h => absurd h (by simp [Walk.delete, opening.right])
  inside := by
    intro d mem
    rw [mem_singleton.mp mem]
    exact inside
  covered := by
    intro v h1 h2 h3
    simp only at h1 h2
    omega
  stops := by
    simp only [Walk.delete, opening.right]
    exact beyond

section
variable {ys : List FileLock} (own : OwnLocks req.flOwner (fl :: ys))
  (other : ∀ r ∈ z.head?, r.flOwner ≠ req.flOwner)
include own other

/-- The request merges with a lock of its type, and the loop goes on with that record. -/
theorem Opening.shape_merge (clear : ∀ p ∈ before, Span.Apart p.span fl.span)
    (nonempty : ∀ p ∈ before, p.flStart ≤ p.flEnd) (absent : ∀ r ∈ x ++ before, r.addr ≠ fl.addr)
    (kind : fl.kind = req.kind) (type : fl.flType = req.flType) (lock : req.flType ≠ .unlck)
    (above : req.flStart - 1 ≤ fl.flEnd) (near : fl.flStart - 1 ≤ req.flEnd) :
    let fl' :=
      { fl with flStart := min req.flStart fl.flStart, flEnd := max req.flEnd fl.flEnd }
    ∃ gone stay, fl :: ys = gone ++ stay ∧
      WalkShape x before gone stay z req newFl
        (processLocks { (w.widen fl'.flStart fl'.flEnd).pass fl' with
          request := fl', linked := true, added := true } (ys ++ z)) := by
  intro fl'
  have hown : fl.flOwner = req.flOwner := own.owned fl mem_cons_self
  obtain ⟨gone, stay, fin, right, woken, hys, hrun, hswallow, hstop⟩ :=
    processLocks_added (x ++ before) z ys { (w.widen fl'.flStart fl'.flEnd).pass fl' with
        request := fl', linked := true, added := true } rfl opening.right
      (by simp [Walk.pass, Walk.widen, Walk.record, opening.linked, opening.passed])
      (fun _ => absent) (by simpa only [fl', hown] using own.of_cons)
      (by simpa only [fl', hown] using other)
      (fun r mem => by have := own.head_before mem; simp only [fl']; omega)
      (fun h => absurd h (by simp))
  refine ⟨fl :: gone, stay, by rw [hys, cons_append], ?_⟩
  rw [hrun]
  have grows := hswallow.grows
  constructor
  case failed => rfl
  case rest => rfl
  case passed => rfl
  case kind => exact kind
  case owner => exact hown
  case type => exact type
  case start => exact min_le_left _ _
  case fin => exact le_trans (le_max_left _ _) grows
  case pending => exact fun h => absurd h (by simp [Walk.advance])
  case mode => exact fun _ => .inl rfl
  case linked => exact fun _ => ⟨rfl, lock, by simp, .inl ⟨fl, mem_cons_self, rfl⟩⟩
  case idle => exact fun h => absurd h (by simp [Walk.advance])
  case lower =>
    refine opening.lower.mono (le_trans (le_max_left _ _) grows) ?_ ?_ ?_
    · intro p mem
      have h1 := opening.lower.starts p mem
      have h2 := (clear p mem).1
      have h3 := nonempty p mem
      simp only [FileLock.span] at h2
      simp only [Walk.advance, fl']
      omega
    · intro p mem ptype
      have h1 := opening.lower.gap p mem ptype
      have h2 := (clear p mem).2 (ptype.trans type.symm)
      simp only [FileLock.span] at h2
      simp only [Walk.advance, fl']
      omega
    · intro p mem h
      have h2 := (clear p mem).1
      simp only [FileLock.span] at h2
      simp only [Walk.advance, fl'] at h
      omega
  case left =>
    intro a h
    obtain ⟨p, mem, paddr, hp⟩ := opening.left a h
    exact .inl ⟨p, mem, paddr, le_trans (min_le_left _ _) hp⟩
  case split =>
    intro _ r hr hs
    have mem : r ∈ ys := hys ▸ mem_append_right gone (mem_of_mem_head? hr)
    have := own.head_before mem
    simp only [Walk.advance, fl'] at hs
    omega
  case inside =>
    intro d mem
    rcases mem_cons.mp mem with rfl | mem
    · exact ⟨min_le_right _ _, le_trans (le_max_right _ _) grows⟩
    · exact hswallow.inside d mem
  case covered =>
    simp only [Walk.advance, fl']
    intro v h1 h2 h3
    by_cases hv : v ≤ max req.flEnd fl.flEnd
    · exact ⟨fl, mem_cons_self, type, by omega, by omega⟩
    · obtain ⟨d, mem, dtype, found⟩ := hswallow.covered v (by simp only [fl']; omega) h2
      exact ⟨d, mem_cons_of_mem _ mem, dtype.trans type, found⟩
  case stops => exact hstop

/-- An unlock removes a lock inside its range, and goes on. -/
theorem Opening.shape_unlock (unlock : req.flType = .unlck) (inside : req.flStart ≤ fl.flStart ∧
    fl.flEnd ≤ req.flEnd) : ∃ gone stay, fl :: ys = gone ++ stay ∧
      WalkShape x before gone stay z req newFl
        (processLocks (Walk.delete { w with added := true } fl) (ys ++ z)) := by
  have hne := own.nonempty fl mem_cons_self
  obtain ⟨gone, stay, fin, right, woken, hys, hrun, hswallow, hstop⟩ :=
    processLocks_added (x ++ before) z ys (Walk.delete { w with added := true } fl) rfl
      opening.right (by simp [Walk.delete, Walk.record, opening.linked, opening.passed])
      (fun h => absurd h (by simp [Walk.delete, opening.linked]))
      (by simpa only [Walk.delete, opening.request] using own.of_cons)
      (by simpa only [Walk.delete, opening.request] using other) (fun r mem => by
        have := own.head_before mem
        simp only [Walk.delete, opening.request]
        omega)
      (fun _ r mem => by
        simp only [Walk.delete, opening.request, unlock]
        exact own.held r (mem_cons_of_mem _ mem))
  have hnone : ∀ d ∈ gone, d.flType ≠ req.flType := by
    intro d mem
    rw [unlock]
    exact own.held d (by rw [hys]; simp [mem])
  have hfin : fin = req.flEnd := by
    have grows := hswallow.grows
    by_contra hlt
    obtain ⟨d, mem, dtype, _⟩ := hswallow.covered fin
      (by simp only [Walk.delete, opening.request] at grows ⊢; omega) (le_refl _)
    exact hnone d mem (by simpa only [Walk.delete, opening.request] using dtype)
  have hrequest : (Walk.advance (Walk.delete { w with added := true } fl) (x ++ before) fin
      right woken).request = req := by
    simp only [Walk.advance, Walk.delete, opening.request, hfin]
  refine ⟨fl :: gone, stay, by rw [hys, cons_append], ?_⟩
  rw [hrun]
  constructor
  case failed => rfl
  case rest => rfl
  case passed => rfl
  case kind => rw [hrequest]
  case owner => rw [hrequest]
  case type => rw [hrequest]
  case start => rw [hrequest]
  case fin => rw [hrequest]
  case pending => exact fun _ => ⟨hrequest, opening.newFl⟩
  case mode => exact fun _ => .inr unlock
  case linked => exact fun h => absurd h (by simp [Walk.advance, Walk.delete, opening.linked])
  case idle => exact fun h => absurd h (by simp [Walk.advance, Walk.delete])
  case lower => rw [hrequest]; exact opening.lower
  case left => rw [hrequest]; exact fun a h => .inl (opening.left a h)
  case split =>
    rw [hrequest]
    intro _ r hr hs
    have mem : r ∈ ys := hys ▸ mem_append_right gone (mem_of_mem_head? hr)
    have := own.head_before mem
    omega
  case inside =>
    rw [hrequest]
    intro d mem
    rcases mem_cons.mp mem with rfl | mem
    · exact inside
    · have := hswallow.inside d mem
      simpa only [Walk.delete, opening.request, hfin] using this
  case covered =>
    rw [hrequest]
    omega
  case stops =>
    simpa only [Walk.advance] using hstop

end

end

theorem OwnLocks.of_append {a b : List FileLock}
    (own : OwnLocks owner (a ++ b)) : OwnLocks owner b where
  owned := fun r mem => own.owned r (mem_append_right _ mem)
  nonempty := fun r mem => own.nonempty r (mem_append_right _ mem)
  held := fun r mem => own.held r (mem_append_right _ mem)
  sorted := (pairwise_append.mp own.sorted).2.1

theorem OwnLocks.apart {a b : List FileLock} {p r : FileLock}
    (own : OwnLocks owner (a ++ b)) (hp : p ∈ a) (hr : r ∈ b) : Span.Apart p.span r.span :=
  (pairwise_append.mp own.sorted).2.2 p hp r hr

/-- A lock that the walk passes on its way to the request. -/
theorem Opening.pass (opening : Opening x before req newFl w) (added : Bool)
    (mode : added = true → req.flType = .unlck) (left : Option Nat)
    (idle : added = false → req.flType = .unlck → left = none)
    (lower : Lower req.flStart req.flEnd req.flType left (before ++ [fl]))
    (hleft : ∀ a, left = some a → ∃ p ∈ before ++ [fl], p.addr = a ∧ req.flStart ≤ p.flEnd) :
    Opening x (before ++ [fl]) req newFl (Walk.pass { w with added := added, left := left } fl) where
  passed := by simp [Walk.pass, opening.passed]
  request := opening.request
  linked := opening.linked
  right := opening.right
  newFl := opening.newFl
  added := mode
  idle := idle
  lower := lower
  left := hleft

/-- The loop has failed for want of a spare record, with the list as it was, or it leaves the
owner's locks in the shape above. -/
def FailsOrShapes (x locks z : List FileLock) (req : FileLock) (newFl : Option Nat) (e : WalkEnd) :
    Prop :=
  e.failed = true ∨ ∃ low gone stay, locks = low ++ gone ++ stay ∧
    WalkShape x low gone stay z req newFl e

section Round
variable {ys : List FileLock} (opening : Opening x before req newFl w)
  (own : OwnLocks req.flOwner (before ++ fl :: ys)) (range : req.flStart ≤ req.flEnd)
include opening own range

/-- A lock below the request, which it does not touch if they are of one type -/
theorem Opening.pass_below (below : fl.flEnd < req.flStart)
    (gap : fl.flType = req.flType → fl.flEnd + 1 < req.flStart) :
    Opening x (before ++ [fl]) req newFl (w.pass fl) := by
  have hne := own.nonempty fl (by simp)
  refine opening.pass w.added opening.added w.left opening.idle
    (opening.lower.snoc (by omega) (by omega) gap (fun h => absurd h (by omega))
      opening.lower.reaches) fun a h => ?_
  obtain ⟨p, mem, found⟩ := opening.left a h
  exact ⟨p, mem_append_left _ mem, found⟩

variable (next : ∀ w', Opening x (before ++ [fl]) req newFl w' →
    FailsOrShapes x (before ++ fl :: ys) z req newFl (processLocks w' (ys ++ z)))
  (other : ∀ r ∈ z.head?, r.flOwner ≠ req.flOwner)
include next other

/-- A round at a lock of the type of the request -/
theorem Opening.round_same (htype : req.flType = fl.flType) (kind : fl.kind = req.kind)
    (addrs : ((x ++ before ++ fl :: ys).map FileLock.addr).Nodup) :
    FailsOrShapes x (before ++ fl :: ys) z req newFl (processLocks w (fl :: (ys ++ z))) := by
  have hfl : fl ∈ before ++ fl :: ys := by simp
  have own' := own.of_append
  have lock : req.flType ≠ .unlck := htype ▸ own.held fl hfl
  have hadded : w.added = false := by
    cases h : w.added with
    | false => rfl
    | true => exact absurd (opening.added h) lock
  rw [processLocks, opening.request]
  simp only [posixSameOwner, ← own.owned fl hfl, decide_true, Bool.not_true, if_pos htype]
  by_cases h1 : fl.flEnd < req.flStart - 1
  · rw [if_pos h1]
    exact next _ (opening.pass_below own range (by omega) fun _ => by omega)
  rw [if_neg h1]
  by_cases h2 : fl.flStart - 1 > req.flEnd
  · rw [if_pos h2]
    exact .inr ⟨before, [], fl :: ys, by simp, opening.shape_stop
      (own'.beyond_cons (by omega) fun _ => by omega)⟩
  have hs : (if fl.flStart > req.flStart then req.flStart else fl.flStart) =
      min req.flStart fl.flStart := by split <;> omega
  have hf : (if fl.flEnd < req.flEnd then req.flEnd else fl.flEnd) =
      max req.flEnd fl.flEnd := by split <;> omega
  have absent : ∀ r ∈ x ++ before, r.addr ≠ fl.addr := by
    intro r mem same
    rw [map_append, nodup_append] at addrs
    exact addrs.2.2 r.addr (mem_map_of_mem mem) fl.addr (by simp) same
  obtain ⟨gone, stay, hys, shape⟩ := opening.shape_merge own' other
    (fun p mem => own.apart mem mem_cons_self)
    (fun p mem => own.nonempty p (mem_append_left _ mem)) absent
    kind htype.symm lock (by omega) (by omega)
  refine .inr ⟨before, gone, stay, by rw [hys, append_assoc], ?_⟩
  rw [if_neg h2, hs, hf, hadded]
  exact shape

/-- A round at a lock of another type -/
theorem Opening.round_other (htype : req.flType ≠ fl.flType)
    (replaces : ReplacesLast req (before ++ fl :: ys)) :
    FailsOrShapes x (before ++ fl :: ys) z req newFl (processLocks w (fl :: (ys ++ z))) := by
  have hfl : fl ∈ before ++ fl :: ys := by simp
  have hne := own.nonempty fl hfl
  have own' := own.of_append
  have clear : ∀ p ∈ before, Span.Apart p.span fl.span :=
    fun p mem => own.apart mem mem_cons_self
  rw [processLocks, opening.request]
  simp only [posixSameOwner, ← own.owned fl hfl, decide_true, Bool.not_true, if_neg htype]
  by_cases h1 : fl.flEnd < req.flStart
  · rw [if_pos h1]
    exact next _ (opening.pass_below own range h1 fun same => absurd same.symm htype)
  rw [if_neg h1]
  by_cases h2 : fl.flStart > req.flEnd
  · rw [if_pos h2]
    exact .inr ⟨before, [], fl :: ys, by simp, opening.shape_stop
      (own'.beyond_cons h2 fun same => absurd same.symm htype)⟩
  rw [if_neg h2, differentType_eq opening.request]
  have hmode : (decide (req.flType = .unlck) || w.added) = true ↔ req.flType = .unlck := by
    rw [Bool.or_eq_true_iff, decide_eq_true_iff]
    exact or_iff_left_of_imp opening.added
  by_cases h3 : fl.flEnd > req.flEnd
  · rw [if_pos h3]
    exact .inr ⟨before, [], fl :: ys, by simp, opening.shape_right (Ne.symm htype)
      (by omega) h3 (own'.beyond h3) (fun p mem => (clear p mem).1) _ hmode⟩
  rw [if_neg h3]
  by_cases h4 : fl.flStart ≥ req.flStart
  · simp only [if_pos h4, if_neg (not_lt.mpr h4)]
    by_cases unlock : req.flType = .unlck
    · simp only [unlock]
      obtain ⟨gone, stay, hys, shape⟩ :=
        opening.shape_unlock own' other unlock ⟨h4, by omega⟩
      exact .inr ⟨before, gone, stay, by rw [hys, append_assoc], shape⟩
    have hadded : w.added = false := Bool.eq_false_iff.mpr fun h => unlock (opening.added h)
    simp only [unlock, decide_false, hadded, Bool.or_false, Bool.false_eq_true, if_false]
    cases hnew : newFl with
    | none =>
      left
      rw [opening.newFl, hnew]
    | some addr =>
      right
      rw [opening.newFl, hnew]
      have beyond : Beyond req ys := replaces before fl ys rfl unlock (Ne.symm htype) h4
        (by omega) opening.lower.gap
      have shape := opening.shape_replace (z := z) hnew unlock ⟨h4, by omega⟩ beyond
      rw [hnew] at shape
      exact ⟨before, [fl], ys, by simp, shape⟩
  · simp only [if_neg h4, if_pos (not_le.mp h4)]
    refine next _ (opening.pass _ hmode.mp (some fl.addr)
      (fun h unlock => absurd (hmode.mpr unlock) (by simp [h])) ?_ ?_)
    · refine opening.lower.snoc (by omega) (by omega) (fun same => absurd same.symm htype)
        (fun _ => rfl) fun p mem reach => ?_
      have := (clear p mem).1
      simp only [FileLock.span] at this
      omega
    · intro a h
      cases h
      exact ⟨fl, by simp, rfl, by omega⟩

end Round

/-- The whole loop, by induction on the locks of the owner that it has not reached. -/
theorem processLocks_shape (x z : List FileLock) (req : FileLock) (newFl : Option Nat)
    (ys before : List FileLock) (w : Walk) (opening : Opening x before req newFl w)
    (own : OwnLocks req.flOwner (before ++ ys)) (kinds : ∀ fl ∈ ys, fl.kind = req.kind)
    (other : ∀ r ∈ z.head?, r.flOwner ≠ req.flOwner) (range : req.flStart ≤ req.flEnd)
    (addrs : ((x ++ before ++ ys).map FileLock.addr).Nodup)
    (replaces : ReplacesLast req (before ++ ys)) :
    FailsOrShapes x (before ++ ys) z req newFl (processLocks w (ys ++ z)) := by
  induction ys generalizing before w with
  | nil =>
    refine .inr ⟨before, [], [], by simp, ?_⟩
    rw [nil_append, processLocks_other w z (by rw [opening.request]; exact other)]
    exact opening.shape_stop (show Beyond req [] by simp [Beyond])
  | cons fl ys ih =>
    have next : ∀ w' : Walk, Opening x (before ++ [fl]) req newFl w' →
        FailsOrShapes x (before ++ fl :: ys) z req newFl (processLocks w' (ys ++ z)) := by
      intro w' opening'
      have := ih (before ++ [fl]) w' opening' (by simpa using own)
        (fun r mem => kinds r (mem_cons_of_mem _ mem)) (by simpa using addrs)
        (by simpa using replaces)
      simpa using this
    by_cases htype : req.flType = fl.flType
    · exact opening.round_same own range next other htype (kinds fl mem_cons_self) addrs
    · exact opening.round_other own range next other htype replaces

end Linux318.Source.Fs
