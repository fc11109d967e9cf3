import Linux318.Source.Fs.PosixLockKept
import Linux318.Source.Fs.PosixLockWalk

/-!
The code of `__posix_lock_file` after the loop carves the window of the request out of
the owner's locks and leaves every other lock of the list where it is.
-/
namespace Linux318.Source.Fs
open Lib
open List hiding span
open FileLock (span)

def cutEnd (start : Int) (fl : FileLock) : FileLock := { fl with flEnd := min fl.flEnd (start - 1) }

variable {x low gone stay z : List FileLock} {req : FileLock} {newFl newFl2 : Option Nat}
  {e : WalkEnd} {start fin : Int} {type : LockType} {left : Option Nat}

variable {r : FileLock} {record : List FileLock}

theorem Lower.map_cutEnd_self (lower : Lower start fin type left low)
    (clear : ∀ p ∈ low, left ≠ some p.addr) : low.map (cutEnd start) = low := by
  rw [map_congr_left, map_id]
  intro p mem
  have hp : ¬ start ≤ p.flEnd := fun h => clear p mem (lower.reaches p mem h)
  simp only [cutEnd, id, min_eq_left (show p.flEnd ≤ start - 1 by omega)]

theorem Lower.setEnd_append {a : Nat} (lower : Lower start fin type (some a) low)
    (target : ∀ p ∈ low, p.addr = a → start ≤ p.flEnd) {rest : List FileLock}
    (hx : ∀ r ∈ x, r.addr ≠ a) (hrest : ∀ r ∈ rest, r.addr ≠ a) :
    setEnd a (start - 1) (x ++ low ++ rest) = x ++ low.map (cutEnd start) ++ rest := by
  have hlow : setEnd a (start - 1) low = low.map (cutEnd start) := by
    refine map_congr_left fun p mem => ?_
    by_cases hp : p.addr = a
    · have := target p mem hp
      rw [if_pos hp, cutEnd, min_eq_right (by omega)]
    · have : ¬ start ≤ p.flEnd := fun h => hp (Option.some.inj (lower.reaches p mem h)).symm
      rw [if_neg hp, cutEnd, min_eq_left (by omega)]
  rw [Fs.setEnd_append, Fs.setEnd_append, setEnd_of_ne hx, setEnd_of_ne hrest, hlow]

theorem Lower.filterMap_below (lower : Lower start fin type left low) :
    (low.map span).filterMap (Span.below start) = (low.map (cutEnd start)).map span := by
  rw [filterMap_map, map_map, filterMap_eq_map_iff_forall_eq_some]
  intro p mem
  exact if_pos (lower.starts p mem)

theorem Lower.filterMap_above (lower : Lower start fin type left low) :
    (low.map span).filterMap (Span.above fin) = [] := by
  rw [filterMap_eq_nil_iff, forall_mem_map]
  intro p mem
  exact if_neg (not_lt.mpr (lower.ends p mem))

theorem Beyond.filterMap_below (beyond : Beyond req stay) (range : req.flStart ≤ req.flEnd) :
    (stay.map span).filterMap (Span.below req.flStart) = [] := by
  rw [filterMap_eq_nil_iff, forall_mem_map]
  intro r mem
  have := (beyond r mem).1
  exact if_neg (by simp only [span]; omega)

theorem Beyond.filterMap_above (beyond : Beyond req stay)
    (nonempty : ∀ r ∈ stay, r.flStart ≤ r.flEnd) :
    (stay.map span).filterMap (Span.above req.flEnd) = stay.map span := by
  rw [filterMap_map, filterMap_eq_map_iff_forall_eq_some]
  intro r mem
  have h1 := (beyond r mem).1
  have h2 := nonempty r mem
  rw [Function.comp, Span.above, if_pos (show req.flEnd < r.span.hi from lt_of_lt_of_le h1 h2)]
  simp only [span, max_eq_left (show req.flEnd + 1 ≤ r.flStart by omega)]

/-- The pieces that the trimming leaves of the locks at which the loop stopped: `split` is
the copy of a lock around the request, `high` are the locks after it. -/
structure Trimmed (stay : List FileLock) (request : FileLock) (split high : List FileLock) :
    Prop where
  below : split.map span = (stay.map span).filterMap (Span.below request.flStart)
  above : high.map span = (stay.map span).filterMap (Span.above request.flEnd)
  owners : ∀ s ∈ split ++ high, ∃ r ∈ stay, s.flOwner = r.flOwner ∧ s.kind = r.kind

/-- The loop stopped before locks beyond the request: nothing to trim there. -/
theorem Trimmed.of_beyond (beyond : Beyond req stay) (range : req.flStart ≤ req.flEnd)
    (nonempty : ∀ r ∈ stay, r.flStart ≤ r.flEnd) : Trimmed stay req [] stay where
  below := (beyond.filterMap_below range).symm
  above := (beyond.filterMap_above nonempty).symm
  owners := fun s mem => ⟨s, mem, rfl, rfl⟩

/-- The lock `r` reaches over the end of the request and starts inside it. -/
theorem Trimmed.cut (beyond : Beyond req stay) (range : req.flStart ≤ req.flEnd)
    (nonempty : ∀ s ∈ stay, s.flStart ≤ s.flEnd) (starts : req.flStart ≤ r.flStart)
    (meets : r.flStart ≤ req.flEnd) (reaches : req.flEnd < r.flEnd) :
    Trimmed (r :: stay) req [] ({ r with flStart := req.flEnd + 1 } :: stay) where
  below := by
    rw [map_cons, filterMap_cons_none, beyond.filterMap_below range, map_nil]
    exact if_neg (not_lt.mpr starts)
  above := by
    rw [map_cons, map_cons, filterMap_cons_some, beyond.filterMap_above nonempty]
    rw [Span.above, if_pos (show req.flEnd < r.span.hi from reaches)]
    simp only [span, max_eq_right (show r.flStart ≤ req.flEnd + 1 by omega)]
  owners := by
    intro s mem
    rcases mem_cons.mp mem with rfl | mem
    · exact ⟨r, mem_cons_self, rfl, rfl⟩
    · exact ⟨s, mem_cons_of_mem _ mem, rfl, rfl⟩

/-- The lock `r` surrounds the request. -/
theorem Trimmed.split (addr : Nat) (beyond : Beyond req stay) (range : req.flStart ≤ req.flEnd)
    (nonempty : ∀ s ∈ stay, s.flStart ≤ s.flEnd) (starts : r.flStart < req.flStart)
    (reaches : req.flEnd < r.flEnd) :
    Trimmed (r :: stay) req [{ r with addr := addr, flEnd := req.flStart - 1 }]
      ({ r with flStart := req.flEnd + 1 } :: stay) where
  below := by
    rw [map_singleton, map_cons, filterMap_cons_some, beyond.filterMap_below range]
    rw [Span.below, if_pos (show r.span.lo < req.flStart from starts)]
    simp only [span, min_eq_right (show req.flStart - 1 ≤ r.flEnd by omega)]
  above := by
    rw [map_cons, map_cons, filterMap_cons_some, beyond.filterMap_above nonempty]
    rw [Span.above, if_pos (show req.flEnd < r.span.hi from reaches)]
    simp only [span, max_eq_right (show r.flStart ≤ req.flEnd + 1 by omega)]
  owners := by
    intro s mem
    rcases mem_cons.mp mem with rfl | mem
    · exact ⟨r, mem_cons_self, rfl, rfl⟩
    rcases mem_cons.mp mem with rfl | mem
    · exact ⟨r, mem_cons_self, rfl, rfl⟩
    · exact ⟨s, mem_cons_of_mem _ mem, rfl, rfl⟩

section Trim
variable (shape : WalkShape x low gone stay z req newFl e)
  (own : OwnLocks req.flOwner (low ++ gone ++ stay))
  (addrs : Addrs (x ++ low ++ gone ++ stay ++ z) newFl newFl2)
  (range : req.flStart ≤ req.flEnd)

include shape own range in
theorem WalkShape.trimmed_of_not_right (noRight : e.walk.right = false) :
    Trimmed stay e.walk.request [] stay := by
  have stops := shape.stops
  rw [noRight] at stops
  have h1 := shape.start
  have h2 := shape.fin
  exact Trimmed.of_beyond stops (by omega) own.of_append.nonempty

theorem addr_ne_of_nodup {a b c : List FileLock} (nodup : ((a ++ b ++ c).map FileLock.addr).Nodup)
    {p : FileLock} (hp : p ∈ b) (hr : r ∈ a ++ c) : r.addr ≠ p.addr := by
  rw [map_append, map_append, nodup_append', nodup_append'] at nodup
  obtain ⟨⟨_, _, hab⟩, _, habc⟩ := nodup
  have hp' := mem_map_of_mem (f := FileLock.addr) hp
  intro same
  rcases mem_append.mp hr with hr | hr
  · exact disjoint_left.mp hab (mem_map_of_mem hr) (same ▸ hp')
  · exact disjoint_left.mp habc (mem_append_right _ hp') (same ▸ mem_map_of_mem hr)

/-- The record of the request, if the request is in the list by now. -/
structure Placed (gone : List FileLock) (newFl : Option Nat) (record : List FileLock) : Prop where
  single : record = [] ∨ ∃ n, record = [n]
  addr : ∀ n ∈ record, (∃ d ∈ gone, d.addr = n.addr) ∨ newFl = some n.addr

theorem Placed.ne (placed : Placed gone newFl record)
    (addrs : Addrs (x ++ low ++ gone ++ stay ++ z) newFl newFl2) {p n : FileLock}
    (hp : p ∈ x ++ low ++ stay ++ z) (hn : n ∈ record) : p.addr ≠ n.addr := by
  rcases placed.addr n hn with ⟨d, hd, same⟩ | fresh
  · rw [← same]
    refine addr_ne_of_nodup (a := x ++ low) (c := stay ++ z) ?_ hd ?_
    · simpa only [append_assoc] using addrs.nodup
    · simpa only [append_assoc] using hp
  · refine addrs.fresh _ fresh p ?_
    simp only [mem_append] at hp ⊢
    tauto

include shape addrs in
/-- The store through `left` cuts the one passed lock that reaches into the request. -/
theorem WalkShape.setEnd_left (tail : List FileLock)
    (inLow : ∀ a, e.walk.left = some a → ∃ p ∈ low, p.addr = a ∧ e.walk.request.flStart ≤ p.flEnd)
    (htail : ∀ r ∈ tail, ∀ p ∈ low, r.addr ≠ p.addr) : (match e.walk.left with
      | some a => setEnd a (e.walk.request.flStart - 1) (x ++ low ++ tail)
      | none => x ++ low ++ tail) =
      x ++ low.map (cutEnd e.walk.request.flStart) ++ tail := by
  have lower := shape.lower
  cases hleft : e.walk.left with
  | none =>
    rw [lower.map_cutEnd_self fun p _ => by simp [hleft]]
  | some a =>
    obtain ⟨p, mem, rfl, reach⟩ := inLow a hleft
    rw [hleft] at lower
    refine lower.setEnd_append ?_ ?_ fun r hr => htail r hr p mem
    · intro r hr same
      rw [addrs.eq (by simp [hr]) (by simp [mem]) same]
      exact reach
    · intro r hr
      exact addr_ne_of_nodup (a := x) (c := gone ++ stay ++ z)
        (by simpa only [append_assoc] using addrs.nodup) mem (by simp [hr])

include shape own addrs in
/-- One lock surrounds the request, so the loop has removed nothing. -/
theorem WalkShape.split_starts {tail : List FileLock} (hstay : stay = r :: tail)
    (hsplit : e.walk.left = some r.addr) : r.flStart < e.walk.request.flStart ∧ gone = [] := by
  subst hstay
  have hstarts : r.flStart < e.walk.request.flStart := by
    rcases shape.left _ hsplit with ⟨p, hp, same, _⟩ | ⟨_, s, hs, _, hstarts⟩
    · exact absurd same.symm (addr_ne_of_nodup (a := x) (c := gone ++ (r :: tail) ++ z)
        (by simpa only [append_assoc] using addrs.nodup) hp (by simp))
    · cases hs
      exact hstarts
  refine ⟨hstarts, eq_nil_iff_forall_not_mem.mpr fun d hd => ?_⟩
  have hinside := shape.inside d hd
  have hsorted := (own.apart (mem_append_right low hd) mem_cons_self).1
  have hne := own.nonempty d (by simp [hd])
  simp only [span] at hsorted
  omega

theorem setEnd_around (addr : Nat) (fin : Int) {a b : List FileLock} (fl : FileLock)
    (ha : ∀ s ∈ a, s.addr ≠ addr) (hb : ∀ s ∈ b, s.addr ≠ addr) :
    setEnd addr fin (a ++ { fl with addr := addr } :: b) =
      a ++ { fl with addr := addr, flEnd := fin } :: b := by
  rw [Fs.setEnd_append, setEnd_of_ne ha]
  congr 1
  simp only [setEnd, map_cons, if_true, List.cons.injEq, true_and]
  exact setEnd_of_ne hb

/-- What is around the request is cut and put back, with the request in between. -/
def Trims (x low stay z : List FileLock) (e : WalkEnd) (inserted : List FileLock)
    (newFl2 : Option Nat) : Prop :=
  ∃ split high woken, trim e.walk inserted e.rest newFl2 =
      ⟨.ok, x ++ low.map (cutEnd e.walk.request.flStart) ++ split ++
        (e.walk.record ++ inserted) ++ high ++ z, woken⟩ ∧
    Trimmed stay e.walk.request split high

variable {inserted : List FileLock} (placed : Placed gone newFl (e.walk.record ++ inserted))

include addrs placed in
theorem Placed.low_ne (r : FileLock) (hr : r ∈ e.walk.record ++ inserted ++ (stay ++ z))
    (p : FileLock) (hp : p ∈ low) : r.addr ≠ p.addr := by
  rcases mem_append.mp hr with hr | hr
  · exact (placed.ne addrs (by simp [hp]) hr).symm
  · exact addr_ne_of_nodup (a := x) (c := gone ++ stay ++ z)
      (by simpa only [append_assoc] using addrs.nodup) hp (by simp only [mem_append] at hr ⊢; tauto)

include shape own addrs range placed

/-- No lock reaches beyond the request. -/
theorem WalkShape.trim_not_right (hright : e.walk.right = false) :
    Trims x low stay z e inserted newFl2 := by
  have hpassed := shape.passed
  have hrest := shape.rest
  have inLow : ∀ a, e.walk.left = some a →
      ∃ p ∈ low, p.addr = a ∧ e.walk.request.flStart ≤ p.flEnd := by
    intro a h
    rcases shape.left a h with found | ⟨absent, _⟩
    · exact found
    · simp [hright] at absent
  have hcut := shape.setEnd_left addrs (e.walk.record ++ inserted ++ (stay ++ z)) inLow
    (placed.low_ne addrs)
  cases hleft : e.walk.left with
  | none =>
    refine ⟨[], stay, e.walk.woken, ?_, shape.trimmed_of_not_right own range hright⟩
    simp only [hleft] at hcut
    simp only [trim, hright, hleft, hrest, hpassed]
    rw [← append_assoc] at hcut
    simpa using hcut
  | some a =>
    refine ⟨[], stay, a :: e.walk.woken, ?_, shape.trimmed_of_not_right own range hright⟩
    simp only [hleft] at hcut
    simp only [trim, hright, hleft, hrest, hpassed]
    simpa using hcut

variable {tail : List FileLock} (hstay : stay = r :: tail) (hright : e.walk.right = true)
include hstay hright

/-- The lock at `right` surrounds the request: it is split with the spare record. -/
theorem WalkShape.trim_surrounded (hsplit : e.walk.left = some r.addr)
    (spare : e.walk.splits e.rest = true → newFl2 ≠ none) :
    Trims x low stay z e inserted newFl2 := by
  subst hstay
  have stops := shape.stops
  rw [hright] at stops
  obtain ⟨_, meets, reaches, beyond⟩ := stops
  have hrest := shape.rest
  obtain ⟨addr, hspare⟩ : ∃ addr, newFl2 = some addr := by
    refine Option.ne_none_iff_exists'.mp (spare ?_)
    simp [Walk.splits, hrest, hright, hsplit]
  obtain ⟨hstarts, hgone⟩ := shape.split_starts own addrs rfl hsplit
  have hrecord : e.walk.record = [] := by
    rw [Walk.record, if_neg]
    exact fun h => (shape.linked h).2.2.1 hgone
  have hfresh : ∀ s ∈ x ++ low ++ gone ++ (r :: tail) ++ z, s.addr ≠ addr :=
    addrs.fresh2 addr hspare
  have hinserted : ∀ s ∈ inserted, s.addr ≠ addr := by
    intro s hs same
    rcases placed.addr s (mem_append_right _ hs) with ⟨d, hd, hsame⟩ | hnew
    · rw [hgone] at hd
      simp at hd
    · exact addrs.distinct _ hnew (by rw [hspare, same])
  have hset := setEnd_around addr (e.walk.request.flStart - 1) r (a := x ++ low)
    (b := inserted ++ { r with flStart := e.walk.request.flEnd + 1 } :: (tail ++ z))
    (fun s hs => hfresh s (by simp only [mem_append] at hs ⊢; tauto)) (by
      intro s hs
      simp only [mem_append, mem_cons] at hs
      rcases hs with hs | rfl | hs | hs
      · exact hinserted s hs
      · exact hfresh r (by simp)
      · exact hfresh s (by simp [hs])
      · exact hfresh s (by simp [hs]))
  have h1 := shape.start
  have h2 := shape.fin
  refine ⟨_, _, addr :: r.addr :: e.walk.woken, ?_, Trimmed.split addr beyond (by omega)
    own.of_append.of_cons.nonempty hstarts reaches⟩
  rw [shape.lower.map_cutEnd_self fun p hp => by
    rw [hsplit]
    exact fun h => placed.low_ne addrs r (by simp) p hp (Option.some.inj h)]
  simp only [trim, hright, hrest, hsplit, hspare, shape.passed, hrecord, cons_append,
    decide_true, append_nil, nil_append]
  simpa using hset

/-- The lock at `right` starts inside the request: its front is cut. -/
theorem WalkShape.trim_right (hsplit : e.walk.left ≠ some r.addr) :
    Trims x low stay z e inserted newFl2 := by
  subst hstay
  have stops := shape.stops
  rw [hright] at stops
  obtain ⟨_, meets, reaches, beyond⟩ := stops
  have hpassed := shape.passed
  have hrest := shape.rest
  have h1 := shape.start
  have h2 := shape.fin
  have inLow : ∀ a, e.walk.left = some a →
      ∃ p ∈ low, p.addr = a ∧ e.walk.request.flStart ≤ p.flEnd := by
    intro a h
    rcases shape.left a h with found | ⟨_, s, hs, rfl, _⟩
    · exact found
    · cases hs
      exact absurd h hsplit
  have hstarts : e.walk.request.flStart ≤ r.flStart := by
    by_contra h
    exact hsplit (shape.split hright r rfl (by omega))
  let cut := { r with flStart := e.walk.request.flEnd + 1 }
  have apart := placed.low_ne addrs
  have hcut := shape.setEnd_left addrs
    (e.walk.record ++ inserted ++ (cut :: tail ++ z)) inLow (by
      intro s hs
      simp only [mem_append, mem_cons] at hs
      rcases hs with hs | (rfl | hs) | hs
      · exact apart s (mem_append_left _ (mem_append.mpr hs))
      · exact apart r (by simp)
      · exact apart s (by simp [hs])
      · exact apart s (by simp [hs]))
  have htrimmed : Trimmed (r :: tail) e.walk.request [] (cut :: tail) :=
    Trimmed.cut beyond (by omega) own.of_append.of_cons.nonempty hstarts meets reaches
  cases hleft : e.walk.left with
  | none =>
    refine ⟨[], cut :: tail, r.addr :: e.walk.woken, ?_, htrimmed⟩
    simp only [hleft] at hcut
    simp only [trim, hright, hleft, hrest, hpassed, cons_append]
    simpa [cut] using hcut
  | some a =>
    refine ⟨[], cut :: tail, a :: r.addr :: e.walk.woken, ?_, htrimmed⟩
    simp only [hleft] at hcut hsplit
    simp only [trim, hright, hleft, hrest, hpassed, cons_append, hsplit, decide_false]
    simpa using hcut

omit hstay hright in
theorem WalkShape.trim_eq (spare : e.walk.splits e.rest = true → newFl2 ≠ none) :
    Trims x low stay z e inserted newFl2 := by
  cases hright : e.walk.right with
  | false => exact shape.trim_not_right own addrs range placed hright
  | true =>
    cases hstay : stay with
    | nil =>
      have stops := shape.stops
      rw [hright, hstay] at stops
      exact stops.elim
    | cons r tail =>
      rw [← hstay]
      by_cases hsplit : e.walk.left = some r.addr
      · exact shape.trim_surrounded own addrs range placed hstay hright hsplit spare
      · exact shape.trim_right own addrs range placed hstay hright hsplit

end Trim

def window (req : FileLock) (start fin : Int) : List (Span LockType) :=
  if req.flType = .unlck then [] else [⟨start, fin, req.flType⟩]

/-- The effect of an update on the list `x ++ y ++ z`, where `y` are the owner's locks: the
window from `start` to `fin` is the request with the locks of its type that it absorbed. -/
structure Carved (x y z : List FileLock) (req : FileLock) (locks y' : List FileLock)
    (start fin : Int) : Prop where
  list : locks = x ++ y' ++ z
  spans : y'.map span =
    Span.carve start fin (window req start fin) (y.map span)
  starts : start ≤ req.flStart
  ends : req.flEnd ≤ fin
  absorbs : Span.Absorbs start fin req.flType (y.map span)
  covered : ∀ v, start ≤ v → v ≤ fin → v < req.flStart ∨ req.flEnd < v →
    Span.Holds (y.map span) v req.flType
  owners : ∀ fl ∈ y', fl.flOwner = req.flOwner ∧ fl.kind = req.kind

theorem StopsAt.type_beyond {right : Bool} (stops : StopsAt req right stay) (hr : r ∈ stay)
    (htype : r.flType = req.flType) : req.flEnd + 1 < r.flStart := by
  cases right with
  | false => exact (stops r hr).2 htype
  | true =>
    cases stay with
    | nil => exact stops.elim
    | cons s tail =>
      rcases mem_cons.mp hr with rfl | hr
      · exact absurd htype stops.1
      · exact (stops.2.2.2 r hr).2 htype

theorem WalkShape.absorbs (shape : WalkShape x low gone stay z req newFl e) :
    Span.Absorbs e.walk.request.flStart e.walk.request.flEnd req.flType
      ((low ++ gone ++ stay).map span) := by
  unfold Span.Absorbs
  rw [forall_mem_map]
  intro r hr htype
  rcases mem_append.mp hr with hr | hr
  · rcases mem_append.mp hr with hr | hr
    · exact .inl (shape.lower.gap r hr htype)
    · exact .inr (.inl (shape.inside r hr))
  · exact .inr (.inr (shape.stops.type_beyond hr (htype.trans shape.type.symm)))

section Finish
variable (shape : WalkShape x low gone stay z req newFl e)
  (own : OwnLocks req.flOwner (low ++ gone ++ stay))
  (kinds : ∀ fl ∈ low ++ gone ++ stay, fl.kind = req.kind)
  (addrs : Addrs (x ++ low ++ gone ++ stay ++ z) newFl newFl2)
  (range : req.flStart ≤ req.flEnd)

include shape in
theorem WalkShape.carve_eq {split high : List FileLock}
    (trimmed : Trimmed stay e.walk.request split high)
    (hrecord : record.map span = window req e.walk.request.flStart e.walk.request.flEnd) :
    (low.map (cutEnd e.walk.request.flStart) ++ split ++ record ++ high).map span =
      Span.carve e.walk.request.flStart e.walk.request.flEnd
        (window req e.walk.request.flStart e.walk.request.flEnd)
        ((low ++ gone ++ stay).map span) := by
  have hgone : ∀ d ∈ gone, e.walk.request.flStart ≤ d.flStart ∧
      d.flEnd ≤ e.walk.request.flEnd := shape.inside
  have hbelow : (gone.map span).filterMap (Span.below e.walk.request.flStart) = [] := by
    rw [filterMap_eq_nil_iff, forall_mem_map]
    exact fun d hd => if_neg (not_lt.mpr (hgone d hd).1)
  have habove : (gone.map span).filterMap (Span.above e.walk.request.flEnd) = [] := by
    rw [filterMap_eq_nil_iff, forall_mem_map]
    exact fun d hd => if_neg (not_lt.mpr (hgone d hd).2)
  simp only [Span.carve, map_append, filterMap_append, shape.lower.filterMap_below,
    shape.lower.filterMap_above, hbelow, habove, trimmed.below, trimmed.above, hrecord,
    nil_append, append_assoc]

include shape own kinds addrs range in
/-- The update of a request that is in the list by now. -/
theorem WalkShape.trim_carved (inserted : List FileLock)
    (placed : Placed gone newFl (e.walk.record ++ inserted))
    (hrecord : (e.walk.record ++ inserted).map span =
      window req e.walk.request.flStart e.walk.request.flEnd)
    (howner : ∀ n ∈ e.walk.record ++ inserted, n.flOwner = req.flOwner ∧ n.kind = req.kind)
    (spare : e.walk.splits e.rest = true → newFl2 ≠ none) :
    ∃ y', Carved x (low ++ gone ++ stay) z req
      (trim e.walk inserted e.rest newFl2).iFlock y' e.walk.request.flStart
      e.walk.request.flEnd := by
  obtain ⟨split, high, woken, htrim, trimmed⟩ := shape.trim_eq own addrs range placed spare
  rw [htrim]
  refine ⟨low.map (cutEnd e.walk.request.flStart) ++ split ++
    (e.walk.record ++ inserted) ++ high, ?_⟩
  constructor
  case list => simp only [append_assoc]
  case spans => exact shape.carve_eq trimmed hrecord
  case starts => exact shape.start
  case ends => exact shape.fin
  case absorbs => exact shape.absorbs
  case covered =>
    intro v h1 h2 h3
    obtain ⟨d, hd, dtype, found⟩ := shape.covered v h1 h2 h3
    exact ⟨d.span, mem_map_of_mem (by simp [hd]), dtype, found⟩
  case owners =>
    intro fl hfl
    simp only [mem_append, mem_map] at hfl
    rcases hfl with ((⟨p, hp, rfl⟩ | hfl) | hfl) | hfl
    · exact ⟨own.owned p (by simp [hp]), kinds p (by simp [hp])⟩
    · obtain ⟨r, hr, howned, hkind⟩ := trimmed.owners fl (by simp [hfl])
      exact ⟨howned.trans (own.owned r (by simp [hr])), hkind.trans (kinds r (by simp [hr]))⟩
    · exact howner fl (mem_append.mpr hfl)
    · obtain ⟨r, hr, howned, hkind⟩ := trimmed.owners fl (by simp [hfl])
      exact ⟨howned.trans (own.owned r (by simp [hr])), hkind.trans (kinds r (by simp [hr]))⟩

include shape in
theorem WalkShape.record_placed : Placed gone newFl e.walk.record := by
  cases hlinked : e.walk.linked with
  | false =>
    rw [Walk.record, hlinked]
    exact ⟨.inl rfl, by simp⟩
  | true =>
    rw [Walk.record, if_pos hlinked]
    refine ⟨.inr ⟨_, rfl⟩, fun n hn => ?_⟩
    rw [mem_singleton.mp hn]
    exact (shape.linked hlinked).2.2.2

include shape own kinds addrs range in
/-- The code after the loop carves where it succeeds. -/
theorem WalkShape.finishUpdate {flExists : Bool}
    (success : (finishUpdate flExists e newFl2).error = .ok) :
    ∃ y' start fin, Carved x (low ++ gone ++ stay) z req (finishUpdate flExists e newFl2).iFlock
      y' start fin := by
  unfold Fs.finishUpdate at success ⊢
  by_cases hspare : (e.walk.splits e.rest && decide (newFl2 = none)) = true
  · simp [shape.failed, hspare] at success
  have spare : e.walk.splits e.rest = true → newFl2 ≠ none := by
    intro h hnone
    simp [h, hnone] at hspare
  simp only [shape.failed, hspare, Bool.false_eq_true, if_false] at success ⊢
  cases hadded : e.walk.added with
  | true =>
    have hrecord : (e.walk.record ++ []).map span =
        window req e.walk.request.flStart e.walk.request.flEnd := by
      rw [append_nil, Walk.record, window]
      rcases shape.mode hadded with hlinked | unlock
      · rw [if_pos hlinked, if_neg (shape.linked hlinked).2.1, ← shape.type]
        rfl
      · rw [if_pos unlock, if_neg fun h => (shape.linked h).2.1 unlock, map_nil]
    obtain ⟨y', carved⟩ := shape.trim_carved own kinds addrs range []
      (by simpa using shape.record_placed) hrecord (by
        intro n hn
        rw [append_nil, Walk.record] at hn
        split at hn
        · rw [mem_singleton.mp hn]
          exact ⟨shape.owner, shape.kind⟩
        · simp at hn) spare
    exact ⟨y', _, _, carved⟩
  | false =>
    have hlinked : e.walk.linked = false := by
      cases h : e.walk.linked with
      | false => rfl
      | true => simp [(shape.linked h).1] at hadded
    obtain ⟨hrequest, hnewFl⟩ := shape.pending hlinked
    have hrecord : e.walk.record = [] := by rw [Walk.record, if_neg (by simp [hlinked])]
    simp only [hadded, hrequest, hnewFl, Bool.false_eq_true, if_false] at success ⊢
    by_cases unlock : req.flType = .unlck
    · obtain ⟨hleft, hright⟩ := (shape.idle hadded).2 unlock
      obtain ⟨y', carved⟩ := shape.trim_carved own kinds addrs range []
        (by simpa using shape.record_placed) (by simp [hrecord, window, unlock])
        (by simp [hrecord]) spare
      have htrim : (trim e.walk [] e.rest newFl2).iFlock = e.walk.passed ++ e.rest := by
        simp [trim, hleft, hright]
      rw [if_pos unlock]
      exact ⟨y', _, _, htrim ▸ carved⟩
    rw [if_neg unlock] at success ⊢
    cases hnew : newFl with
    | none => simp [hnew] at success
    | some addr =>
      obtain ⟨y', carved⟩ := shape.trim_carved own kinds addrs range [{ req with addr := addr }]
        (by rw [hrecord]; exact ⟨.inr ⟨_, rfl⟩, fun n hn => .inr (by simp_all)⟩)
        (by simp [hrecord, window, unlock, hrequest, span]) (by simp [hrecord]) spare
      exact ⟨y', _, _, carved⟩

end Finish

end Linux318.Source.Fs
