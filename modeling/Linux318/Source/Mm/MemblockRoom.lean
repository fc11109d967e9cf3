import Linux318.Lib.BlockGaps
import Linux318.Source.Mm.MemblockOps

/-!
The operations with the resizing of the arrays that they cause. A new array is reserved, and the old
one is freed, in the reserved type itself, which may nest. Whatever happens there, both types stay
well formed, the memory type keeps its regions, and the reserved one changes by these arrays only.
-/
namespace Linux318.Source.Mm
open Lib Block List

variable {type : MemblockType} {outcome : Outcome}

section Types

variable (mb : Memblock) (ty : Which) (type : MemblockType)

@[simp] theorem type_memory : mb.type .memory = mb.memory := rfl

@[simp] theorem type_reserved : mb.type .reserved = mb.reserved := rfl

@[simp] theorem type_setType : (mb.setType ty type).type ty = type := by
  cases ty <;> rfl

@[simp] theorem slab_setType : (mb.setType ty type).slab = mb.slab := by
  cases ty <;> rfl

@[simp] theorem withRegions_withRegions (regions regions' : List MemblockRegion) :
    withRegions (withRegions type regions) regions' = withRegions type regions' := rfl

@[simp] theorem reserved_setType_reserved : (mb.setType .reserved type).reserved = type := rfl

end Types

def MemOk (mb : Memblock) : Prop := ∀ ty, TypeOk (mb.type ty)

theorem MemOk.setType {mb : Memblock} (ok : MemOk mb) {ty : Which}
    (new : TypeOk type) : MemOk (mb.setType ty type) := by
  intro ty'
  cases ty <;> cases ty'
  · exact new
  · exact ok .reserved
  · exact ok .memory
  · exact new

def Filled (type : MemblockType) : Prop := ∃ a, Covered type.regions a

theorem TypeOk.nonempty (ok : TypeOk type) (filled : Filled type) :
    type.regions ≠ [] ∧ ∀ r ∈ type.regions, 0 < r.size := by
  rcases ok.entries with ⟨attr, one⟩ | some
  · obtain ⟨a, t, r, mem, low, high, _⟩ := filled
    rw [one, mem_singleton] at mem
    subst mem
    simp [top] at high
  · exact some

theorem TypeOk.empty_or_filled (ok : TypeOk type) :
    (∃ attr, type.regions = [⟨0, 0, attr⟩]) ∨ Filled type := by
  rcases ok.entries with empty | ⟨some, pos⟩
  · exact .inl empty
  obtain ⟨r, rest, shape⟩ := exists_cons_of_ne_nil some
  have mem : r ∈ type.regions := by simp [shape]
  have size := pos r mem
  exact .inr ⟨r.base, r.tag, r, mem, Nat.le_refl _, by simp only [top]; omega, rfl⟩

theorem map_empty (empty : ∃ attr, type.regions = [⟨0, 0, attr⟩]) (a : Nat)
    (t : RegionAttr) : ¬type.map a t := by
  obtain ⟨attr, one⟩ := empty
  simp [MemblockType.map, one, At, top]

def Yields (type : MemblockType) (result : Except MemblockBug MemblockType) (map : AttrMap) : Prop :=
  ∃ regions, result = .ok (withRegions type regions) ∧ TypeOk (withRegions type regions) ∧
    At regions = map ∧ regions.length ≤ type.regions.length + 2

/-- An action on isolated regions changes the attributes as `op` does. -/
structure ActOk (act : Nat → Nat → MemblockType → Except MemblockBug MemblockType)
    (op : Nat → Nat → AttrMap → AttrMap) : Prop where
  idle : ∀ type, TypeOk type → Yields type (act 0 0 type) type.map
  isolated : ∀ type lo hi, TypeOk type → Filled type → lo < hi →
    type.regions.length + 2 ≤ type.max →
    Yields type (act (isolatedIn lo hi type.regions).1 (isolatedIn lo hi type.regions).2
      (withRegions type (cut lo hi type.regions))) (op lo hi type.map)
  unchanged : ∀ lo hi map, (∀ a t, ¬map a t) ∨ hi ≤ lo → op lo hi map = map

theorem actOk_remove : ActOk (fun startRgn endRgn type =>
    .ok (removeRegions startRgn (endRgn - startRgn) type)) fun lo hi map => map.drop lo hi where
  idle type ok := by
    refine ⟨type.regions, ?_, ?_, rfl, by omega⟩
    · rw [← ok.eq_withRegions]
      rfl
    · rwa [← ok.eq_withRegions]
  isolated type lo hi ok filled window room := by
    obtain ⟨some, pos⟩ := ok.nonempty filled
    obtain ⟨ok', map, length⟩ := typeOk_kept lo hi ok pos window room
    exact ⟨_, congrArg Except.ok (removeRegions_isolated lo hi ok some pos window), ok', map, length⟩
  unchanged lo hi map none := by
    funext a t
    refine propext ⟨And.left, fun here => ⟨here, fun range => ?_⟩⟩
    rcases none with none | empty
    · exact none a t here
    · omega

theorem actOk_change (change : RegionAttr → RegionAttr) :
    ActOk (changeAttrs change) fun lo hi map => map.change lo hi change where
  idle type ok := by
    have same : { type with
        regions := type.regions.mapIdx fun i r =>
          if 0 ≤ i ∧ i < 0 then { r with tag := change r.tag } else r } =
        withRegions type type.regions := by
      have untouched := mapIdx_between change [] [] type.regions
      simp only [nil_append, length_nil] at untouched
      rw [untouched]
      exact ok.eq_withRegions
    refine ⟨type.regions, ?_, ?_, rfl, by omega⟩
    · rw [changeAttrs, same, memblockMergeRegions_eq type (inOrder_of_apart ok.apart) ok.noWrap,
        merge_eq_self ok.apart]
    · rwa [← ok.eq_withRegions]
  isolated type lo hi ok filled window room := by
    obtain ⟨some, pos⟩ := ok.nonempty filled
    obtain ⟨ok', map⟩ := typeOk_repainted lo hi change ok some pos window room
    obtain ⟨order, part, length, _⟩ := repainted_spec lo hi change ok pos window
    obtain ⟨_, _, shorter, _⟩ := merge_spec order fun r mem => (part r mem).1
    exact ⟨_, changeAttrs_isolated lo hi change ok pos window, ok', map, by omega⟩
  unchanged lo hi map none := by
    funext a t
    refine propext ⟨?_, fun here => ⟨t, here, ?_⟩⟩
    · rintro ⟨s, here, rfl⟩
      rcases none with none | empty
      · exact absurd here (none a s)
      · rwa [if_neg (by omega)]
    · rcases none with none | empty
      · exact absurd here (none a t)
      · rw [if_neg (by omega)]

section Isolate

variable {act : Nat → Nat → MemblockType → Except MemblockBug MemblockType}
  {op : Nat → Nat → AttrMap → AttrMap} {type : MemblockType}

/-- With room for two more entries the loop isolates the range, also in an empty type. -/
theorem isolateLoop_act (actOk : ActOk act op) (ok : TypeOk type) {lo hi : Nat} (window : lo < hi)
    (room : type.regions.length + 2 ≤ type.max) :
    ∃ out, isolateLoop lo hi (type.regions.length + 4) ⟨0, 0, 0, type⟩ = .ok out ∧
      Yields type (act out.startRgn out.endRgn out.type) (op lo hi type.map) := by
  rcases ok.empty_or_filled with empty | filled
  · refine ⟨_, isolateLoop_empty lo hi empty window, ?_⟩
    rw [actOk.unchanged lo hi type.map (.inl (map_empty empty))]
    exact actOk.idle type ok
  · obtain ⟨i, loop⟩ := isolateLoop_type lo hi ok (ok.nonempty filled).2 window room
    exact ⟨_, loop, actOk.isolated type lo hi ok filled window room⟩

end Isolate

def HasRoom (mb : Memblock) (ty : Which) (need : Nat) : Prop :=
  (mb.type ty).regions.length + need ≤ (mb.type ty).max

instance (mb : Memblock) (ty : Which) (need : Nat) : Decidable (HasRoom mb ty need) :=
  inferInstanceAs (Decidable (_ ≤ _))

/-- Freeing the array does not empty the type when nothing is reserved in its place. -/
def Steady (mb : Memblock) (ty : Which) : Prop :=
  ty = .reserved → mb.slab = true → ∀ lo hi, mb.reserved.storage = some (lo, hi) →
    ∃ a, Covered mb.reserved.regions a ∧ ¬(lo ≤ a ∧ a < hi)

/-- Memory that is found lies in a region of the memory type, and meets no reserved one. -/
structure Free (mb : Memblock) (lo hi : Nat) : Prop where
  memory : ∃ r ∈ mb.memory.regions, r.base ≤ lo ∧ hi ≤ r.top
  reserved : ∀ a, lo ≤ a → a < hi → ¬Covered mb.reserved.regions a

def MemblockType.doubled (type : MemblockType) (addr : Nat) : MemblockType :=
  { type with array := some addr, max := type.max * 2 }

def flagged (mb : Memblock) (ty : Which) : Memblock :=
  mb.setType ty { mb.type ty with inSlab := mb.slab }

def Remaps (ty : Which) (mb : Memblock) (map : AttrMap) (after : Memblock) : Prop :=
  ∃ regions, after = mb.setType ty (withRegions (mb.type ty) regions) ∧ At regions = map

/-- An old array is freed, unless it is a static one or from the slab allocator. Nobody looks at the
result, so it stays reserved if there is no room for two more entries. -/
def FreesArray (old : MemblockType) (mb after : Memblock) : Prop :=
  match old.inSlab, old.array with
  | false, some addr => (¬HasRoom mb .reserved 2 ∧ after = mb) ∨
      Remaps .reserved mb (mb.reserved.map.drop addr
        (addr + memblockCapSize addr (pageAlign (old.max * sizeofRegion)))) after
  | _, _ => after = mb

def ReservesArray (addr entries : Nat) (mb after : Memblock) : Prop :=
  if mb.slab then after = mb
  else Remaps .reserved mb (mb.reserved.map.add addr
    (addr + memblockCapSize addr (pageAlign (entries * sizeofRegion))) noAttr) after

/-- The array of a type is doubled some number of times. Each time the new array gets a free place,
then the old one is freed and the new one reserved. Both may double the array of the reserved type
before they do their work. -/
inductive Resizes : Which → Memblock → Memblock → Prop
  | refl {ty : Which} (mb : Memblock) : Resizes ty mb mb
  | double {ty : Which} {mb mid freed mid' reserved after : Memblock} {addr : Nat}
      (place : mb.slab = false →
        Free mb addr (addr + pageAlign ((mb.type ty).max * 2 * sizeofRegion)))
      (freeing : Resizes .reserved (mb.setType ty ((mb.type ty).doubled addr)) mid)
      (free : FreesArray (mb.type ty) mid freed)
      (reserving : Resizes .reserved freed mid')
      (reserve : ReservesArray addr ((mb.type ty).max * 2) mid' reserved)
      (next : Resizes ty (flagged reserved ty) after) : Resizes ty mb after

structure RoomOk (room : Room) : Prop where
  fits : ∀ mb searches ty need areaStart areaSize, HasRoom mb ty need →
    room mb searches ty need areaStart areaSize = .ok (.zero, mb, searches)
  spec : ∀ mb searches ty need areaStart areaSize err after rest, MemOk mb →
    room mb searches ty need areaStart areaSize = .ok (err, after, rest) →
    MemOk after ∧ Resizes ty mb after ∧ (err = .enomem → ¬HasRoom after ty need) ∧
      (err = .zero → HasRoom after ty need ∧
        (Steady mb ty → Filled (mb.type ty) → Filled (after.type ty)))

/-- What a call does, if it comes back: first its array is resized, and then the map of the type
changes as `op` says, unless there was no room. -/
def Acts (mb : Memblock) (ty : Which) (need : Nat) (op : AttrMap → AttrMap) (err : MemblockErr)
    (after : Memblock) : Prop :=
  ∃ mid, Resizes ty mb mid ∧ (HasRoom mb ty need → mid = mb) ∧
    ((err = .enomem ∧ ¬HasRoom mid ty need ∧ after = mid) ∨
      (err = .zero ∧ Remaps ty mid (op (mid.type ty).map) after))

section Resizes

variable {mb after : Memblock}

theorem Remaps.kept {map : AttrMap} (remaps : Remaps .reserved mb map after) :
    after.memory.regions = mb.memory.regions ∧ after.slab = mb.slab := by
  obtain ⟨regions, rfl, _⟩ := remaps
  exact ⟨rfl, rfl⟩

theorem FreesArray.kept {old : MemblockType} (frees : FreesArray old mb after) :
    after.memory.regions = mb.memory.regions ∧ after.slab = mb.slab := by
  unfold FreesArray at frees
  split at frees
  · rcases frees with ⟨_, rfl⟩ | remaps
    · exact ⟨rfl, rfl⟩
    · exact remaps.kept
  · subst frees
    exact ⟨rfl, rfl⟩

theorem ReservesArray.kept {addr entries : Nat} (reserves : ReservesArray addr entries mb after) :
    after.memory.regions = mb.memory.regions ∧ after.slab = mb.slab := by
  unfold ReservesArray at reserves
  split_ifs at reserves
  · subst reserves
    exact ⟨rfl, rfl⟩
  · exact reserves.kept

/-- Whatever is resized, the memory type keeps its regions. -/
theorem Resizes.kept {ty : Which} (resizes : Resizes ty mb after) :
    after.memory.regions = mb.memory.regions ∧ after.slab = mb.slab := by
  induction resizes with
  | refl mb => exact ⟨rfl, rfl⟩
  | @double ty mb _ _ _ reserved _ _ _ _ free _ reserve _ ihFree ihReserve ihNext =>
    have moved : (flagged reserved ty).memory.regions = reserved.memory.regions ∧
        (flagged reserved ty).slab = reserved.slab := by cases ty <;> exact ⟨rfl, rfl⟩
    have memory := ihNext.1.trans (moved.1.trans (reserve.kept.1.trans (ihReserve.1.trans
      (free.kept.1.trans ihFree.1))))
    have slab := ihNext.2.trans (moved.2.trans (reserve.kept.2.trans (ihReserve.2.trans
      (free.kept.2.trans ihFree.2))))
    cases ty <;> exact ⟨memory, slab⟩

end Resizes

theorem outcome_inj {err err' : MemblockErr} {after after' : Memblock} {rest rest' : List Search}
    (one : outcome = .ok (err, after, rest)) (two : outcome = .ok (err', after', rest')) :
    err = err' ∧ after = after' ∧ rest = rest' := by
  simpa using one.symm.trans two

/-- The call comes back, the type has new regions with the given map, and at most `grow` more. -/
def Settles (outcome : Outcome) (mid : Memblock) (rest : List Search) (ty : Which) (map : AttrMap)
    (grow : Nat) : Prop :=
  ∃ regions, outcome = .ok (.zero, mid.setType ty (withRegions (mid.type ty) regions), rest) ∧
    TypeOk (withRegions (mid.type ty) regions) ∧ At regions = map ∧
    regions.length ≤ (mid.type ty).regions.length + grow

section With

variable {room : Room} {mb mid after : Memblock} {need : Nat} {searches rest rest' : List Search}
  {ty : Which} {base size : Nat} {err : MemblockErr}

theorem Settles.acts {op : AttrMap → AttrMap} {grow : Nat}
    (settles : Settles outcome mid rest' ty (op (mid.type ty).map) grow)
    (res : outcome = .ok (err, after, rest)) (ok : MemOk mid) (resizes : Resizes ty mb mid)
    (same : HasRoom mb ty need → mid = mb) : MemOk after ∧ Acts mb ty need op err after := by
  obtain ⟨regions, value, new, map, _⟩ := settles
  obtain ⟨rfl, rfl, rfl⟩ := outcome_inj value res
  exact ⟨ok.setType new, mid, resizes, same, .inr ⟨rfl, regions, rfl, map⟩⟩

section Isolate

variable {act : Nat → Nat → MemblockType → Except MemblockBug MemblockType}
  {op : Nat → Nat → AttrMap → AttrMap}

theorem isolateRangeWith_none (actOk : ActOk act op) (ok : MemOk mb)
    (none : memblockCapSize base size = 0) :
    Settles (isolateRangeWith room mb searches ty base size act) mb searches ty
      (op base (base + memblockCapSize base size) (mb.type ty).map) 2 := by
  obtain ⟨regions, res, ok', map, length⟩ := actOk.idle (mb.type ty) (ok ty)
  refine ⟨regions, ?_, ok', ?_, length⟩
  · simp [isolateRangeWith, none, res]
  · rw [map, actOk.unchanged]
    exact .inr (by omega)

theorem isolateRangeWith_room (actOk : ActOk act op) (ok : MemOk mid)
    (some : memblockCapSize base size ≠ 0)
    (made : room mb searches ty 2 base (memblockCapSize base size) = .ok (.zero, mid, rest))
    (fits : HasRoom mid ty 2) :
    Settles (isolateRangeWith room mb searches ty base size act) mid rest ty
      (op base (base + memblockCapSize base size) (mid.type ty).map) 2 := by
  obtain ⟨out, loop, regions, res, ok', map, length⟩ := isolateLoop_act actOk (ok ty)
    (show base < base + memblockCapSize base size by omega) fits
  refine ⟨regions, ?_, ok', map, length⟩
  simp only [isolateRangeWith, if_neg some, made, loop, res]

theorem isolateRangeWith_spec (actOk : ActOk act op) (roomOk : RoomOk room) (ok : MemOk mb)
    (res : isolateRangeWith room mb searches ty base size act = .ok (err, after, rest)) :
    MemOk after ∧ Acts mb ty 2 (op base (base + memblockCapSize base size)) err after := by
  by_cases none : memblockCapSize base size = 0
  · exact (isolateRangeWith_none actOk ok none).acts res ok (.refl mb) fun _ => rfl
  have fits := roomOk.fits mb searches ty 2 base (memblockCapSize base size)
  have spec := roomOk.spec mb searches ty 2 base (memblockCapSize base size)
  cases made : room mb searches ty 2 base (memblockCapSize base size) with
  | error bug => simp [isolateRangeWith, if_neg none, made] at res
  | ok value =>
    obtain ⟨err', mid, rest'⟩ := value
    obtain ⟨ok', resizes, full, done⟩ := spec err' mid rest' ok made
    have same (enough : HasRoom mb ty 2) := outcome_inj made (fits enough)
    cases err' with
    | enomem =>
      simp only [isolateRangeWith, if_neg none, made, Except.ok.injEq, Prod.mk.injEq] at res
      obtain ⟨rfl, rfl, rfl⟩ := res
      exact ⟨ok', mid, resizes, fun enough => (same enough).2.1, .inl ⟨rfl, full rfl, rfl⟩⟩
    | zero =>
      exact (isolateRangeWith_room actOk ok' none made (done rfl).1).acts res ok' resizes
        fun enough => (same enough).2.1

end Isolate

section Add

variable {attr : RegionAttr}

def missing (mb : Memblock) (ty : Which) (base size : Nat) : Nat :=
  gaps (base + memblockCapSize base size) base (mb.type ty).regions

theorem memblockCapSize_lt (some : memblockCapSize base size ≠ 0) :
    base + memblockCapSize base size < 2 ^ 64 := by
  unfold memblockCapSize at *
  omega

theorem addRangeWith_none (none : memblockCapSize base size = 0) :
    addRangeWith room mb searches ty base size attr = .ok (.zero, mb, searches) := by
  simp [addRangeWith, none]

theorem addRangeWith_first (ok : MemOk mb) (some : memblockCapSize base size ≠ 0)
    (empty : ∃ attr, (mb.type ty).regions = [⟨0, 0, attr⟩]) :
    Settles (addRangeWith room mb searches ty base size attr) mb searches ty
      ((mb.type ty).map.add base (base + memblockCapSize base size) attr) 0 := by
  have bound := memblockCapSize_lt some
  obtain ⟨ok', map⟩ := typeOk_first base attr (ok ty) (by omega) bound empty
  obtain ⟨old, one⟩ := empty
  refine ⟨[⟨base, memblockCapSize base size, attr⟩], ?_, ok', map, by simp [one]⟩
  have total : memblockCapSize base size % 18446744073709551616 = memblockCapSize base size :=
    Nat.mod_eq_of_lt (by omega)
  simp [addRangeWith, some, one, withRegions, total]

section
variable (ok : MemOk mb) (filled : Filled (mb.type ty)) (some : memblockCapSize base size ≠ 0)
include ok filled some

/-- A type that is not empty has its gaps counted. -/
theorem addRangeWith_counted : addRangeWith room mb searches ty base size attr =
      match room mb searches ty (missing mb ty base size) base (memblockCapSize base size) with
      | .error bug => .error bug
      | .ok (.enomem, mb, searches) => .ok (.enomem, mb, searches)
      | .ok (.zero, mb, searches) =>
        match addPass true base (base + memblockCapSize base size) attr (mb.type ty) with
        | .error bug => .error bug
        | .ok (_, type) =>
          match memblockMergeRegions type with
          | .error bug => .error bug
          | .ok type => .ok (.zero, mb.setType ty type, searches) := by
  have head : (mb.type ty).regions.head?.map (·.size) ≠ .some 0 := by
    obtain ⟨nonempty, pos⟩ := (ok ty).nonempty filled
    obtain ⟨r, rest, shape⟩ := exists_cons_of_ne_nil nonempty
    have size := pos r (by simp [shape])
    rw [shape]
    simp only [List.head?_cons, Option.map_some, ne_eq, Option.some.injEq]
    omega
  have count := addPass_count (base + memblockCapSize base size) attr (mb.type ty) (ok ty).noWrap base
  simp only [addRangeWith, if_neg some, if_neg head, count]
  rfl

variable (okMid : MemOk mid)
  (made : room mb searches ty (missing mb ty base size) base (memblockCapSize base size) =
    .ok (.zero, mid, rest))
include okMid made

theorem addRangeWith_room (filledMid : Filled (mid.type ty))
    (fits : HasRoom mid ty (missing mid ty base size)) :
    Settles (addRangeWith room mb searches ty base size attr) mid rest ty
      ((mid.type ty).map.add base (base + memblockCapSize base size) attr)
      (missing mid ty base size) := by
  obtain ⟨nonempty, pos⟩ := (okMid ty).nonempty filledMid
  have bound := memblockCapSize_lt some
  obtain ⟨type, pass, merged⟩ := addPass_merge _ base attr (okMid ty) pos bound fits
  obtain ⟨ok', map⟩ := typeOk_added _ base attr (okMid ty) nonempty pos bound fits
  obtain ⟨_, _, _, length, _⟩ := added_spec _ base attr (okMid ty).apart pos (okMid ty).noWrap bound
  refine ⟨_, ?_, ok', map, length⟩
  rw [addRangeWith_counted ok filled some]
  simp only [made, pass, merged]

/-- The first pass has counted too few regions. -/
theorem addRangeWith_full (full : ¬HasRoom mid ty (missing mid ty base size)) :
    addRangeWith room mb searches ty base size attr = .error .insertRegion := by
  have pass := addPass_full (base + memblockCapSize base size) attr (mid.type ty) (okMid ty).noWrap
    (okMid ty).count (Nat.lt_of_not_le full)
  rw [← (okMid ty).eq_withRegions] at pass
  rw [addRangeWith_counted ok filled some]
  simp only [made, pass]

end

theorem addRangeWith_spec (roomOk : RoomOk room) (ok : MemOk mb)
    (steady : HasRoom mb ty (missing mb ty base size) ∨ Steady mb ty)
    (res : addRangeWith room mb searches ty base size attr = .ok (err, after, rest)) :
    MemOk after ∧ Acts mb ty (missing mb ty base size)
      (fun map => map.add base (base + memblockCapSize base size) attr) err after := by
  by_cases none : memblockCapSize base size = 0
  · obtain ⟨rfl, rfl, rfl⟩ := outcome_inj (addRangeWith_none none) res
    refine ⟨ok, mb, .refl mb, fun _ => rfl, .inr ⟨rfl, (mb.type ty).regions, ?_, ?_⟩⟩
    · rw [← (ok ty).eq_withRegions]
      cases ty <;> rfl
    funext a t
    exact propext ⟨.inl, fun covered => covered.resolve_right fun range => by omega⟩
  rcases (ok ty).empty_or_filled with empty | filled
  · exact (addRangeWith_first ok none empty).acts res ok (.refl mb) fun _ => rfl
  have fits := roomOk.fits mb searches ty (missing mb ty base size) base (memblockCapSize base size)
  have spec := roomOk.spec mb searches ty (missing mb ty base size) base (memblockCapSize base size)
  cases made : room mb searches ty (missing mb ty base size) base (memblockCapSize base size) with
  | error bug => simp [addRangeWith_counted ok filled none, made] at res
  | ok value =>
    obtain ⟨err', mid, rest'⟩ := value
    obtain ⟨ok', resizes, full, done⟩ := spec err' mid rest' ok made
    have same (enough : HasRoom mb ty (missing mb ty base size)) := outcome_inj made (fits enough)
    cases err' with
    | enomem =>
      simp only [addRangeWith_counted ok filled none, made, Except.ok.injEq, Prod.mk.injEq] at res
      obtain ⟨rfl, rfl, rfl⟩ := res
      exact ⟨ok', mid, resizes, fun enough => (same enough).2.1, .inl ⟨rfl, full rfl, rfl⟩⟩
    | zero =>
      have filled' : Filled (mid.type ty) := by
        rcases steady with enough | steady
        · rwa [(same enough).2.1]
        · exact (done rfl).2 steady filled
      by_cases room' : HasRoom mid ty (missing mid ty base size)
      · exact (addRangeWith_room ok filled none ok' made filled' room').acts res ok' resizes
          fun enough => (same enough).2.1
      · rw [addRangeWith_full ok filled none ok' made room'] at res
        cases res

end Add

end With

end Linux318.Source.Mm
