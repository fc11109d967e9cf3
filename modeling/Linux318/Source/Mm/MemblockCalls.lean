import Linux318.Source.Mm.MemblockArrays

/-!
The calls come back. The number of regions that an area needs is counted before the array is
resized, so that the resizing must not leave too many gaps in it.
-/
namespace Linux318.Source.Mm
open Lib Block

structure MemblockOk (mb : Memblock) : Prop where
  types : MemOk mb
  arrays : mb.slab = false → ArraysOk mb

/-- Only the types, and whether the slab allocator is there, matter. -/
theorem MemblockOk.congr {mb after : Memblock} (inv : MemblockOk mb) (memory : after.memory = mb.memory)
    (reserved : after.reserved = mb.reserved) (slab : after.slab = false → mb.slab = false) :
    MemblockOk after := by
  have same (ty : Which) : after.type ty = mb.type ty := by
    cases ty
    · exact memory
    · exact reserved
  refine ⟨fun ty => same ty ▸ inv.types ty, fun none => ?_⟩
  have arrays := inv.arrays (slab none)
  refine ⟨fun ty => same ty ▸ arrays.found ty, fun ty a inside => ?_, ?_⟩
  · rw [reserved]
    exact arrays.covered ty a (same ty ▸ inside)
  · rw [memory, reserved]
    exact arrays.apart

section Room

variable {mb : Memblock} {searches : List Search} {need areaStart areaSize : Nat}

theorem memOk_doubled {ty : Which} {after : Memblock} {rest : List Search} {err : MemblockErr}
    {depth : Nat} (ok : MemOk mb)
    (res : doubleWith (makeRoom depth) mb searches ty areaStart areaSize = .ok (err, after, rest)) :
    MemOk after :=
  (doubleWith_spec (roomOk_makeRoom depth) ok res).1

/-- Where the arrays are after room was made for an area in the reserved type. -/
def Avoids (mb mid : Memblock) (areaStart areaSize : Nat) : Prop :=
  mb.slab = false → areaStart ≠ 0 → ∀ ty a, InStorage (mid.type ty) a →
    InStorage (mb.type ty) a ∨ ¬(areaStart ≤ a ∧ a < areaStart + areaSize)

/-- One doubling of the reserved type is enough, and leaves room for the gaps that it makes. -/
theorem makeRoom_reserved (depth : Nat) (inv : MemblockOk mb) (few : need + 5 ≤ mb.reserved.max) :
    ∃ err mid rest, makeRoom depth mb searches .reserved need areaStart areaSize =
        .ok (err, mid, rest) ∧ MemblockOk mid ∧ mid.slab = mb.slab ∧
      (HasRoom mb .reserved need → mid = mb) ∧ Avoids mb mid areaStart areaSize ∧
      (err = .zero → ∀ lo hi, (gapStarts lo hi (Covered mb.reserved.regions)).card ≤ need →
        HasRoom mid .reserved (gapStarts lo hi (Covered mid.reserved.regions)).card) := by
  have same : Avoids mb mb areaStart areaSize := fun _ _ _ _ inside => .inl inside
  have enough (room : HasRoom mb .reserved need) (lo hi : Nat)
      (gaps : (gapStarts lo hi (Covered mb.reserved.regions)).card ≤ need) :
      HasRoom mb .reserved (gapStarts lo hi (Covered mb.reserved.regions)).card := by
    simp only [HasRoom] at room ⊢
    omega
  by_cases room : HasRoom mb .reserved need
  · exact ⟨_, _, _, makeRoom_fits depth room, inv, rfl, fun _ => rfl, same, fun _ => enough room⟩
  cases depth with
  | zero =>
    have full : mb.reserved.regions.length + need > mb.reserved.max := Nat.lt_of_not_le room
    exact ⟨_, mb, _, rfl, inv, rfl, fun _ => rfl, same, fun zero => by simp [full] at zero⟩
  | succ depth =>
    obtain ⟨err, after, rest, res, cases⟩ := @doubleWith_total mb searches .reserved areaStart areaSize
      depth inv.types inv.arrays (fun other => by cases other)
    rw [makeRoom_full depth room, res]
    have okAfter := memOk_doubled inv.types res
    rcases cases with ⟨rfl, rfl⟩ | ⟨rfl, addr, doubled, placed⟩
    · exact ⟨_, _, _, rfl, inv, rfl, fun _ => rfl, same, fun zero => by cases zero⟩
    have count := (inv.types .reserved).count
    have grown := doubled.grown.1
    have length := doubled.length
    simp only [type_reserved] at count grown
    have fits : HasRoom after .reserved need := by
      simp only [HasRoom, type_reserved]
      omega
    refine ⟨_, _, _, makeRoom_fits depth fits,
      ⟨okAfter, doubled.arraysOk (fun slab => (placed slab).free) inv.arrays⟩, doubled.slab,
      fun yes => absurd yes room, fun slab start ty a inside => ?_, fun _ lo hi gaps => ?_⟩
    · cases ty with
      | memory =>
        obtain ⟨max, array, inSlab⟩ := doubled.other .memory (by decide)
        exact .inl ((InStorage.congr array max inSlab).mp inside)
      | reserved =>
        have range := inStorage_grown doubled slab inside
        have apart := (placed slab).area rfl start
        exact .inr (by omega)
    · have more := doubled.gaps lo hi
      simp only [HasRoom, type_reserved]
      omega

/-- The memory type is doubled `k` times at most, each time with three more reserved regions. -/
theorem makeRoom_memory (k : Nat) {mb : Memblock} {searches : List Search} (depth : Nat)
    (inv : MemblockOk mb) (spare : HasRoom mb .reserved (3 * k))
    (few : mb.memory.regions.length + need ≤ mb.memory.max * 2 ^ k) :
    ∃ err mid rest, makeRoom depth mb searches .memory need areaStart areaSize =
        .ok (err, mid, rest) ∧ MemblockOk mid ∧
      mid.memory.regions = mb.memory.regions := by
  induction k generalizing mb searches depth with
  | zero =>
    have room : HasRoom mb .memory need := by simpa [HasRoom] using few
    exact ⟨_, _, _, makeRoom_fits depth room, inv, rfl⟩
  | succ k ih =>
    by_cases room : HasRoom mb .memory need
    · exact ⟨_, _, _, makeRoom_fits depth room, inv, rfl⟩
    cases depth with
    | zero => exact ⟨_, mb, _, rfl, inv, rfl⟩
    | succ depth =>
      obtain ⟨err, after, rest, res, cases⟩ := @doubleWith_total mb searches .memory areaStart areaSize
        depth inv.types inv.arrays (fun _ => by
          simp only [HasRoom] at spare ⊢
          omega)
      rw [makeRoom_full depth room, res]
      have okAfter := memOk_doubled inv.types res
      rcases cases with ⟨rfl, rfl⟩ | ⟨rfl, addr, doubled, placed⟩
      · exact ⟨_, _, _, rfl, inv, rfl⟩
      have length := doubled.length
      have sameMax := (doubled.other .reserved (by decide)).1
      have grown := doubled.grown.1
      simp only [type_reserved, type_memory] at sameMax grown
      obtain ⟨err, mid, rest', made, inv', regions⟩ := @ih after rest depth
        ⟨okAfter, doubled.arraysOk (fun slab => (placed slab).free) inv.arrays⟩ (by
          simp only [HasRoom, type_reserved] at spare ⊢
          omega)
        (by
          rw [doubled.memory, grown, Nat.mul_assoc, ← Nat.pow_succ']
          exact few)
      exact ⟨err, mid, rest', made, inv', regions.trans doubled.memory⟩

end Room

section Calls

variable {mb mid : Memblock} {searches : List Search} {ty : Which} {base size : Nat} {depth : Nat}

/-- New regions keep the invariant if the arrays stay reserved. -/
theorem MemblockOk.setRegions (inv : MemblockOk mid) {regions : List MemblockRegion}
    (ok : TypeOk (withRegions (mid.type ty) regions))
    (kept : ty = .reserved → mid.slab = false → ∀ a, Covered mid.reserved.regions a →
      (∃ ty', InStorage (mid.type ty') a) → Covered regions a) :
    MemblockOk (mid.setType ty (withRegions (mid.type ty) regions)) := by
  refine ⟨inv.types.setType ok, fun slab => ?_⟩
  have slab := (slab_setType mid ty _).symm.trans slab
  have arrays := inv.arrays slab
  cases ty with
  | memory =>
    refine ⟨fun ty' => ?_, fun ty' a inside => ?_, arrays.apart⟩ <;> cases ty'
    · exact arrays.found .memory
    · exact arrays.found .reserved
    · exact arrays.covered .memory a inside
    · exact arrays.covered .reserved a inside
  | reserved =>
    refine ⟨fun ty' => ?_, fun ty' a inside => ?_, arrays.apart⟩ <;> cases ty'
    · exact arrays.found .memory
    · exact arrays.found .reserved
    · exact kept rfl slab a (arrays.covered .memory a inside) ⟨.memory, inside⟩
    · exact kept rfl slab a (arrays.covered .reserved a inside) ⟨.reserved, inside⟩

def Returns (outcome : Outcome) : Prop :=
  ∃ err after rest, outcome = .ok (err, after, rest) ∧ MemblockOk after

theorem Settles.returns {outcome : Outcome} {rest : List Search} {map : AttrMap} {grow : Nat}
    (settles : Settles outcome mid rest ty map grow) (inv : MemblockOk mid)
    (kept : ty = .reserved → mid.slab = false → ∀ a, Covered mid.reserved.regions a →
      (∃ ty', InStorage (mid.type ty') a) → ∃ t, map a t) : Returns outcome := by
  obtain ⟨regions, res, ok, rfl, _⟩ := settles
  exact ⟨_, _, _, res, inv.setRegions ok kept⟩

section Isolate

variable {act : Nat → Nat → MemblockType → Except MemblockBug MemblockType}
  {op : Nat → Nat → AttrMap → AttrMap}

/-- The call comes back if making room does, with a state that satisfies `P`. -/
theorem isolateRange_total (actOk : ActOk act op) (inv : MemblockOk mb) {P : Memblock → Prop}
    (self : P mb)
    (made : ∃ err mid rest, makeRoom depth mb searches ty 2 base (memblockCapSize base size) =
      .ok (err, mid, rest) ∧ MemblockOk mid ∧ P mid)
    (kept : ∀ mid, P mid → ty = .reserved → mid.slab = false → ∀ a, Covered mid.reserved.regions a →
      (∃ ty', InStorage (mid.type ty') a) →
      ∃ t, op base (base + memblockCapSize base size) (mid.type ty).map a t) :
    Returns (isolateRangeWith (makeRoom depth) mb searches ty base size act) := by
  by_cases none : memblockCapSize base size = 0
  · exact (isolateRangeWith_none actOk inv.types none).returns inv (kept mb self)
  obtain ⟨err, mid, rest, res, invMid, here⟩ := made
  cases err with
  | enomem =>
    refine ⟨.enomem, mid, rest, ?_, invMid⟩
    simp only [isolateRangeWith, if_neg none, res]
  | zero =>
    obtain ⟨_, _, _, done⟩ := (roomOk_makeRoom depth).spec _ _ _ _ _ _ _ _ _ inv.types res
    exact (isolateRangeWith_room actOk invMid.types none res (done rfl).1).returns invMid
      (kept mid here)

theorem isolateRange_memory (actOk : ActOk act op) (inv : MemblockOk mb)
    (room : HasRoom mb .memory 2 ∨ HasRoom mb .reserved 3) :
    Returns (isolateRangeWith (makeRoom depth) mb searches .memory base size act) := by
  refine isolateRange_total (P := fun _ => True) actOk inv trivial ?_ fun _ _ other => by cases other
  rcases room with room | spare
  · exact ⟨_, _, _, makeRoom_fits depth room, inv, trivial⟩
  have count := (inv.types .memory).count
  have large := (inv.types .memory).large
  simp only [initMemblockRegions, type_memory] at count large
  obtain ⟨err, mid, rest, made, inv', _⟩ := @makeRoom_memory 2 base (memblockCapSize base size) 1 mb
    searches depth inv spare (by omega)
  exact ⟨err, mid, rest, made, inv', trivial⟩

end Isolate

theorem changeRange_reserved (change : RegionAttr → RegionAttr) (inv : MemblockOk mb) :
    Returns (isolateRangeWith (makeRoom depth) mb searches .reserved base size
      (changeAttrs change)) := by
  have large := (inv.types .reserved).large
  simp only [initMemblockRegions, type_reserved] at large
  refine isolateRange_total (P := fun _ => True) (actOk_change change) inv trivial ?_
    fun mid _ _ _ a covered _ => ?_
  · obtain ⟨err, mid, rest, made, inv', _⟩ := @makeRoom_reserved mb searches 2 base
      (memblockCapSize base size) depth inv (by omega)
    exact ⟨err, mid, rest, made, inv', trivial⟩
  · obtain ⟨t, here⟩ := covered
    exact ⟨_, t, here, rfl⟩

def AvoidsArrays (mb : Memblock) (base size : Nat) : Prop :=
  ∀ ty a, InStorage (mb.type ty) a → ¬(base ≤ a ∧ a < base + memblockCapSize base size)

theorem removeRange_reserved (inv : MemblockOk mb)
    (spared : mb.slab = false → AvoidsArrays mb base size ∧ (HasRoom mb .reserved 2 ∨ base ≠ 0)) :
    Returns (removeRangeWith (makeRoom depth) mb searches .reserved base size) := by
  have large := (inv.types .reserved).large
  simp only [initMemblockRegions, type_reserved] at large
  refine isolateRange_total (P := fun mid => mid.slab = mb.slab ∧ (HasRoom mb .reserved 2 → mid = mb) ∧
      Avoids mb mid base (memblockCapSize base size)) actOk_remove inv
    ⟨rfl, fun _ => rfl, fun _ _ _ _ inside => .inl inside⟩ ?_
    fun mid here _ slab a covered inside => ?_
  · obtain ⟨err, mid, rest, made, inv', slab, same, avoids, _⟩ := @makeRoom_reserved mb searches 2 base
      (memblockCapSize base size) depth inv (by omega)
    exact ⟨err, mid, rest, made, inv', slab, same, avoids⟩
  obtain ⟨sameSlab, same, avoids⟩ := here
  obtain ⟨t, here⟩ := covered
  obtain ⟨ty, inside⟩ := inside
  obtain ⟨apart, room | start⟩ := spared (sameSlab.symm.trans slab)
  · rw [same room] at inside
    exact ⟨t, here, apart ty a inside⟩
  refine ⟨t, here, ?_⟩
  rcases avoids (sameSlab.symm.trans slab) start ty a inside with old | out
  · exact apart ty a old
  · exact out

section Add

variable {attr : RegionAttr}

theorem addRange_total (inv : MemblockOk mb)
    (made : Filled (mb.type ty) → memblockCapSize base size ≠ 0 →
      ∃ err mid rest, makeRoom depth mb searches ty (missing mb ty base size) base
          (memblockCapSize base size) = .ok (err, mid, rest) ∧ MemblockOk mid ∧
        (err = .zero → Filled (mid.type ty) ∧ HasRoom mid ty (missing mid ty base size))) :
    Returns (addRangeWith (makeRoom depth) mb searches ty base size attr) := by
  have kept (mid : Memblock) (reserved : ty = .reserved) (_ : mid.slab = false) (a : Nat)
      (covered : Covered mid.reserved.regions a) (_ : ∃ ty', InStorage (mid.type ty') a) :
      ∃ t, (mid.type ty).map.add base (base + memblockCapSize base size) attr a t := by
    subst reserved
    exact covered.imp fun t here => .inl here
  by_cases none : memblockCapSize base size = 0
  · exact ⟨_, _, _, addRangeWith_none none, inv⟩
  rcases (inv.types ty).empty_or_filled with empty | filled
  · exact (addRangeWith_first inv.types none empty).returns inv (kept mb)
  obtain ⟨err, mid, rest, res, invMid, done⟩ := made filled none
  cases err with
  | enomem =>
    refine ⟨.enomem, mid, rest, ?_, invMid⟩
    simp only [addRangeWith_counted inv.types filled none, res]
  | zero =>
    obtain ⟨filled', room⟩ := done rfl
    exact (addRangeWith_room inv.types filled none invMid.types res filled' room).returns invMid
      (kept mid)

theorem addRange_fits (inv : MemblockOk mb) (room : HasRoom mb ty (missing mb ty base size)) :
    Returns (addRangeWith (makeRoom depth) mb searches ty base size attr) :=
  addRange_total inv fun filled _ => ⟨_, _, _, makeRoom_fits depth room, inv, fun _ => ⟨filled, room⟩⟩

theorem missing_eq_card (ok : MemOk mb) (filled : Filled (mb.type ty)) : missing mb ty base size =
      (gapStarts base (base + memblockCapSize base size) (Covered (mb.type ty).regions)).card :=
  gaps_eq_card (inOrder_of_apart (ok ty).apart) ((ok ty).nonempty filled).2

theorem addRange_reserved (inv : MemblockOk mb) (steady : Steady mb .reserved)
    (few : missing mb .reserved base size + 5 ≤ mb.reserved.max) :
    Returns (addRangeWith (makeRoom depth) mb searches .reserved base size attr) := by
  refine addRange_total inv fun filled _ => ?_
  obtain ⟨err, mid, rest, made, inv', _, _, _, gaps⟩ := @makeRoom_reserved mb searches
    (missing mb .reserved base size) base (memblockCapSize base size) depth inv few
  refine ⟨err, mid, rest, made, inv', fun zero => ?_⟩
  obtain ⟨_, _, _, done⟩ := (roomOk_makeRoom depth).spec _ _ _ _ _ _ _ _ _ inv.types made
  have filled' := (done zero).2 steady filled
  refine ⟨filled', ?_⟩
  rw [missing_eq_card inv'.types filled']
  exact gaps zero base _ (Nat.le_of_eq (missing_eq_card inv.types filled).symm)

theorem addRange_memory (inv : MemblockOk mb) (spare : HasRoom mb .reserved 6) :
    Returns (addRangeWith (makeRoom depth) mb searches .memory base size attr) := by
  refine addRange_total inv fun filled _ => ?_
  have count := (inv.types .memory).count
  have one := (inv.types .memory).one_le
  have few : missing mb .memory base size ≤ _ := gaps_le _ _ _
  simp only [type_memory] at count one few
  obtain ⟨err, mid, rest, made, inv', same⟩ := @makeRoom_memory (missing mb .memory base size) base
    (memblockCapSize base size) 2 mb searches depth inv spare (by omega)
  refine ⟨err, mid, rest, made, inv', fun zero => ?_⟩
  obtain ⟨_, _, _, done⟩ := (roomOk_makeRoom depth).spec _ _ _ _ _ _ _ _ _ inv.types made
  have room := (done zero).1
  simp only [Filled, missing, type_memory, same] at filled room ⊢
  exact ⟨filled, room⟩

end Add

end Calls

end Linux318.Source.Mm
