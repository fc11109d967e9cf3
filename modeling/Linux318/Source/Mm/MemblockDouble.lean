import Linux318.Source.Mm.MemblockRoom

/-!
`memblock_double_array`: what it leaves behind when it comes back, also with the nested calls, and
the loop around it. See mm/memblock.c:320-414.
-/
namespace Linux318.Source.Mm
open Lib Block List

variable {type : MemblockType} {entries : Nat}

section Place

variable {mb : Memblock} {ty : Which} {search : Search} {areaStart areaSize size addr : Nat}

section
variable {proposal start fin : Nat} (found : memblockFindInRange mb proposal start fin size = addr)
  (some : addr ≠ 0)
include found some

theorem memblockFindInRange_free : Free mb addr (addr + size) := by
  rcases ite_eq_iff.mp found with ⟨⟨_, _, _, memory, apart⟩, rfl⟩ | ⟨_, none⟩
  · refine ⟨memory, fun a low high => ?_⟩
    rintro ⟨t, r, mem, rlow, rhigh, _⟩
    have := apart r mem
    simp only [top] at rhigh
    omega
  · exact absurd none.symm some

theorem memblockFindInRange_bounds : start ≤ addr ∧ pageSize ≤ addr ∧
      addr + size ≤ max (max start pageSize) (if fin = 0 then mb.currentLimit else fin) := by
  rcases ite_eq_iff.mp found with ⟨⟨_, low, high, _⟩, rfl⟩ | ⟨_, none⟩
  · exact ⟨by omega, by omega, high⟩
  · exact absurd none.symm some

end

/-- The new array of the reserved type avoids the area, if that does not begin at 0. -/
theorem newArrayAddr_area (found : newArrayAddr mb .reserved search areaStart areaSize size = addr)
    (some : addr ≠ 0) (noSlab : mb.slab = false) (pos : 0 < size) (start : areaStart ≠ 0) :
    areaStart + areaSize ≤ addr ∨ addr + size ≤ areaStart := by
  simp only [newArrayAddr, noSlab, Bool.false_eq_true, if_false, if_true] at found
  split_ifs at found with retry
  · obtain ⟨_, page, high⟩ := memblockFindInRange_bounds found some
    split_ifs at high <;> omega
  · exact .inl (memblockFindInRange_bounds found some).1

theorem newArrayAddr_free (found : newArrayAddr mb ty search areaStart areaSize size = addr)
    (some : addr ≠ 0) (noSlab : mb.slab = false) : Free mb addr (addr + size) := by
  simp only [newArrayAddr, noSlab, Bool.false_eq_true, if_false] at found
  split_ifs at found <;> exact memblockFindInRange_free found some

theorem Free.bound {lo hi : Nat} (free : Free mb lo hi) (ok : MemOk mb) : hi < 2 ^ 64 := by
  obtain ⟨r, mem, _, high⟩ := free.memory
  have := (ok .memory).noWrap r mem
  omega

end Place

/-- The array of a type is a whole number of pages. -/
theorem pageAlign_array (dvd : initMemblockRegions ∣ entries) :
    pageAlign (entries * sizeofRegion) = entries * sizeofRegion := by
  obtain ⟨k, rfl⟩ := dvd
  simp only [pageAlign, initMemblockRegions, sizeofRegion]
  omega

theorem memblockCapSize_eq {base size : Nat} (bound : base + size < 2 ^ 64) :
    memblockCapSize base size = size := by
  unfold memblockCapSize
  omega

theorem TypeOk.doubled (ok : TypeOk type) (addr : Nat) : TypeOk (type.doubled addr) :=
  ⟨ok.entries, ok.apart, ok.noWrap, ok.total, Nat.le_trans ok.count (by
    simp only [MemblockType.doubled]
    omega), Dvd.dvd.mul_right ok.max_dvd 2⟩

section Double

variable {room : Room} {mb after : Memblock} {searches rest : List Search}
  {ty : Which} {areaStart areaSize : Nat} {err : MemblockErr}

/-- `memblock_double_array` with `memblock_free` and `memblock_reserve`. -/
def doubleWith (room : Room) (mb : Memblock) (searches : List Search) (ty : Which)
    (areaStart areaSize : Nat) : Outcome :=
  memblockDoubleArray
    (fun mb searches base size => removeRangeWith room mb searches .reserved base size)
    (fun mb searches base size => addRangeWith room mb searches .reserved base size noAttr)
    mb searches ty areaStart areaSize

/-- Freeing the old array, unless it is a static one or from the slab allocator. -/
def freeOld (room : Room) (type : MemblockType) (mb : Memblock) (searches : List Search) : Outcome :=
  match type.inSlab, type.array with
  | false, some old =>
    removeRangeWith room mb searches .reserved old (pageAlign (type.max * sizeofRegion))
  | _, _ => .ok (.zero, mb, searches)

def reserveNew (room : Room) (ty : Which) (addr size : Nat) (mb : Memblock) (searches : List Search) :
    Outcome :=
  if mb.slab then .ok (.zero, flagged mb ty, searches)
  else match addRangeWith room mb searches .reserved addr size noAttr with
    | .error bug => .error bug
    | .ok (.enomem, _, _) => .error .reserveArray
    | .ok (.zero, mb, searches) => .ok (.zero, flagged mb ty, searches)

def replaceArray (room : Room) (mb : Memblock) (ty : Which) (addr : Nat) (searches : List Search) :
    Outcome :=
  match freeOld room (mb.type ty) (mb.setType ty ((mb.type ty).doubled addr)) searches with
  | .error bug => .error bug
  | .ok (_, mid, rest) =>
    reserveNew room ty addr (pageAlign ((mb.type ty).max * 2 * sizeofRegion)) mid rest

def placeFor (mb : Memblock) (ty : Which) (search : Search) (areaStart areaSize : Nat) : Nat :=
  newArrayAddr mb ty search areaStart areaSize (pageAlign ((mb.type ty).max * 2 * sizeofRegion))

theorem doubleWith_off (off : mb.canResize = false) :
    doubleWith room mb searches ty areaStart areaSize = .ok (.enomem, mb, searches) := by
  simp [doubleWith, memblockDoubleArray, off]

theorem doubleWith_unanswered : doubleWith room mb [] ty areaStart areaSize =
    .ok (.enomem, mb, []) := by
  simp [doubleWith, memblockDoubleArray]

section Answered

variable {search : Search}

theorem oldSize_twice (type : MemblockType) :
    type.max * sizeofRegion * 2 = type.max * 2 * sizeofRegion := by
  simp only [sizeofRegion]
  omega

theorem doubleWith_none (resize : mb.canResize = true)
    (none : placeFor mb ty search areaStart areaSize = 0) :
    doubleWith room mb (search :: searches) ty areaStart areaSize = .ok (.enomem, mb, searches) := by
  rw [placeFor] at none
  simp [doubleWith, memblockDoubleArray, resize, oldSize_twice, none]

section
variable (resize : mb.canResize = true) (found : placeFor mb ty search areaStart areaSize ≠ 0)
include resize found

theorem doubleWith_overlap (overlap : mb.slab = false ∧
    overlapsArray mb (placeFor mb ty search areaStart areaSize)
      ((mb.type ty).max * 2 * sizeofRegion)) :
    doubleWith room mb (search :: searches) ty areaStart areaSize = .error .overlapArray := by
  rw [placeFor] at found overlap
  simp [doubleWith, memblockDoubleArray, resize, oldSize_twice, if_neg found, if_pos overlap]

theorem doubleWith_found (apart :
    ¬(mb.slab = false ∧ overlapsArray mb (placeFor mb ty search areaStart areaSize)
      ((mb.type ty).max * 2 * sizeofRegion))) :
    doubleWith room mb (search :: searches) ty areaStart areaSize =
      replaceArray room mb ty (placeFor mb ty search areaStart areaSize) searches := by
  unfold placeFor at *
  simp only [doubleWith, memblockDoubleArray, resize, oldSize_twice, if_neg found, if_neg apart]
  rfl

end

end Answered

/-- A doubling comes back without having done anything, or it has found a place. -/
theorem doubleWith_cases
    (result : doubleWith room mb searches ty areaStart areaSize = .ok (err, after, rest)) :
    (err = .enomem ∧ after = mb) ∨
    ∃ search tail, placeFor mb ty search areaStart areaSize ≠ 0 ∧
      ∃ err' mid rest', freeOld room (mb.type ty)
          (mb.setType ty ((mb.type ty).doubled (placeFor mb ty search areaStart areaSize))) tail =
        .ok (err', mid, rest') ∧
      reserveNew room ty (placeFor mb ty search areaStart areaSize)
        (pageAlign ((mb.type ty).max * 2 * sizeofRegion)) mid rest' = .ok (err, after, rest) := by
  by_cases resize : mb.canResize = true
  swap
  · obtain ⟨rfl, rfl, rfl⟩ := outcome_inj (doubleWith_off (by simpa using resize)) result
    exact .inl ⟨rfl, rfl⟩
  cases searches with
  | nil =>
    obtain ⟨rfl, rfl, rfl⟩ := outcome_inj doubleWith_unanswered result
    exact .inl ⟨rfl, rfl⟩
  | cons search tail =>
    by_cases none : placeFor mb ty search areaStart areaSize = 0
    · obtain ⟨rfl, rfl, rfl⟩ := outcome_inj (doubleWith_none resize none) result
      exact .inl ⟨rfl, rfl⟩
    by_cases overlap : mb.slab = false ∧ overlapsArray mb (placeFor mb ty search areaStart areaSize)
        ((mb.type ty).max * 2 * sizeofRegion)
    · rw [doubleWith_overlap resize none overlap] at result
      cases result
    rw [doubleWith_found resize none overlap, replaceArray] at result
    refine .inr ⟨search, tail, none, ?_⟩
    split at result
    · cases result
    · exact ⟨_, _, _, by assumption, result⟩

theorem freeOld_spec (roomOk : RoomOk room) (ok : MemOk mb)
    (result : freeOld room type mb searches = .ok (err, after, rest)) :
    MemOk after ∧ ∃ mid, Resizes .reserved mb mid ∧ FreesArray type mid after := by
  unfold freeOld at result
  split at result
  · rename_i inSlab found
    simp only [FreesArray, inSlab, found]
    obtain ⟨ok', mid, resizes, _, ⟨_, full, rfl⟩ | ⟨_, remaps⟩⟩ :=
      isolateRangeWith_spec actOk_remove roomOk ok result
    · exact ⟨ok', after, resizes, .inl ⟨full, rfl⟩⟩
    · exact ⟨ok', mid, resizes, .inr remaps⟩
  · obtain ⟨rfl, rfl, rfl⟩ := outcome_inj rfl result
    refine ⟨ok, mb, .refl mb, ?_⟩
    unfold FreesArray
    split <;> simp_all

theorem memOk_flagged (ok : MemOk mb) : MemOk (flagged mb ty) :=
  ok.setType ⟨(ok ty).entries, (ok ty).apart, (ok ty).noWrap, (ok ty).total, (ok ty).count,
    (ok ty).max_dvd⟩

theorem reserveNew_spec (roomOk : RoomOk room) {addr : Nat} (ok : MemOk mb)
    (result : reserveNew room ty addr (pageAlign (entries * sizeofRegion)) mb searches =
      .ok (err, after, rest)) :
    MemOk after ∧ err = .zero ∧ ∃ mid reserved, Resizes .reserved mb mid ∧
      ReservesArray addr entries mid reserved ∧ after = flagged reserved ty := by
  unfold reserveNew at result
  split_ifs at result with slab
  · obtain ⟨rfl, rfl, rfl⟩ := outcome_inj rfl result
    exact ⟨memOk_flagged ok, rfl, mb, mb, .refl mb, by rw [ReservesArray, if_pos slab], rfl⟩
  split at result
  · cases result
  · cases result
  rename_i last rest' added
  obtain ⟨rfl, rfl, rfl⟩ := outcome_inj rfl result
  obtain ⟨ok', mid, resizes, _, ⟨no, _⟩ | ⟨_, remaps⟩⟩ :=
    addRangeWith_spec roomOk ok (.inr fun _ yes => absurd yes slab) added
  · cases no
  · refine ⟨memOk_flagged ok', rfl, mid, last, resizes, ?_, rfl⟩
    rwa [ReservesArray, if_neg (by rwa [resizes.kept.2])]

section
variable (roomOk : RoomOk room) (ok : MemOk mb)
  (result : doubleWith room mb searches ty areaStart areaSize = .ok (err, after, rest))
include roomOk ok result

/-- A doubling that has found a place, step by step. -/
theorem doubleWith_steps : (err = .enomem ∧ after = mb) ∨
    ∃ search tail err' mid freed rest', placeFor mb ty search areaStart areaSize ≠ 0 ∧
      freeOld room (mb.type ty)
          (mb.setType ty ((mb.type ty).doubled (placeFor mb ty search areaStart areaSize))) tail =
        .ok (err', freed, rest') ∧ MemOk freed ∧
      Resizes .reserved
        (mb.setType ty ((mb.type ty).doubled (placeFor mb ty search areaStart areaSize))) mid ∧
      FreesArray (mb.type ty) mid freed ∧
      reserveNew room ty (placeFor mb ty search areaStart areaSize)
        (pageAlign ((mb.type ty).max * 2 * sizeofRegion)) freed rest' = .ok (err, after, rest) := by
  rcases doubleWith_cases result with
    failed | ⟨search, tail, some, err', freed, rest', free, reserved⟩
  · exact .inl failed
  obtain ⟨ok', mid, resizes, frees⟩ := freeOld_spec roomOk (ok.setType ((ok ty).doubled _)) free
  exact .inr ⟨search, tail, err', mid, freed, rest', some, free, ok', resizes, frees, reserved⟩

theorem doubleWith_spec : MemOk after ∧ ((err = .enomem ∧ after = mb) ∨
    err = .zero ∧ ∀ last, Resizes ty after last → Resizes ty mb last) := by
  rcases doubleWith_steps roomOk ok result with
    ⟨failed, rfl⟩ | ⟨search, tail, err', mid, freed, rest', some, _, ok', resizes, frees, reserved⟩
  · exact ⟨ok, .inl ⟨failed, rfl⟩⟩
  · obtain ⟨ok'', zero, mid', last, resizes', reserves, rfl⟩ := reserveNew_spec roomOk ok' reserved
    exact ⟨ok'', .inr ⟨zero, fun _ => .double (fun slab => newArrayAddr_free rfl some slab) resizes
      frees resizes' reserves⟩⟩

end

/-- There is always room for freeing an array in the reserved type when that type grows. -/
theorem hasRoom_doubled (ok : MemOk mb) (addr : Nat) :
    HasRoom (mb.setType .reserved (mb.reserved.doubled addr)) .reserved 2 := by
  have count := (ok .reserved).count
  have large := (ok .reserved).large
  simp only [initMemblockRegions, Memblock.type] at count large
  simp only [HasRoom, type_setType, MemblockType.doubled]
  omega

/-- The reserved type after its old array was freed. -/
theorem freeOld_filled (roomOk : RoomOk room) {addr : Nat} (ok : MemOk mb) (slab : mb.slab = true)
    (steady : Steady mb .reserved) (filled : Filled mb.reserved)
    (result : freeOld room mb.reserved (mb.setType .reserved (mb.reserved.doubled addr)) searches =
      .ok (err, after, rest)) : Filled after.reserved := by
  have moved : MemOk (mb.setType .reserved (mb.reserved.doubled addr)) :=
    ok.setType ((ok .reserved).doubled addr)
  unfold freeOld at result
  split at result
  · rename_i old inSlab found
    obtain ⟨_, mid, _, same, failed | ⟨_, regions, rfl, map⟩⟩ :=
      isolateRangeWith_spec actOk_remove roomOk moved result
    all_goals obtain rfl := same (hasRoom_doubled ok addr)
    · exact absurd (hasRoom_doubled ok addr) failed.2.1
    obtain ⟨a, ⟨t, here⟩, out⟩ := steady rfl slab old (old + mb.reserved.max * sizeofRegion) (by
      simp [MemblockType.storage, inSlab, found])
    refine ⟨a, t, ?_⟩
    have dvd : initMemblockRegions ∣ mb.reserved.max := (ok .reserved).max_dvd
    rw [pageAlign_array dvd] at map
    show At regions a t
    rw [map]
    refine ⟨here, fun range => out ⟨range.1, ?_⟩⟩
    have := range.2
    unfold memblockCapSize at this
    omega
  · obtain ⟨rfl, rfl, rfl⟩ := outcome_inj rfl result
    exact filled

theorem reserveNew_filled (roomOk : RoomOk room) {addr size : Nat} (ok : MemOk mb)
    (slab : mb.slab = false) (pos : 0 < size) (bound : addr + size < 2 ^ 64)
    (result : reserveNew room .reserved addr size mb searches = .ok (err, after, rest)) :
    Filled after.reserved := by
  simp only [reserveNew, slab, Bool.false_eq_true, if_false] at result
  split at result
  · cases result
  · cases result
  rename_i last rest' added
  obtain ⟨rfl, rfl, rfl⟩ := outcome_inj rfl result
  obtain ⟨_, mid, _, _, ⟨none, _⟩ | ⟨_, regions, rfl, map⟩⟩ := addRangeWith_spec roomOk ok
    (.inr fun _ yes => by simp [slab] at yes) added
  · cases none
  have covers : ∃ t, At regions addr t := by
    rw [map, memblockCapSize_eq bound]
    by_cases old : ∃ t, (mid.type .reserved).map addr t
    · exact old.imp fun t here => .inl here
    · exact ⟨noAttr, .inr ⟨Nat.le_refl _, by omega, rfl, fun s here => old ⟨s, here⟩⟩⟩
  exact ⟨addr, covers⟩

theorem doubleWith_filled (roomOk : RoomOk room) (ok : MemOk mb)
    (result : doubleWith room mb searches ty areaStart areaSize = .ok (.zero, after, rest))
    (steady : Steady mb ty) (filled : Filled (mb.type ty)) :
    Filled (after.type ty) ∧ Steady after ty := by
  obtain ⟨_, ⟨no, _⟩ | ⟨_, resizes⟩⟩ := doubleWith_spec roomOk ok result
  · cases no
  have kept := (resizes after (.refl after)).kept
  cases ty with
  | memory =>
    refine ⟨?_, fun other => by cases other⟩
    obtain ⟨a, here⟩ := filled
    exact ⟨a, by simpa only [Memblock.type, kept.1] using here⟩
  | reserved =>
    rcases doubleWith_steps roomOk ok result with
      ⟨none, _⟩ | ⟨search, tail, err', mid, freed, rest', some, free, ok', freeing, frees, reserved⟩
    · cases none
    have sameSlab : after.slab = mb.slab := kept.2
    have freedSlab : freed.slab = mb.slab := frees.kept.2.trans freeing.kept.2
    cases slab : mb.slab with
    | false =>
      refine ⟨?_, fun _ yes => by simp [sameSlab, slab] at yes⟩
      have bound := (newArrayAddr_free rfl some slab).bound ok
      have large := (ok .reserved).large
      simp only [initMemblockRegions] at large
      exact reserveNew_filled roomOk ok' (freedSlab.trans slab)
        (by simp only [pageAlign, sizeofRegion]; omega) bound reserved
    | true =>
      have filled' := freeOld_filled roomOk ok slab steady filled free
      have midSlab : freed.slab = true := freedSlab.trans slab
      rw [reserveNew, if_pos midSlab] at reserved
      obtain ⟨_, rfl, rfl⟩ := outcome_inj rfl reserved
      refine ⟨filled', fun _ _ lo hi found => ?_⟩
      simp [flagged, MemblockType.storage, midSlab] at found

end Double

section Loop

variable {mb : Memblock} {searches : List Search} {ty : Which} {need areaStart areaSize : Nat}

theorem makeRoom_fits (depth : Nat) (room : HasRoom mb ty need) :
    makeRoom depth mb searches ty need areaStart areaSize = .ok (.zero, mb, searches) := by
  have enough : ¬(mb.type ty).regions.length + need > (mb.type ty).max := Nat.not_lt.mpr room
  cases depth <;> simp only [makeRoom, if_neg enough]

theorem makeRoom_full (depth : Nat) (full : ¬HasRoom mb ty need) :
    makeRoom (depth + 1) mb searches ty need areaStart areaSize =
      match doubleWith (makeRoom depth) mb searches ty areaStart areaSize with
      | .error bug => .error bug
      | .ok (.enomem, mb, searches) => .ok (.enomem, mb, searches)
      | .ok (.zero, mb, searches) => makeRoom depth mb searches ty need areaStart areaSize := by
  have more : (mb.type ty).regions.length + need > (mb.type ty).max := Nat.lt_of_not_le full
  simp only [makeRoom, if_pos more]
  rfl

end Loop

theorem roomOk_makeRoom (depth : Nat) : RoomOk (makeRoom depth) := by
  refine ⟨fun mb searches ty need areaStart areaSize => makeRoom_fits depth, ?_⟩
  induction depth with
  | zero =>
    intro mb searches ty need areaStart areaSize err after rest ok result
    obtain ⟨rfl, rfl, rfl⟩ := outcome_inj rfl result
    refine ⟨ok, .refl mb, fun failed => ?_, fun zero => ⟨?_, fun _ filled => filled⟩⟩
    · split_ifs at failed with full
      exact Nat.not_le_of_lt full
    · split_ifs at zero with full
      exact Nat.le_of_not_lt full
  | succ depth ih =>
    intro mb searches ty need areaStart areaSize err after rest ok result
    have roomOk : RoomOk (makeRoom depth) := ⟨fun _ _ _ _ _ _ => makeRoom_fits depth, ih⟩
    by_cases room : HasRoom mb ty need
    · obtain ⟨rfl, rfl, rfl⟩ := outcome_inj (makeRoom_fits (depth + 1) room) result
      exact ⟨ok, .refl mb, nofun, fun _ => ⟨room, fun _ filled => filled⟩⟩
    rw [makeRoom_full depth room] at result
    split at result
    · cases result
    · rename_i mid rest' doubled
      obtain ⟨rfl, rfl, rfl⟩ := outcome_inj rfl result
      obtain ⟨ok', ⟨_, rfl⟩ | ⟨no, _⟩⟩ := doubleWith_spec roomOk ok doubled
      · exact ⟨ok', .refl _, fun _ => room, nofun⟩
      · cases no
    rename_i mid rest' doubled
    obtain ⟨ok', ⟨no, _⟩ | ⟨_, resizes⟩⟩ := doubleWith_spec roomOk ok doubled
    · cases no
    obtain ⟨ok'', next, full, done⟩ := ih _ _ _ _ _ _ _ _ _ ok' result
    refine ⟨ok'', resizes _ next, full, fun zero => ⟨(done zero).1, fun steady filled => ?_⟩⟩
    obtain ⟨filled', steady'⟩ := doubleWith_filled roomOk ok doubled steady filled
    exact (done zero).2 steady' filled'

end Linux318.Source.Mm
