import Linux318.Source.Mm.MemblockDouble

/-!
The arrays that memblock has found for itself are reserved, so that a new array never meets one
that is in use. With that, the resizing of an array cannot fail as long as the reserved type has
some entries left.
-/
namespace Linux318.Source.Mm
open Lib Block

def InStorage (type : MemblockType) (a : Nat) : Prop :=
  ∃ lo hi, type.storage = some (lo, hi) ∧ lo ≤ a ∧ a < hi

/-- Before the slab allocator is there, all arrays are reserved, and they do not overlap. -/
structure ArraysOk (mb : Memblock) : Prop where
  found : ∀ ty, (mb.type ty).inSlab = false
  covered : ∀ ty a, InStorage (mb.type ty) a → Covered mb.reserved.regions a
  apart : ∀ a, InStorage mb.memory a → ¬InStorage mb.reserved a

variable {type : MemblockType} {a : Nat}

theorem InStorage.congr {type' : MemblockType} (array : type'.array = type.array)
    (max : type'.max = type.max) (inSlab : type'.inSlab = type.inSlab) :
    InStorage type' a ↔ InStorage type a := by
  simp only [InStorage, MemblockType.storage, array, max, inSlab]

theorem inStorage_iff (found : type.inSlab = false) : InStorage type a ↔
      ∃ addr, type.array = some addr ∧ addr ≤ a ∧ a < addr + type.max * sizeofRegion := by
  simp only [InStorage, MemblockType.storage, found, Bool.false_eq_true, if_false,
    Option.map_eq_some_iff, Prod.mk.injEq]
  constructor
  · rintro ⟨lo, hi, ⟨addr, array, rfl, rfl⟩, low, high⟩
    exact ⟨addr, array, low, high⟩
  · rintro ⟨addr, array, low, high⟩
    exact ⟨addr, _, ⟨addr, array, rfl, rfl⟩, low, high⟩

section Free

variable {mb : Memblock} {lo hi : Nat}

theorem Free.not_inStorage (free : Free mb lo hi) (arrays : ArraysOk mb) (ty : Which) (low : lo ≤ a)
    (high : a < hi) : ¬InStorage (mb.type ty) a :=
  fun inside => free.reserved a low high (arrays.covered ty a inside)

/-- A place that is free has no byte in common with an array. -/
theorem Free.not_meets (free : Free mb lo hi) (arrays : ArraysOk mb) (ok : MemOk mb)
    (pos : lo < hi) (ty : Which) : (mb.type ty).storage.any (meets (lo, hi)) = false := by
  have large := (ok ty).large
  simp only [initMemblockRegions] at large
  rw [MemblockType.storage, if_neg (by simp [arrays.found ty])]
  cases array : (mb.type ty).array with
  | none => rfl
  | some addr =>
    simp only [Option.map_some, Option.any_some, meets, Bool.and_eq_false_iff, decide_eq_false_iff_not]
    by_contra both
    refine free.not_inStorage arrays ty (a := max lo addr) (by omega) (by omega) ?_
    rw [inStorage_iff (arrays.found ty)]
    refine ⟨addr, array, by omega, ?_⟩
    simp only [sizeofRegion] at *
    omega

theorem Free.not_overlapsArray {size : Nat} (free : Free mb lo (lo + size)) (arrays : ArraysOk mb)
    (ok : MemOk mb) (pos : 0 < size) : overlapsArray mb lo size = false := by
  have memory := free.not_meets arrays ok (by omega) .memory
  have reserved := free.not_meets arrays ok (by omega) .reserved
  simp only [Memblock.type] at memory reserved
  rw [overlapsArray, memory, reserved]
  rfl

end Free

section Steps

variable {mb : Memblock} {searches : List Search} {ty : Which} (depth : Nat)

theorem covered_bound (ok : MemOk mb) {a : Nat} (covered : Covered (mb.type ty).regions a) :
    a < 0xffffffffffffffff := by
  obtain ⟨t, r, mem, _, high, _⟩ := covered
  have := (ok ty).noWrap r mem
  omega

theorem isolateRangeWith_fits {act : Nat → Nat → MemblockType → Except MemblockBug MemblockType}
    {op : Nat → Nat → AttrMap → AttrMap} (actOk : ActOk act op) (ok : MemOk mb) (base size : Nat)
    (room : HasRoom mb ty 2) :
    Settles (isolateRangeWith (makeRoom depth) mb searches ty base size act) mb searches ty
      (op base (base + memblockCapSize base size) (mb.type ty).map) 2 := by
  by_cases none : memblockCapSize base size = 0
  · exact isolateRangeWith_none actOk ok none
  · exact isolateRangeWith_room actOk ok none (makeRoom_fits depth room) room

theorem freeOld_total {type : MemblockType} (dvd : initMemblockRegions ∣ type.max) (ok : MemOk mb)
    (room : HasRoom mb .reserved 2) : ∃ regions, freeOld (makeRoom depth) type mb searches =
        .ok (.zero, mb.setType .reserved (withRegions mb.reserved regions), searches) ∧
      TypeOk (withRegions mb.reserved regions) ∧
      (∀ a, Covered regions a ↔ Covered mb.reserved.regions a ∧ ¬InStorage type a) ∧
      regions.length ≤ mb.reserved.regions.length + 2 := by
  unfold freeOld
  split
  · rename_i old inSlab array
    obtain ⟨regions, res, ok', map, length⟩ :=
      isolateRangeWith_fits depth actOk_remove ok old (pageAlign (type.max * sizeofRegion)) room
    refine ⟨regions, res, ok', fun a => ?_, length⟩
    rw [pageAlign_array dvd] at map
    rw [inStorage_iff inSlab, Covered, map]
    constructor
    · rintro ⟨t, here, out⟩
      refine ⟨⟨t, here⟩, ?_⟩
      rintro ⟨addr, same, low, high⟩
      obtain rfl : old = addr := Option.some.inj (array.symm.trans same)
      have bound := @covered_bound mb .reserved ok a ⟨t, here⟩
      unfold memblockCapSize at out
      omega
    · rintro ⟨⟨t, here⟩, out⟩
      refine ⟨t, here, fun range => out ⟨old, array, range.1, ?_⟩⟩
      have := range.2
      unfold memblockCapSize at this
      omega
  · rename_i notFound
    have none (a : Nat) : ¬InStorage type a := by
      rintro ⟨lo, hi, found, _⟩
      unfold MemblockType.storage at found
      split_ifs at found with inSlab
      obtain ⟨addr, array, _⟩ := Option.map_eq_some_iff.mp found
      exact notFound addr (by simpa using inSlab) array
    have same := (ok .reserved).eq_withRegions
    simp only [Memblock.type] at same
    refine ⟨mb.reserved.regions, ?_, ?_, fun a => by simp [none a], by omega⟩
    · rw [← same]
      rfl
    · rw [← same]
      exact ok .reserved

theorem reserveNew_total (ok : MemOk mb) (slab : mb.slab = false) {addr size : Nat}
    (free : ∀ a, addr ≤ a → a < addr + size → ¬Covered mb.reserved.regions a)
    (bound : addr + size < 2 ^ 64) (pos : 0 < size) (room : HasRoom mb .reserved 1) :
    ∃ regions, reserveNew (makeRoom depth) ty addr size mb searches =
        .ok (.zero, flagged (mb.setType .reserved (withRegions mb.reserved regions)) ty, searches) ∧
      (∀ a, Covered regions a ↔ Covered mb.reserved.regions a ∨ (addr ≤ a ∧ a < addr + size)) ∧
      regions.length ≤ mb.reserved.regions.length + 1 := by
  have cap : memblockCapSize addr size = size := memblockCapSize_eq bound
  have some : memblockCapSize addr size ≠ 0 := by omega
  have settles : Settles (addRangeWith (makeRoom depth) mb searches .reserved addr size noAttr) mb
      searches .reserved (mb.reserved.map.add addr (addr + memblockCapSize addr size) noAttr) 1 := by
    rcases (ok .reserved).empty_or_filled with empty | filled
    · have first : Settles (addRangeWith (makeRoom depth) mb searches .reserved addr size noAttr) mb
          searches .reserved _ 0 := addRangeWith_first ok some empty
      obtain ⟨regions, res, ok', map, length⟩ := first
      exact ⟨regions, res, ok', map, by omega⟩
    have one : missing mb .reserved addr size = 1 := by
      rw [missing, gaps_eq_card (inOrder_of_apart (ok .reserved).apart)
        ((ok .reserved).nonempty filled).2, cap]
      exact (gapStarts_uncovered free).trans (if_pos (by omega))
    rw [← one]
    rw [← one] at room
    exact addRangeWith_room ok filled some ok (makeRoom_fits depth room) filled room
  obtain ⟨regions, res, -, map, length⟩ := settles
  refine ⟨regions, ?_, fun a => ?_, length⟩
  · simp only [reserveNew, slab, res]
    rfl
  rw [cap] at map
  rw [Covered, map]
  constructor
  · rintro ⟨t, here | ⟨low, high, _⟩⟩
    · exact .inl ⟨t, here⟩
    · exact .inr ⟨low, high⟩
  · rintro (⟨t, here⟩ | ⟨low, high⟩)
    · exact ⟨t, .inl here⟩
    · exact ⟨noAttr, .inr ⟨low, high, rfl, fun s here => free a low high ⟨s, here⟩⟩⟩

end Steps

structure Doubled (mb : Memblock) (ty : Which) (addr : Nat) (after : Memblock) : Prop where
  slab : after.slab = mb.slab
  grown : (after.type ty).max = (mb.type ty).max * 2 ∧ (after.type ty).array = some addr ∧
    (after.type ty).inSlab = mb.slab
  other : ∀ ty', ty' ≠ ty → (after.type ty').max = (mb.type ty').max ∧
    (after.type ty').array = (mb.type ty').array ∧ (after.type ty').inSlab = (mb.type ty').inSlab
  memory : after.memory.regions = mb.memory.regions
  covered : ∀ a, Covered after.reserved.regions a ↔
    (Covered mb.reserved.regions a ∧ ¬InStorage (mb.type ty) a) ∨
      (mb.slab = false ∧ addr ≤ a ∧ a < addr + (mb.type ty).max * 2 * sizeofRegion)
  length : after.reserved.regions.length ≤ mb.reserved.regions.length + 3

structure Placed (mb : Memblock) (ty : Which) (areaStart areaSize addr : Nat) : Prop where
  free : Free mb addr (addr + (mb.type ty).max * 2 * sizeofRegion)
  area : ty = .reserved → areaStart ≠ 0 → areaStart + areaSize ≤ addr ∨
    addr + (mb.type ty).max * 2 * sizeofRegion ≤ areaStart

section Double

variable {mb : Memblock} {searches : List Search} {ty : Which} {areaStart areaSize : Nat} (depth : Nat)

/-- The reserved type gets new regions, and the doubled type its flag. -/
theorem doubled_of_regions {addr : Nat} {regions : List MemblockRegion}
    (same : type = (mb.setType ty ((mb.type ty).doubled addr)).reserved)
    (covered : ∀ a, Covered regions a ↔
      (Covered mb.reserved.regions a ∧ ¬InStorage (mb.type ty) a) ∨
      (mb.slab = false ∧ addr ≤ a ∧ a < addr + (mb.type ty).max * 2 * sizeofRegion))
    (length : regions.length ≤ mb.reserved.regions.length + 3) :
    Doubled mb ty addr (flagged ((mb.setType ty ((mb.type ty).doubled addr)).setType .reserved
      (withRegions type regions)) ty) := by
  subst same
  cases ty with
  | memory =>
    refine ⟨rfl, ⟨rfl, rfl, rfl⟩, fun ty' other => ?_, rfl, covered, length⟩
    cases ty'
    · exact absurd rfl other
    · exact ⟨rfl, rfl, rfl⟩
  | reserved =>
    refine ⟨rfl, ⟨rfl, rfl, rfl⟩, fun ty' other => ?_, rfl, covered, length⟩
    cases ty'
    · exact ⟨rfl, rfl, rfl⟩
    · exact absurd rfl other

theorem replaceArray_total {addr : Nat} (ok : MemOk mb)
    (room : HasRoom (mb.setType ty ((mb.type ty).doubled addr)) .reserved 3)
    (free : mb.slab = false → Free mb addr (addr + (mb.type ty).max * 2 * sizeofRegion)) :
    ∃ after, replaceArray (makeRoom depth) mb ty addr searches = .ok (.zero, after, searches) ∧
      Doubled mb ty addr after := by
  have large := (ok ty).large
  simp only [initMemblockRegions] at large
  have okMoved : MemOk (mb.setType ty ((mb.type ty).doubled addr)) := ok.setType ((ok ty).doubled addr)
  have sameRegions : (mb.setType ty ((mb.type ty).doubled addr)).reserved.regions =
      mb.reserved.regions := by cases ty <;> rfl
  simp only [HasRoom, type_reserved] at room
  obtain ⟨regions, freed, ok', covered, length⟩ :=
    @freeOld_total _ searches depth _ (ok ty).max_dvd okMoved (by
      simp only [HasRoom, type_reserved]
      omega)
  rw [sameRegions] at covered length room
  rw [replaceArray, freed, pageAlign_array (Dvd.dvd.mul_right (ok ty).max_dvd 2)]
  cases slab : mb.slab with
  | true =>
    refine ⟨_, by simp only [reserveNew, slab_setType, slab]; rfl, ?_⟩
    exact doubled_of_regions rfl (fun a => by simp [covered a, slab]) (by omega)
  | false =>
    have okMid := @MemOk.setType _ _ okMoved .reserved ok'
    have bound := (free slab).bound ok
    have uncovered (a : Nat) (low : addr ≤ a)
        (high : a < addr + (mb.type ty).max * 2 * sizeofRegion) : ¬Covered regions a :=
      fun here => (free slab).reserved a low high ((covered a).mp here).1
    obtain ⟨regions', reserved, covered', length'⟩ :=
      @reserveNew_total _ searches ty depth okMid (by simpa using slab) addr _ uncovered bound
        (by simp only [sizeofRegion]; omega) (by
          simp only [HasRoom, type_setType, withRegions_regions, withRegions_max]
          omega)
    refine ⟨_, reserved, ?_⟩
    simp only [reserved_setType_reserved, withRegions_regions,
      withRegions_withRegions] at covered' length' ⊢
    refine doubled_of_regions rfl (fun a => ?_) (by omega)
    rw [covered', covered]
    simp [slab]

theorem doubleWith_total (ok : MemOk mb) (arrays : mb.slab = false → ArraysOk mb)
    (room : ty = .memory → HasRoom mb .reserved 3) :
    ∃ err after rest, doubleWith (makeRoom depth) mb searches ty areaStart areaSize =
        .ok (err, after, rest) ∧
      ((err = .enomem ∧ after = mb) ∨ (err = .zero ∧ ∃ addr, Doubled mb ty addr after ∧
        (mb.slab = false → Placed mb ty areaStart areaSize addr))) := by
  by_cases resize : mb.canResize = true
  swap
  · exact ⟨_, _, _, doubleWith_off (by simpa using resize), .inl ⟨rfl, rfl⟩⟩
  cases searches with
  | nil => exact ⟨_, _, _, doubleWith_unanswered, .inl ⟨rfl, rfl⟩⟩
  | cons search tail =>
    by_cases none : placeFor mb ty search areaStart areaSize = 0
    · exact ⟨_, _, _, doubleWith_none resize none, .inl ⟨rfl, rfl⟩⟩
    have large := (ok ty).large
    simp only [initMemblockRegions] at large
    have whole : pageAlign ((mb.type ty).max * 2 * sizeofRegion) =
      (mb.type ty).max * 2 * sizeofRegion := pageAlign_array (Dvd.dvd.mul_right (ok ty).max_dvd 2)
    have placed (slab : mb.slab = false) :
        Placed mb ty areaStart areaSize (placeFor mb ty search areaStart areaSize) := by
      refine ⟨?_, fun reserved start => ?_⟩
      · have found := newArrayAddr_free (rfl : placeFor mb ty search areaStart areaSize = _) none slab
        rwa [whole] at found
      subst reserved
      have found := newArrayAddr_area (rfl : placeFor mb .reserved search areaStart areaSize = _) none
        slab (by simp only [pageAlign, sizeofRegion]; omega) start
      rwa [whole] at found
    have apart : ¬(mb.slab = false ∧ overlapsArray mb (placeFor mb ty search areaStart areaSize)
        ((mb.type ty).max * 2 * sizeofRegion)) := by
      rintro ⟨slab, overlap⟩
      rw [(placed slab).free.not_overlapsArray (arrays slab) ok
        (by simp only [sizeofRegion]; omega)] at overlap
      cases overlap
    have room' : HasRoom (mb.setType ty ((mb.type ty).doubled
        (placeFor mb ty search areaStart areaSize))) .reserved 3 := by
      cases ty with
      | memory => exact room rfl
      | reserved =>
        have count := (ok .reserved).count
        simp only [HasRoom, type_setType, MemblockType.doubled]
        omega
    obtain ⟨after, res, doubled⟩ := replaceArray_total depth ok room' fun slab => (placed slab).free
    exact ⟨.zero, after, tail, (doubleWith_found resize none apart).trans res,
      .inr ⟨rfl, _, doubled, placed⟩⟩

section
variable {addr : Nat} {after : Memblock} (doubled : Doubled mb ty addr after)
include doubled

theorem inStorage_grown (slab : mb.slab = false) (inside : InStorage (after.type ty) a) :
    addr ≤ a ∧ a < addr + (mb.type ty).max * 2 * sizeofRegion := by
  obtain ⟨max, array, inSlab⟩ := doubled.grown
  obtain ⟨addr', found, range⟩ := (inStorage_iff (inSlab.trans slab)).mp inside
  obtain rfl : addr = addr' := Option.some.inj (array.symm.trans found)
  rwa [max] at range

theorem Doubled.arraysOk (free : mb.slab = false →
    Free mb addr (addr + (mb.type ty).max * 2 * sizeofRegion))
    (arrays : mb.slab = false → ArraysOk mb) (noSlab : after.slab = false) : ArraysOk after := by
  have slab : mb.slab = false := doubled.slab.symm.trans noSlab
  have free := free slab
  have arrays := arrays slab
  have other (ty' : Which) (ne : ty' ≠ ty) {a : Nat} :
      InStorage (after.type ty') a ↔ InStorage (mb.type ty') a := by
    obtain ⟨max, array, inSlab⟩ := doubled.other ty' ne
    exact InStorage.congr array max inSlab
  -- the two arrays do not overlap, whichever of them is the new one
  have apart (ty' : Which) (ne : ty' ≠ ty) {a : Nat} (old : InStorage (mb.type ty') a) :
      ¬InStorage (mb.type ty) a ∧ ¬InStorage (after.type ty) a := by
    refine ⟨?_, fun new => ?_⟩
    · cases ty <;> cases ty'
      · exact absurd rfl ne
      · exact fun here => arrays.apart a here old
      · exact arrays.apart a old
      · exact absurd rfl ne
    · obtain ⟨low, high⟩ := inStorage_grown doubled slab new
      exact free.not_inStorage arrays ty' low high old
  refine ⟨fun ty' => ?_, fun ty' a inside => ?_, fun a inMemory inReserved => ?_⟩
  · by_cases same : ty' = ty
    · rw [same, doubled.grown.2.2, slab]
    · rw [(doubled.other ty' same).2.2, arrays.found ty']
  · rw [doubled.covered]
    by_cases same : ty' = ty
    · rw [same] at inside
      exact .inr ⟨slab, inStorage_grown doubled slab inside⟩
    · have old := (other ty' same).mp inside
      exact .inl ⟨arrays.covered ty' a old, (apart ty' same old).1⟩
  · cases ty with
    | memory =>
      exact (apart .reserved (by decide) ((other .reserved (by decide)).mp inReserved)).2 inMemory
    | reserved =>
      exact (apart .memory (by decide) ((other .memory (by decide)).mp inMemory)).2 inReserved

theorem Doubled.gaps (lo hi : Nat) : (gapStarts lo hi (Covered after.reserved.regions)).card ≤
      (gapStarts lo hi (Covered mb.reserved.regions)).card + 2 := by
  have drop : (gapStarts lo hi fun a => Covered mb.reserved.regions a ∧
      ¬InStorage (mb.type ty) a).card ≤ (gapStarts lo hi (Covered mb.reserved.regions)).card + 1 := by
    cases storage : (mb.type ty).storage with
    | none =>
      simp [InStorage, storage]
    | some range =>
      obtain ⟨b, e⟩ := range
      refine card_gapStarts_drop (b := b) (e := e) fun a => ?_
      simp [InStorage, storage]
  have add : (gapStarts lo hi (Covered after.reserved.regions)).card ≤
      (gapStarts lo hi fun a => Covered mb.reserved.regions a ∧ ¬InStorage (mb.type ty) a).card +
        1 := by
    cases slab : mb.slab with
    | false =>
      refine card_gapStarts_add (b := addr) (e := addr + (mb.type ty).max * 2 * sizeofRegion)
        fun a => ?_
      rw [doubled.covered]
      simp [slab]
    | true =>
      refine card_gapStarts_add (b := 0) (e := 0) fun a => ?_
      rw [doubled.covered]
      simp [slab]
  omega

end

end Double

end Linux318.Source.Mm
