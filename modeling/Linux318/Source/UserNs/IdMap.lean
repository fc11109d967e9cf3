import Mathlib.Data.List.Basic
import Mathlib.Data.List.Pairwise
import Mathlib.Algebra.Ring.Nat

/-!
kernel/user_namespace.c, 152 to 222: the id maps of a user namespace. The ids are u32 values, and
(u32)-1 stands for no id.
-/
namespace Linux318.Source.UserNs

def u32 (n : Nat) : Nat := n % 2 ^ 32

/-- (u32)-1 -/
def invalidId : Nat := 2 ^ 32 - 1

structure UidGidExtent where
  first : Nat
  lowerFirst : Nat
  count : Nat
  deriving DecidableEq, Repr

abbrev UidGidMap := List UidGidExtent

/-- The last id of `count` ids, as the u32 arithmetic gives it. -/
def lastId (first count : Nat) : Nat := u32 (first + count + (2 ^ 32 - 1))

/-- The id in the other column of the first extent that has the given one. -/
def mapId (column other : UidGidExtent → Nat) (map : UidGidMap) (id : Nat) : Nat :=
  match map.find? fun e => column e ≤ id ∧ id ≤ lastId (column e) e.count with
  | some e => u32 (id - column e + other e)
  | none => invalidId

def mapIdDown : UidGidMap → Nat → Nat := mapId UidGidExtent.first UidGidExtent.lowerFirst

def mapIdUp : UidGidMap → Nat → Nat := mapId UidGidExtent.lowerFirst UidGidExtent.first

/-- `map_id_range_down`: all ids of the range have to be in one extent. -/
def mapIdRangeDown (map : UidGidMap) (id count : Nat) : Nat :=
  let id2 := lastId id count
  match map.find? fun e => e.first ≤ id ∧ id ≤ lastId e.first e.count ∧
      e.first ≤ id2 ∧ id2 ≤ lastId e.first e.count with
  | some e => u32 (id - e.first + e.lowerFirst)
  | none => invalidId

def Apart (column : UidGidExtent → Nat) (d e : UidGidExtent) : Prop :=
  column d + d.count ≤ column e ∨ column e + e.count ≤ column d

instance (column : UidGidExtent → Nat) : Std.Symm (Apart column) := ⟨fun _ _ => Or.symm⟩

structure ExtentOk (e : UidGidExtent) : Prop where
  nonempty : 0 < e.count
  upper : e.first + e.count < 2 ^ 32
  lower : e.lowerFirst + e.count < 2 ^ 32

/-- The extents of a map have no common ids in either column, and none has (u32)-1. -/
structure MapOk (map : UidGidMap) : Prop where
  extents : ∀ e ∈ map, ExtentOk e
  upper : map.Pairwise (Apart UidGidExtent.first)
  lower : map.Pairwise (Apart UidGidExtent.lowerFirst)

variable {id i : Nat} {e : UidGidExtent}

theorem lastId_eq {first count : Nat} (nonempty : 0 < count) (fits : first + count < 2 ^ 32) :
    lastId first count = first + count - 1 := by
  rw [lastId, u32]
  omega

section Lookup

variable {column other : UidGidExtent → Nat} {map : UidGidMap}
  (extents : ∀ e ∈ map, ExtentOk e) (fits : ∀ {e}, ExtentOk e → column e + e.count < 2 ^ 32)
include extents fits

theorem mapId_of_mem (fits' : ∀ {e}, ExtentOk e → other e + e.count < 2 ^ 32)
    (apart : map.Pairwise (Apart column)) (mem : e ∈ map) (inside : i < e.count) :
    mapId column other map (column e + i) = other e + i := by
  have some : (map.find? fun d =>
      column d ≤ column e + i ∧ column e + i ≤ lastId (column d) d.count) = some e := by
    cases found : map.find? fun d =>
        column d ≤ column e + i ∧ column e + i ≤ lastId (column d) d.count with
    | none =>
      have miss := List.find?_eq_none.mp found e mem
      rw [lastId_eq (extents e mem).nonempty (fits (extents e mem))] at miss
      simp at miss
      omega
    | some d =>
      have member' := List.mem_of_find?_eq_some found
      have hit := List.find?_some found
      have nonempty := (extents d member').nonempty
      rw [lastId_eq nonempty (fits (extents d member'))] at hit
      by_contra differ
      rcases apart.forall member' mem fun same => differ (by rw [same]) with
        before | before <;> simp at hit <;> omega
  have := fits' (extents e mem)
  rw [mapId, some]
  simp only [u32]
  omega

theorem mapId_ne_invalid (mapped : mapId column other map id ≠ invalidId) :
    ∃ e ∈ map, ∃ i < e.count, id = column e + i := by
  rw [mapId] at mapped
  cases found : map.find? fun d => column d ≤ id ∧ id ≤ lastId (column d) d.count with
  | none =>
    rw [found] at mapped
    exact absurd rfl mapped
  | some e =>
    have mem := List.mem_of_find?_eq_some found
    have hit := List.find?_some found
    have nonempty := (extents e mem).nonempty
    rw [lastId_eq nonempty (fits (extents e mem)), decide_eq_true_iff] at hit
    exact ⟨e, mem, id - column e, by omega, by omega⟩

end Lookup

namespace MapOk

variable {map : UidGidMap} (ok : MapOk map)
include ok

theorem mapIdDown_of_mem (mem : e ∈ map) (inside : i < e.count) :
    mapIdDown map (e.first + i) = e.lowerFirst + i :=
  mapId_of_mem ok.extents ExtentOk.upper ExtentOk.lower ok.upper mem inside

theorem mapIdUp_of_mem (mem : e ∈ map) (inside : i < e.count) :
    mapIdUp map (e.lowerFirst + i) = e.first + i :=
  mapId_of_mem ok.extents ExtentOk.lower ExtentOk.upper ok.lower mem inside

theorem mapIdDown_ne_invalid (mapped : mapIdDown map id ≠ invalidId) :
    ∃ e ∈ map, ∃ i < e.count, id = e.first + i :=
  mapId_ne_invalid ok.extents ExtentOk.upper mapped

theorem mapIdUp_ne_invalid (mapped : mapIdUp map id ≠ invalidId) :
    ∃ e ∈ map, ∃ i < e.count, id = e.lowerFirst + i :=
  mapId_ne_invalid ok.extents ExtentOk.lower mapped

theorem mapIdUp_mapIdDown (mapped : mapIdDown map id ≠ invalidId) :
    mapIdUp map (mapIdDown map id) = id := by
  obtain ⟨e, mem, i, inside, rfl⟩ := ok.mapIdDown_ne_invalid mapped
  rw [ok.mapIdDown_of_mem mem inside, ok.mapIdUp_of_mem mem inside]

theorem mapIdDown_mapIdUp (mapped : mapIdUp map id ≠ invalidId) :
    mapIdDown map (mapIdUp map id) = id := by
  obtain ⟨e, mem, i, inside, rfl⟩ := ok.mapIdUp_ne_invalid mapped
  rw [ok.mapIdUp_of_mem mem inside, ok.mapIdDown_of_mem mem inside]

theorem mapIdDown_invalid : mapIdDown map invalidId = invalidId := by
  by_contra mapped
  obtain ⟨e, mem, i, inside, same⟩ := ok.mapIdDown_ne_invalid mapped
  have := (ok.extents e mem).upper
  rw [invalidId] at same
  omega

theorem mapIdUp_invalid : mapIdUp map invalidId = invalidId := by
  by_contra mapped
  obtain ⟨e, mem, i, inside, same⟩ := ok.mapIdUp_ne_invalid mapped
  have := (ok.extents e mem).lower
  rw [invalidId] at same
  omega

/-- A range that can be mapped is a part of one extent. -/
theorem mapIdRangeDown_ne_invalid {count : Nat} (nonempty : 0 < count) (fits : id + count < 2 ^ 32)
    (mapped : mapIdRangeDown map id count ≠ invalidId) :
    ∃ e ∈ map, ∃ i, i + count ≤ e.count ∧ id = e.first + i ∧
      mapIdRangeDown map id count = e.lowerFirst + i := by
  rw [mapIdRangeDown] at mapped ⊢
  simp only [lastId_eq nonempty fits] at mapped ⊢
  cases found : map.find? fun e => e.first ≤ id ∧ id ≤ lastId e.first e.count ∧
      e.first ≤ id + count - 1 ∧ id + count - 1 ≤ lastId e.first e.count with
  | none =>
    rw [found] at mapped
    exact absurd rfl mapped
  | some e =>
    have mem := List.mem_of_find?_eq_some found
    have hit := List.find?_some found
    obtain ⟨some, upper, lower⟩ := ok.extents e mem
    rw [lastId_eq some upper, decide_eq_true_iff] at hit
    refine ⟨e, mem, id - e.first, by omega, by omega, ?_⟩
    simp only [u32]
    omega

end MapOk

end Linux318.Source.UserNs
