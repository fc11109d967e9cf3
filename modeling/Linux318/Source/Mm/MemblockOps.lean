import Linux318.Source.Mm.MemblockLoops

/-!
The operations on one type, once its array has room: the regions stay well formed, and the map from
addresses to attributes changes in the range only.
-/
namespace Linux318.Source.Mm
open Lib Block

variable {regions : List MemblockRegion}

abbrev AttrMap := Nat → RegionAttr → Prop

def MemblockType.map (type : MemblockType) : AttrMap := At type.regions

namespace AttrMap

/-- The range is covered: what was covered keeps its attributes. -/
def add (map : AttrMap) (base fin : Nat) (attr : RegionAttr) : AttrMap := fun a t =>
  map a t ∨ (base ≤ a ∧ a < fin ∧ attr = t ∧ ∀ s, ¬map a s)

def drop (map : AttrMap) (base fin : Nat) : AttrMap := fun a t => map a t ∧ ¬(base ≤ a ∧ a < fin)

def change (map : AttrMap) (base fin : Nat) (f : RegionAttr → RegionAttr) : AttrMap := fun a t =>
  ∃ s, map a s ∧ t = if base ≤ a ∧ a < fin then f s else s

end AttrMap

/-- The representation invariant of a type. Regions that follow each other do not touch if they
have the same attributes. -/
structure TypeOk (type : MemblockType) : Prop where
  entries : (∃ attr, type.regions = [⟨0, 0, attr⟩]) ∨
    (type.regions ≠ [] ∧ ∀ r ∈ type.regions, 0 < r.size)
  apart : type.regions.Pairwise Apart
  noWrap : ∀ r ∈ type.regions, r.top < 2 ^ 64
  total : type.totalSize = (type.regions.map size).sum
  count : type.regions.length ≤ type.max
  max_dvd : initMemblockRegions ∣ type.max

theorem sum_lt_of_apart (apart : regions.Pairwise Apart)
    (noWrap : ∀ r ∈ regions, r.top < 2 ^ 64) : (regions.map size).sum < 2 ^ 64 := by
  have bound := sum_size_le (inOrder_of_apart apart) 0 (2 ^ 64 - 1)
    (fun _ _ => Nat.zero_le _) (fun r mem => by have := noWrap r mem; omega) (by omega)
  omega

section TypeOk

variable {type : MemblockType}

theorem TypeOk.eq_withRegions (ok : TypeOk type) : type = withRegions type type.regions := by
  have small := sum_lt_of_apart ok.apart ok.noWrap
  rw [withRegions, Nat.mod_eq_of_lt small, ← ok.total]

theorem TypeOk.one_le (ok : TypeOk type) : 1 ≤ type.regions.length := by
  rcases ok.entries with ⟨attr, one⟩ | ⟨some, _⟩
  · simp [one]
  · exact List.length_pos_of_ne_nil some

theorem TypeOk.large (ok : TypeOk type) : initMemblockRegions ≤ type.max := by
  have one := ok.one_le
  have count := ok.count
  exact Nat.le_of_dvd (by omega) ok.max_dvd

theorem at_orEmpty (regions : List MemblockRegion) : At (orEmpty regions) = At regions := by
  funext a t
  unfold orEmpty
  split_ifs with none
  · simp [none, At, top]
  · rfl

/-- A list of regions that are apart, or the empty entry, in the place of the old ones. -/
theorem typeOk_withRegions (ok : TypeOk type) (apart : regions.Pairwise Apart)
    (nonempty : ∀ r ∈ regions, 0 < r.size) (noWrap : ∀ r ∈ regions, r.top < 2 ^ 64)
    (count : regions.length ≤ type.max) : TypeOk (withRegions type (orEmpty regions)) := by
  have large := ok.large
  simp only [initMemblockRegions] at large
  unfold orEmpty
  split_ifs with none
  · refine ⟨.inl ⟨noAttr, rfl⟩, List.pairwise_singleton _ _, by simp [top], by simp [withRegions], ?_,
      ok.max_dvd⟩
    simp only [withRegions_regions, withRegions_max, List.length_singleton]
    omega
  · have small := sum_lt_of_apart apart noWrap
    exact ⟨.inr ⟨none, nonempty⟩, apart, noWrap, Nat.mod_eq_of_lt small, count, ok.max_dvd⟩

end TypeOk

section Add

variable {type : MemblockType} (fin base : Nat) (attr : RegionAttr)

def addedRegions (regions : List MemblockRegion) : List MemblockRegion :=
  merge (fill fin attr base regions)

theorem added_spec (apart : regions.Pairwise Apart) (nonempty : ∀ r ∈ regions, 0 < r.size)
    (noWrap : ∀ r ∈ regions, r.top < 2 ^ 64) (bound : fin < 2 ^ 64) :
    (addedRegions fin base attr regions).Pairwise Apart ∧
      (∀ r ∈ addedRegions fin base attr regions, 0 < r.size) ∧
      (∀ r ∈ addedRegions fin base attr regions, r.top < 2 ^ 64) ∧
      (addedRegions fin base attr regions).length ≤ regions.length + gaps fin base regions ∧
      (∀ r ∈ fill fin attr base regions, r.top < 2 ^ 64) := by
  have order := inOrder_fill fin base attr (inOrder_of_apart apart)
  have filled (r : MemblockRegion) (mem : r ∈ fill fin attr base regions) :
      0 < r.size ∧ r.top < 2 ^ 64 := by
    rcases mem_fill mem with old | ⟨_, high, pos, _⟩
    · exact ⟨nonempty r old, noWrap r old⟩
    · exact ⟨pos, by omega⟩
  obtain ⟨apart', pos, shorter, stops⟩ := merge_spec order fun r mem => (filled r mem).1
  rw [length_fill] at shorter
  refine ⟨apart', pos, fun r mem => ?_, shorter, fun r mem => (filled r mem).2⟩
  have stop := stops (2 ^ 64 - 1) (fun r mem => by have := (filled r mem).2; omega) r mem
  omega

theorem addPass_merge (ok : TypeOk type) (nonempty : ∀ r ∈ type.regions, 0 < r.size)
    (bound : fin < 2 ^ 64) (room : type.regions.length + gaps fin base type.regions ≤ type.max) :
    ∃ filled, addPass true base fin attr type = .ok (gaps fin base type.regions, filled) ∧
      memblockMergeRegions filled =
        .ok (withRegions type (addedRegions fin base attr type.regions)) := by
  obtain ⟨_, _, _, _, stops⟩ := added_spec fin base attr ok.apart nonempty ok.noWrap bound
  have pass := addPass_insert fin attr type ok.noWrap room
  rw [← ok.eq_withRegions] at pass
  exact ⟨_, pass, memblockMergeRegions_eq type
    (inOrder_fill fin base attr (inOrder_of_apart ok.apart)) stops⟩

theorem addedRegions_ne_nil (some : regions ≠ []) : addedRegions fin base attr regions ≠ [] := by
  have length := length_fill fin attr base regions
  have pos := List.length_pos_of_ne_nil some
  unfold addedRegions
  cases shape : fill fin attr base regions with
  | nil =>
    rw [shape, List.length_nil] at length
    omega
  | cons a rest =>
    obtain ⟨size, rest', head⟩ := mergeFrom_head a rest
    rw [merge, head]
    simp

theorem typeOk_added (ok : TypeOk type) (some : type.regions ≠ [])
    (nonempty : ∀ r ∈ type.regions, 0 < r.size) (bound : fin < 2 ^ 64)
    (room : type.regions.length + gaps fin base type.regions ≤ type.max) :
    TypeOk (withRegions type (addedRegions fin base attr type.regions)) ∧
      (withRegions type (addedRegions fin base attr type.regions)).map =
        type.map.add base fin attr := by
  obtain ⟨apart, pos, stops, length, _⟩ := added_spec fin base attr ok.apart nonempty ok.noWrap bound
  constructor
  · have res := typeOk_withRegions ok apart pos stops (by omega)
    rwa [orEmpty, if_neg (addedRegions_ne_nil fin base attr some)] at res
  · funext a t
    exact propext ((at_merge _ a t).trans (at_fill (inOrder_of_apart ok.apart) a t))

theorem typeOk_first (ok : TypeOk type) {size : Nat} (pos : 0 < size) (bound : base + size < 2 ^ 64)
    (empty : ∃ attr, type.regions = [⟨0, 0, attr⟩]) :
    TypeOk (withRegions type [⟨base, size, attr⟩]) ∧
      (withRegions type [⟨base, size, attr⟩]).map = type.map.add base (base + size) attr := by
  have large := ok.large
  simp only [initMemblockRegions] at large
  constructor
  · have res := typeOk_withRegions ok (List.pairwise_singleton _ (⟨base, size, attr⟩ : MemblockRegion))
      (by simpa using pos) (by simpa [top] using bound)
      (by simp only [List.length_singleton]; omega)
    simpa [orEmpty] using res
  · obtain ⟨old, none⟩ := empty
    funext a t
    simp [MemblockType.map, AttrMap.add, none, At, top]

end Add

section Isolate

variable {type : MemblockType} (lo hi : Nat)

def isolatedIn (regions : List MemblockRegion) : Nat × Nat :=
  isolated (regions.filterMap (below lo)).length (regions.filterMap (inside lo hi)).length 0 0

theorem isolateLoop_type (ok : TypeOk type) (nonempty : ∀ r ∈ type.regions, 0 < r.size)
    (window : lo < hi) (room : type.regions.length + 2 ≤ type.max) :
    ∃ i, isolateLoop lo hi (type.regions.length + 4) ⟨0, 0, 0, type⟩ =
      .ok ⟨i, (isolatedIn lo hi type.regions).1, (isolatedIn lo hi type.regions).2,
        withRegions type (cut lo hi type.regions)⟩ := by
  have order := inOrder_of_apart ok.apart
  have few := crossings_le lo hi order
  obtain ⟨i, loop⟩ := isolateLoop_eq window type (type.regions.length + 4) [] type.regions 0 0 order
    (fun r mem => ⟨nonempty r mem, ok.noWrap r mem⟩) (by omega)
    (by simp only [List.nil_append]; omega)
  refine ⟨i, ?_⟩
  simp only [List.nil_append, List.length_nil, zero_add, ← ok.eq_withRegions] at loop
  exact loop

/-- In an empty type there is nothing to isolate. -/
theorem isolateLoop_empty (empty : ∃ attr, type.regions = [⟨0, 0, attr⟩]) (window : lo < hi) :
    isolateLoop lo hi (type.regions.length + 4) ⟨0, 0, 0, type⟩ = .ok ⟨1, 0, 0, type⟩ := by
  obtain ⟨attr, one⟩ := empty
  simp [isolateLoop, one, regionEnd, show ¬hi ≤ 0 by omega]

def keptRegions (regions : List MemblockRegion) : List MemblockRegion :=
  regions.filterMap (below lo) ++ regions.filterMap (above hi)

theorem removeRegions_isolated (ok : TypeOk type) (some : type.regions ≠ [])
    (nonempty : ∀ r ∈ type.regions, 0 < r.size) (window : lo < hi) :
    removeRegions (isolatedIn lo hi type.regions).1
        ((isolatedIn lo hi type.regions).2 - (isolatedIn lo hi type.regions).1)
        (withRegions type (cut lo hi type.regions)) =
      withRegions type (orEmpty (keptRegions lo hi type.regions)) := by
  by_cases none : type.regions.filterMap (inside lo hi) = []
  · have whole : cut lo hi type.regions = keptRegions lo hi type.regions := by
      simp [cut, keptRegions, none]
    have length := length_cut window nonempty
    have pos := List.length_pos_of_ne_nil some
    have kept : keptRegions lo hi type.regions ≠ [] := by
      rw [← whole]
      exact List.ne_nil_of_length_pos (by omega)
    simp [isolatedIn, isolated, none, removeRegions, whole, orEmpty, kept]
  have count : (type.regions.filterMap (inside lo hi)).length ≠ 0 := by
    simpa using none
  have res := removeRegions_eq type (type.regions.filterMap (below lo))
    (type.regions.filterMap (above hi)) (type.regions.filterMap (inside lo hi)) none (by
      intro b mem
      obtain ⟨pos, _, _, r, inList, stop⟩ := mem_inside mem
      have bound := ok.noWrap r inList
      simp only [top] at stop bound
      omega)
  simp only [isolatedIn, isolated, if_neg count, if_true, Nat.add_sub_cancel_left]
  exact res

theorem typeOk_kept (ok : TypeOk type) (nonempty : ∀ r ∈ type.regions, 0 < r.size)
    (window : lo < hi) (room : type.regions.length + 2 ≤ type.max) :
    TypeOk (withRegions type (orEmpty (keptRegions lo hi type.regions))) ∧
      (withRegions type (orEmpty (keptRegions lo hi type.regions))).map = type.map.drop lo hi ∧
      (orEmpty (keptRegions lo hi type.regions)).length ≤ type.regions.length + 2 := by
  have length := length_cut window nonempty
  have few := crossings_le lo hi (inOrder_of_apart ok.apart)
  have shorter : (keptRegions lo hi type.regions).length ≤ type.regions.length + 2 := by
    simp only [cut, List.length_append] at length
    simp only [keptRegions, List.length_append]
    omega
  have part (r : MemblockRegion) (mem : r ∈ keptRegions lo hi type.regions) :
      0 < r.size ∧ r.top < 2 ^ 64 := by
    have inCut : r ∈ cut lo hi type.regions := by
      simp only [keptRegions, cut, List.mem_append] at mem ⊢
      exact mem.imp .inl id
    obtain ⟨pos, b, inList, stop⟩ := mem_cut nonempty inCut
    have bound := ok.noWrap b inList
    exact ⟨pos, by omega⟩
  refine ⟨typeOk_withRegions ok (apart_outside window ok.apart nonempty)
    (fun r mem => (part r mem).1) (fun r mem => (part r mem).2) (by omega), ?_, ?_⟩
  · show At (orEmpty (keptRegions lo hi type.regions)) = _
    rw [at_orEmpty]
    funext a t
    refine propext ?_
    rw [keptRegions, at_append, at_below, at_above]
    constructor
    · rintro (⟨here, low⟩ | ⟨here, high⟩)
      · exact ⟨here, by omega⟩
      · exact ⟨here, by omega⟩
    rintro ⟨here, out⟩
    by_cases low : a < lo
    · exact .inl ⟨here, low⟩
    · exact .inr ⟨here, by omega⟩
  · unfold orEmpty
    split_ifs
    · simp
    · exact shorter

variable (change : RegionAttr → RegionAttr)

def changed (r : MemblockRegion) : MemblockRegion := { r with tag := change r.tag }

/-- The regions with other attributes in the range, not yet merged. -/
def repainted (regions : List MemblockRegion) : List MemblockRegion :=
  regions.filterMap (below lo) ++ (regions.filterMap (inside lo hi)).map (changed change) ++
    regions.filterMap (above hi)

/-- Attributes do not matter for the places of regions. -/
theorem bounds_repainted (regions : List MemblockRegion) :
    (repainted lo hi change regions).map (fun r => (r.base, r.size)) =
      (cut lo hi regions).map fun r => (r.base, r.size) := by
  simp only [repainted, cut, List.map_append, List.map_map]
  rfl

section
variable (ok : TypeOk type) (nonempty : ∀ r ∈ type.regions, 0 < r.size) (window : lo < hi)
include ok nonempty window

theorem repainted_spec : InOrder (repainted lo hi change type.regions) ∧
      (∀ r ∈ repainted lo hi change type.regions, 0 < r.size ∧ r.top < 2 ^ 64) ∧
      (repainted lo hi change type.regions).length ≤ type.regions.length + 2 ∧
      ((repainted lo hi change type.regions).map size).sum =
        ((cut lo hi type.regions).map size).sum := by
  have bounds := bounds_repainted lo hi change type.regions
  have few := crossings_le lo hi (inOrder_of_apart ok.apart)
  have length := length_cut window nonempty
  have order := inOrder_cut (le_of_lt window) ok.apart nonempty
  refine ⟨?_, fun r mem => ?_, ?_, ?_⟩
  · have places : ((repainted lo hi change type.regions).map fun r => (r.base, r.size)).Pairwise
        fun a b => a.1 + a.2 ≤ b.1 := by
      rw [bounds]
      exact List.pairwise_map.mpr order
    exact List.pairwise_map.mp places
  · have place : (r.base, r.size) ∈ (cut lo hi type.regions).map fun r => (r.base, r.size) := by
      rw [← bounds]
      exact List.mem_map_of_mem mem
    obtain ⟨p, inCut, same⟩ := List.mem_map.mp place
    obtain ⟨pos, b, inList, stop⟩ := mem_cut nonempty inCut
    have bound := ok.noWrap b inList
    simp only [Prod.mk.injEq] at same
    simp only [top] at stop bound ⊢
    exact ⟨by omega, by omega⟩
  · have same := congrArg List.length bounds
    simp only [List.length_map] at same
    omega
  · have same := congrArg (fun l => (l.map Prod.snd).sum) bounds
    simpa only [List.map_map, Function.comp_def] using same

theorem changeAttrs_isolated :
    changeAttrs change (isolatedIn lo hi type.regions).1 (isolatedIn lo hi type.regions).2
        (withRegions type (cut lo hi type.regions)) =
      .ok (withRegions type (merge (repainted lo hi change type.regions))) := by
  obtain ⟨order, part, _, total⟩ := repainted_spec lo hi change ok nonempty window
  have painted : (cut lo hi type.regions).mapIdx (fun i r =>
      if (isolatedIn lo hi type.regions).1 ≤ i ∧ i < (isolatedIn lo hi type.regions).2 then
        { r with tag := change r.tag } else r) = repainted lo hi change type.regions := by
    by_cases none : type.regions.filterMap (inside lo hi) = []
    · have untouched := mapIdx_between change [] []
        (type.regions.filterMap (below lo) ++ type.regions.filterMap (above hi))
      simpa [isolatedIn, isolated, none, cut, repainted] using untouched
    have between := mapIdx_between change (type.regions.filterMap (below lo))
      (type.regions.filterMap (inside lo hi)) (type.regions.filterMap (above hi))
    have count : (type.regions.filterMap (inside lo hi)).length ≠ 0 := by
      simpa using none
    simp only [isolatedIn, isolated, if_neg count]
    exact between
  rw [changeAttrs, withRegions_regions, painted, ← memblockMergeRegions_eq type order
    fun r mem => (part r mem).2]
  simp only [withRegions, total]

end

theorem at_repainted (regions : List MemblockRegion) (a : Nat) (t : RegionAttr) :
    At (repainted lo hi change regions) a t ↔
      ∃ s, At regions a s ∧ t = if lo ≤ a ∧ a < hi then change s else s := by
  have mid : At ((regions.filterMap (inside lo hi)).map (changed change)) a t ↔
      ∃ s, (At regions a s ∧ lo ≤ a ∧ a < hi) ∧ t = change s := by
    simp only [← at_inside]
    constructor
    · rintro ⟨p, mem, low, high, rfl⟩
      obtain ⟨r, inList, rfl⟩ := List.mem_map.mp mem
      exact ⟨r.tag, ⟨r, inList, low, high, rfl⟩, rfl⟩
    · rintro ⟨s, ⟨r, inList, low, high, rfl⟩, rfl⟩
      exact ⟨changed change r, List.mem_map_of_mem inList, low, high, rfl⟩
  rw [repainted, at_append, at_append, at_below, at_above, mid]
  constructor
  · rintro ((⟨here, low⟩ | ⟨s, ⟨here, window⟩, rfl⟩) | ⟨here, high⟩)
    · exact ⟨t, here, by rw [if_neg (by omega)]⟩
    · exact ⟨s, here, by rw [if_pos window]⟩
    by_cases window : lo ≤ a ∧ a < hi
    · omega
    · exact ⟨t, here, by rw [if_neg window]⟩
  · rintro ⟨s, here, rfl⟩
    split_ifs with window
    · exact .inl (.inr ⟨s, ⟨here, window⟩, rfl⟩)
    by_cases low : a < lo
    · exact .inl (.inl ⟨here, low⟩)
    · exact .inr ⟨here, by omega⟩

theorem typeOk_repainted (ok : TypeOk type) (some : type.regions ≠ [])
    (nonempty : ∀ r ∈ type.regions, 0 < r.size) (window : lo < hi)
    (room : type.regions.length + 2 ≤ type.max) :
    TypeOk (withRegions type (merge (repainted lo hi change type.regions))) ∧
      (withRegions type (merge (repainted lo hi change type.regions))).map =
        type.map.change lo hi change := by
  obtain ⟨order, part, length, _⟩ := repainted_spec lo hi change ok nonempty window
  obtain ⟨apart, pos, shorter, stops⟩ := merge_spec order fun r mem => (part r mem).1
  constructor
  · have res := typeOk_withRegions ok apart pos (fun r mem => by
      have stop := stops (2 ^ 64 - 1) (fun r mem => by have := (part r mem).2; omega) r mem
      omega) (by omega)
    have kept : merge (repainted lo hi change type.regions) ≠ [] := by
      have longer := length_cut window nonempty
      have pos := List.length_pos_of_ne_nil some
      have same := congrArg List.length (bounds_repainted lo hi change type.regions)
      simp only [List.length_map] at same
      cases shape : repainted lo hi change type.regions with
      | nil =>
        rw [shape, List.length_nil] at same
        omega
      | cons a rest =>
        obtain ⟨size, rest', head⟩ := mergeFrom_head a rest
        rw [merge, head]
        simp
    rwa [orEmpty, if_neg kept] at res
  · funext a t
    exact propext ((at_merge _ a t).trans (at_repainted lo hi change type.regions a t))

end Isolate

end Linux318.Source.Mm
