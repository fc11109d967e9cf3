import Linux318.Source.Mm.Memblock
import Mathlib.Data.List.Induction

/-!
The loops of memblock on the list of regions: the passes of `memblock_add_range` fill the gaps of
the area, `memblock_merge_regions` joins regions that touch, and `memblock_isolate_range` cuts the
regions at the ends of the range.
-/
namespace Linux318.Source.Mm
open Lib Block List

def withRegions (type : MemblockType) (regions : List MemblockRegion) : MemblockType :=
  { type with regions := regions, totalSize := (regions.map size).sum % 2 ^ 64 }

@[simp] theorem withRegions_regions (type : MemblockType) (regions : List MemblockRegion) :
    (withRegions type regions).regions = regions := rfl

@[simp] theorem withRegions_max (type : MemblockType) (regions : List MemblockRegion) :
    (withRegions type regions).max = type.max := rfl

theorem regionEnd_eq {rgn : MemblockRegion} (bound : rgn.top < 2 ^ 64) : regionEnd rgn = rgn.top :=
  Nat.mod_eq_of_lt bound

section Entries

variable {type : MemblockType} {front back : List MemblockRegion} {rgn : MemblockRegion}

theorem getElem?_length_append (front back : List MemblockRegion) (rgn : MemblockRegion) :
    (front ++ rgn :: back)[front.length]? = some rgn := by
  rw [List.getElem?_append_right (Nat.le_refl _), Nat.sub_self]
  rfl

theorem insertIdx_length_append (front back : List MemblockRegion) (rgn : MemblockRegion) :
    (front ++ back).insertIdx front.length rgn = front ++ rgn :: back := by
  induction front with
  | nil => rfl
  | cons a front ih => simp [ih]

theorem memblockInsertRegion_eq (type : MemblockType) (front back : List MemblockRegion)
    (room : (front ++ back).length < type.max) (base size : Nat) (attr : RegionAttr) :
    memblockInsertRegion (withRegions type (front ++ back)) front.length base size attr =
      .ok (withRegions type (front ++ ⟨base, size, attr⟩ :: back)) := by
  have full : ¬(withRegions type (front ++ back)).regions.length ≥
      (withRegions type (front ++ back)).max := by
    simpa using room
  have total : ((((front ++ back).map Block.size).sum % 2 ^ 64) + size) % 2 ^ 64 =
      ((front ++ (⟨base, size, attr⟩ : MemblockRegion) :: back).map Block.size).sum % 2 ^ 64 := by
    simp only [map_append, sum_append, map_cons, sum_cons]
    omega
  rw [memblockInsertRegion, if_neg full]
  simp only [withRegions, insertIdx_length_append, total]

theorem splitRegion_eq (room : (front ++ rgn :: back).length < type.max) {cut : Nat}
    (bound : rgn.top < 2 ^ 64) (low : rgn.base < cut) (high : cut < rgn.top) :
    splitRegion (withRegions type (front ++ rgn :: back)) front.length rgn cut =
      .ok (withRegions type (front ++ upTo cut rgn :: fromOn cut rgn :: back)) := by
  obtain ⟨upper, hu⟩ : ∃ upper, upper = fromOn cut rgn := ⟨_, rfl⟩
  have size : rgn.size - (cut - rgn.base) = rgn.top - cut := by
    simp only [top] at high ⊢
    omega
  have set : (front ++ rgn :: back).set front.length upper = front ++ upper :: back := by
    rw [set_append_right _ _ (Nat.le_refl _), Nat.sub_self]
    rfl
  have total : (((front ++ rgn :: back).map Block.size).sum % 2 ^ 64 + 2 ^ 64 - (cut - rgn.base)) %
      2 ^ 64 = ((front ++ upper :: back).map Block.size).sum % 2 ^ 64 := by
    have upperSize : upper.size = rgn.size - (cut - rgn.base) := by rw [hu, size, fromOn]
    simp only [map_append, sum_append, map_cons, sum_cons] at bound high ⊢
    omega
  have step := memblockInsertRegion_eq type front (upper :: back) (by simpa using room) rgn.base
    (cut - rgn.base) rgn.tag
  have updated : ({ rgn with base := cut, size := rgn.top - cut } : MemblockRegion) = upper := hu.symm
  have lower : upTo cut rgn = ⟨rgn.base, cut - rgn.base, rgn.tag⟩ := rfl
  rw [splitRegion, size, updated, ← hu, lower]
  simpa only [withRegions, set, total] using step

/-- Removing an entry; the last one leaves the empty entry. -/
theorem memblockRemoveRegion_eq (bound : rgn.size < 2 ^ 64) :
    memblockRemoveRegion (withRegions type (front ++ rgn :: back)) front.length =
      withRegions type (if front ++ back = [] then [⟨0, 0, noAttr⟩] else front ++ back) := by
  have erased : (front ++ rgn :: back).eraseIdx front.length = front ++ back := by
    rw [eraseIdx_append_of_length_le (Nat.le_refl _), Nat.sub_self]
    rfl
  have total : (((front ++ rgn :: back).map Block.size).sum % 2 ^ 64 + 2 ^ 64 - rgn.size) % 2 ^ 64 =
      ((front ++ back).map Block.size).sum % 2 ^ 64 := by
    simp only [map_append, sum_append, map_cons, sum_cons]
    omega
  simp only [memblockRemoveRegion, withRegions, getElem?_length_append, erased, total]
  split_ifs with empty
  · simp [empty]
  · rfl

end Entries

theorem mergeLoop_eq (type : MemblockType) {a : MemblockRegion} {rest : List MemblockRegion}
    (order : InOrder (a :: rest)) (bound : ∀ b ∈ a :: rest, b.top < 2 ^ 64)
    (front : List MemblockRegion) {fuel : Nat} (enough : rest.length ≤ fuel) :
    mergeLoop fuel front.length (withRegions type (front ++ a :: rest)) =
      .ok (withRegions type (front ++ mergeFrom a rest)) := by
  induction rest generalizing a front fuel with
  | nil =>
    cases fuel with
    | zero => rfl
    | succ fuel =>
      rw [mergeLoop, withRegions_regions]
      simp [mergeFrom]
  | cons b rest ih =>
    cases fuel with
    | zero => simp at enough
    | succ fuel =>
      obtain ⟨behind, order'⟩ := pairwise_cons.mp order
      have start := behind b mem_cons_self
      have next : (front ++ a :: b :: rest)[front.length + 1]? = some b := by
        have found := getElem?_length_append (front ++ [a]) rest b
        rwa [← append_cons, length_append] at found
      rw [mergeLoop, withRegions_regions, getElem?_length_append, next, mergeFrom]
      simp only [regionEnd_eq (bound a mem_cons_self)]
      by_cases joins : a.top = b.base ∧ a.tag = b.tag
      · obtain ⟨touch, same⟩ := joins
        have stop := bound b (by simp)
        have size : (a.size + b.size) % 2 ^ 64 = a.size + b.size := by
          simp only [top] at touch stop
          exact Nat.mod_eq_of_lt (by omega)
        obtain ⟨grown, hg⟩ : ∃ grown, grown = ({ a with size := a.size + b.size } : MemblockRegion) :=
          ⟨_, rfl⟩
        have grownTop : grown.top = b.top := by
          rw [hg]
          simp only [top] at touch ⊢
          omega
        have set : ((front ++ a :: b :: rest).set front.length grown).eraseIdx (front.length + 1) =
            front ++ grown :: rest := by
          rw [set_append_right _ _ (Nat.le_refl _), eraseIdx_append_of_length_le (by omega)]
          simp
        have total : ((front ++ a :: b :: rest).map Block.size).sum =
            ((front ++ grown :: rest).map Block.size).sum := by
          have grownSize : grown.size = a.size + b.size := by rw [hg]
          simp [grownSize, Nat.add_assoc]
        have shorter : InOrder (grown :: rest) := by
          refine pairwise_cons.mpr ⟨fun c mem => ?_, (pairwise_cons.mp order').2⟩
          rw [grownTop]
          exact (pairwise_cons.mp order').1 c mem
        have step := ih shorter (by
          intro c mem
          rcases mem_cons.mp mem with rfl | inRest
          · rw [grownTop]
            exact stop
          · exact bound c (by simp [inRest])) front (show rest.length ≤ fuel by simpa using enough)
        rw [if_neg (by simp [touch, same]), if_pos ⟨touch, same⟩, size, ← hg]
        simpa only [withRegions, set, total] using step
      · have apart : a.top ≠ b.base ∨ a.tag ≠ b.tag := by tauto
        rw [if_pos apart, if_neg (by omega), if_neg joins]
        have step := ih order' (fun c mem => bound c (mem_cons_of_mem a mem))
          (front ++ [a]) (show rest.length ≤ fuel by simpa using enough)
        simpa using step

theorem memblockMergeRegions_eq (type : MemblockType) {regions : List MemblockRegion}
    (order : InOrder regions) (bound : ∀ b ∈ regions, b.top < 2 ^ 64) :
    memblockMergeRegions (withRegions type regions) = .ok (withRegions type (merge regions)) := by
  cases regions with
  | nil => rfl
  | cons a rest => exact mergeLoop_eq type order bound [] (by simp)

section Fill

variable (fin : Nat) (attr : RegionAttr)

section
variable (type : MemblockType)
include type

theorem addLoop_count (rest : List MemblockRegion) (bound : ∀ b ∈ rest, b.top < 2 ^ 64) :
    ∀ (front : List MemblockRegion) (fuel base nrNew : Nat), type.regions = front ++ rest →
      rest.length ≤ fuel →
      ∃ pass, addLoop false fin attr fuel ⟨front.length, base, nrNew, type⟩ = .ok pass ∧
        addRemainder false fin attr pass = .ok (nrNew + gaps fin base rest, type) := by
  induction rest with
  | nil =>
    intro front fuel base nrNew split _
    refine ⟨⟨front.length, base, nrNew, type⟩, ?_, ?_⟩
    · cases fuel with
      | zero => rfl
      | succ fuel => simp [addLoop, split]
    · simp only [addRemainder, gaps, if_false, Bool.false_eq_true]
      split_ifs <;> rfl
  | cons r rest ih =>
    intro front fuel base nrNew split enough
    cases fuel with
    | zero => simp at enough
    | succ fuel =>
      have here : type.regions[front.length]? = some r := by
        rw [split]
        exact getElem?_length_append front rest r
      have later (base nrNew : Nat) := ih (fun b mem => bound b (mem_cons_of_mem r mem))
        (front ++ [r]) fuel base nrNew (by simp [split]) (by simpa using enough)
      simp only [length_append] at later
      rw [addLoop, gaps]
      simp only [here, regionEnd_eq (bound r mem_cons_self)]
      by_cases beyond : fin ≤ r.base
      · simp only [if_pos beyond]
        refine ⟨_, rfl, ?_⟩
        simp only [addRemainder, if_false, Bool.false_eq_true]
        split_ifs <;> rfl
      simp only [if_neg beyond]
      by_cases before : r.top ≤ base
      · simp only [if_pos before]
        exact later base nrNew
      simp only [if_neg before]
      by_cases gap : base < r.base
      · have sum : nrNew + (1 + gaps fin (min r.top fin) rest) =
            nrNew + 1 + gaps fin (min r.top fin) rest := by omega
        simp only [gap, if_true, sum]
        exact later (min r.top fin) (nrNew + 1)
      · simp only [gap, if_false, Nat.zero_add]
        exact later (min r.top fin) nrNew

theorem addPass_count (bound : ∀ b ∈ type.regions, b.top < 2 ^ 64)
    (base : Nat) : addPass false base fin attr type = .ok (gaps fin base type.regions, type) := by
  obtain ⟨pass, loop, remainder⟩ :=
    addLoop_count fin attr type type.regions bound [] type.regions.length base 0 rfl (Nat.le_refl _)
  rw [Nat.zero_add] at remainder
  simp only [length_nil] at loop
  rw [addPass, loop]
  exact remainder

theorem memblockInsertRegion_ite (front back : List MemblockRegion) (base size : Nat) :
    memblockInsertRegion (withRegions type (front ++ back)) front.length base size attr =
      if (front ++ back).length < type.max then
        .ok (withRegions type (front ++ ⟨base, size, attr⟩ :: back))
      else .error .insertRegion := by
  split_ifs with room
  · rw [memblockInsertRegion_eq type front back room]
  · rw [memblockInsertRegion, if_pos (by simpa using room)]

/-- The end of the pass, at the regions `rest`. -/
theorem addRemainder_insert (front rest : List MemblockRegion)
    (base nrNew : Nat) (fits : (front ++ rest).length ≤ type.max) :
    addRemainder true fin attr ⟨front.length, base, nrNew, withRegions type (front ++ rest)⟩ =
      if (front ++ rest).length + (if base < fin then 1 else 0) ≤ type.max then
        .ok (nrNew + (if base < fin then 1 else 0),
          withRegions type (front ++ (piece base fin attr ++ rest)))
      else .error .insertRegion := by
  rw [addRemainder, piece]
  by_cases gap : base < fin
  · simp only [if_pos gap, memblockInsertRegion_ite, Nat.succ_le_iff]
    split_ifs <;> rfl
  · simpa [if_neg gap] using fits

/-- The pass fills the gaps. Without room for them it runs into the check of
`memblock_insert_region`. -/
theorem addLoop_insert (rest : List MemblockRegion) (bound : ∀ b ∈ rest, b.top < 2 ^ 64) :
    ∀ (front : List MemblockRegion) (fuel base nrNew : Nat), rest.length ≤ fuel →
      (front ++ rest).length ≤ type.max →
      (addLoop true fin attr fuel ⟨front.length, base, nrNew, withRegions type (front ++ rest)⟩ >>=
        addRemainder true fin attr) =
        if (front ++ rest).length + gaps fin base rest ≤ type.max then
          .ok (nrNew + gaps fin base rest, withRegions type (front ++ fill fin attr base rest))
        else .error .insertRegion := by
  induction rest with
  | nil =>
    intro front fuel base nrNew _ fits
    have stays : addLoop true fin attr fuel ⟨front.length, base, nrNew,
        withRegions type (front ++ [])⟩ =
          .ok ⟨front.length, base, nrNew, withRegions type (front ++ [])⟩ := by
      cases fuel with
      | zero => rfl
      | succ fuel => simp [addLoop]
    rw [stays]
    refine (addRemainder_insert fin attr type front [] base nrNew fits).trans ?_
    simp [gaps, fill]
  | cons r rest ih =>
    intro front fuel base nrNew enough fits
    cases fuel with
    | zero => simp at enough
    | succ fuel =>
      have later (base nrNew : Nat) :=
        ih (fun b mem => bound b (mem_cons_of_mem r mem)) (front ++ [r]) fuel base nrNew
          (by simpa using enough) (by simpa using fits)
      rw [addLoop, gaps, fill]
      simp only [withRegions_regions, getElem?_length_append, regionEnd_eq (bound r mem_cons_self)]
      by_cases beyond : fin ≤ r.base
      · simp only [if_pos beyond]
        exact addRemainder_insert fin attr type front (r :: rest) base nrNew fits
      simp only [if_neg beyond]
      by_cases before : r.top ≤ base
      · simp only [if_pos before]
        simpa using later base nrNew
      simp only [if_neg before, piece]
      by_cases gap : base < r.base
      · simp only [gap, if_true, memblockInsertRegion_ite]
        by_cases room : (front ++ r :: rest).length < type.max
        · rw [if_pos room]
          obtain ⟨new, hn⟩ : ∃ new, new = (⟨base, r.base - base, attr⟩ : MemblockRegion) :=
            ⟨_, rfl⟩
          rw [← hn]
          have step := ih (fun b mem => bound b (mem_cons_of_mem r mem))
            (front ++ [new, r]) fuel (min r.top fin) (nrNew + 1) (by simpa using enough)
            (by simp only [length_append, length_cons, length_nil] at room ⊢; omega)
          have sum : nrNew + (1 + gaps fin (min r.top fin) rest) =
              nrNew + 1 + gaps fin (min r.top fin) rest := by omega
          have total : (front ++ [new, r] ++ rest).length + gaps fin (min r.top fin) rest =
              (front ++ r :: rest).length + (1 + gaps fin (min r.top fin) rest) := by
            simp only [length_append, length_cons, length_nil]
            omega
          rw [total] at step
          simpa only [sum, length_append, length_cons, length_nil, append_assoc, cons_append,
            nil_append] using step
        · rw [if_neg room, if_neg (by omega)]
          rfl
      · simp only [gap]
        simpa using later (min r.top fin) nrNew

end

section Pass
variable (type : MemblockType) {regions : List MemblockRegion}
  (bound : ∀ b ∈ regions, b.top < 2 ^ 64) {base : Nat}
include bound

theorem addPass_insert (room : regions.length + gaps fin base regions ≤ type.max) :
    addPass true base fin attr (withRegions type regions) =
      .ok (gaps fin base regions, withRegions type (fill fin attr base regions)) := by
  have pass := addLoop_insert fin attr type regions bound [] regions.length base 0 (Nat.le_refl _)
    (by simp only [nil_append]; omega)
  rw [nil_append, if_pos room, Nat.zero_add] at pass
  exact pass

theorem addPass_full (fits : regions.length ≤ type.max)
    (tooMany : type.max < regions.length + gaps fin base regions) :
    addPass true base fin attr (withRegions type regions) = .error .insertRegion :=
  (addLoop_insert fin attr type regions bound [] regions.length base 0 (Nat.le_refl _) fits).trans
    (if_neg (Nat.not_le.mpr tooMany))

end Pass

end Fill

section Isolate

variable {lo hi : Nat}

/-- The indices of the isolated regions after `count` more of them, the first one at `first`. -/
def isolated (first count startRgn endRgn : Nat) : Nat × Nat :=
  if count = 0 then (startRgn, endRgn)
  else (if endRgn = 0 then first else startRgn, first + count)

theorem isolated_succ (first count startRgn endRgn : Nat) :
    isolated first (count + 1) startRgn endRgn =
      isolated (first + 1) count (if endRgn = 0 then first else startRgn) (first + 1) := by
  cases count with
  | zero => simp [isolated]
  | succ count =>
    simp [isolated, Nat.add_assoc, Nat.add_comm 1]

theorem split_fine {r : MemblockRegion} {rest : List MemblockRegion} {point : Nat}
    (order : InOrder (r :: rest)) (fine : ∀ b ∈ r :: rest, 0 < b.size ∧ b.top < 2 ^ 64)
    (low : r.base < point) (high : point < r.top) :
    InOrder (upTo point r :: fromOn point r :: rest) ∧
      ∀ b ∈ upTo point r :: fromOn point r :: rest, 0 < b.size ∧ b.top < 2 ^ 64 := by
  obtain ⟨behind, order'⟩ := pairwise_cons.mp order
  obtain ⟨-, bound⟩ := fine r mem_cons_self
  have upperTop := top_fromOn (Nat.le_of_lt high)
  have lowerTop : (upTo point r).top = point := by
    show r.base + (point - r.base) = point
    omega
  refine ⟨pairwise_cons.mpr ⟨forall_mem_cons.mpr ⟨Nat.le_of_eq lowerTop, fun b mem => ?_⟩,
    pairwise_cons.mpr ⟨upperTop ▸ behind, order'⟩⟩,
    forall_mem_cons.mpr ⟨⟨?_, by omega⟩, forall_mem_cons.mpr ⟨⟨?_, upperTop ▸ bound⟩,
      (forall_mem_cons.mp fine).2⟩⟩⟩
  · have := behind b mem
    omega
  · show 0 < point - r.base
    omega
  · show 0 < r.top - point
    omega

theorem isolateLoop_eq (window : lo < hi) (type : MemblockType) (fuel : Nat) :
    ∀ (front rest : List MemblockRegion) (startRgn endRgn : Nat), InOrder rest →
      (∀ b ∈ rest, 0 < b.size ∧ b.top < 2 ^ 64) →
      rest.length + 2 * crossings lo hi rest ≤ fuel →
      (front ++ rest).length + crossings lo hi rest ≤ type.max →
      ∃ i, isolateLoop lo hi fuel
          ⟨front.length, startRgn, endRgn, withRegions type (front ++ rest)⟩ =
        .ok ⟨i, (isolated (front.length + (rest.filterMap (below lo)).length)
            (rest.filterMap (inside lo hi)).length startRgn endRgn).1,
          (isolated (front.length + (rest.filterMap (below lo)).length)
            (rest.filterMap (inside lo hi)).length startRgn endRgn).2,
          withRegions type (front ++ cut lo hi rest)⟩ := by
  induction fuel with
  | zero =>
    intro front rest startRgn endRgn _ _ enough _
    have empty : rest = [] := eq_nil_of_length_eq_zero (by omega)
    subst empty
    exact ⟨front.length, by simp [isolateLoop, isolated, cut]⟩
  | succ fuel ih =>
    intro front rest startRgn endRgn order fine enough room
    cases rest with
    | nil => exact ⟨front.length, by simp [isolateLoop, isolated, cut]⟩
    | cons r rest =>
      obtain ⟨pos, bound⟩ := fine r mem_cons_self
      have order' := (pairwise_cons.mp order).2
      have behind := (pairwise_cons.mp order).1
      have fine' : ∀ b ∈ rest, 0 < b.size ∧ b.top < 2 ^ 64 := fun b mem =>
        fine b (mem_cons_of_mem r mem)
      have stop : r.top = r.base + r.size := rfl
      rw [isolateLoop]
      simp only [withRegions_regions, getElem?_length_append, regionEnd_eq bound]
      generalize first : (if endRgn = 0 then front.length else startRgn) = start
      split_ifs with beyond before low high
      · obtain ⟨same, none⟩ := cut_beyond window (fun b mem => (fine b mem).1)
          (show ∀ b ∈ r :: rest, hi ≤ b.base by
            intro b mem
            rcases mem_cons.mp mem with rfl | inRest
            · exact beyond
            · have := behind b inRest
              omega)
        rw [same, none]
        exact ⟨front.length, by simp [isolated]⟩
      · rw [cut_before window before pos]
        rw [crossings_cons_eq (by omega) (by omega)] at enough room
        obtain ⟨i, loop⟩ := ih (front ++ [r]) rest startRgn endRgn order' fine'
          (by simp only [length_cons] at enough; omega) (by simpa using room)
        refine ⟨i, ?_⟩
        rw [filterMap_cons_some (below_self before pos),
          filterMap_cons_none (inside_none_below before)]
        simp only [length_append, length_cons, length_nil, append_assoc,
          Nat.add_right_comm front.length 1] at loop ⊢
        exact loop
      · obtain ⟨belowEq, insideEq, aboveEq, cuts⟩ := @cut_low _ lo hi r rest window low (by omega)
        rw [splitRegion_eq (by omega) bound low (by omega)]
        obtain ⟨splitOrder, splitFine⟩ := split_fine order fine low (show lo < r.top by omega)
        obtain ⟨i, loop⟩ := ih (front ++ [upTo lo r]) (fromOn lo r :: rest) startRgn endRgn
          (pairwise_cons.mp splitOrder).2 (fun b mem => splitFine b (mem_cons_of_mem _ mem))
          (by simp only [length_cons] at enough ⊢; omega)
          (by simp only [length_append, length_cons, length_nil] at room ⊢; omega)
        refine ⟨i, ?_⟩
        rw [cut, belowEq, insideEq, aboveEq]
        simp only [cut, length_append, length_cons, length_nil, append_assoc,
          Nat.add_right_comm front.length 1] at loop ⊢
        exact loop
      · obtain ⟨belowEq, insideEq, aboveEq, cuts⟩ := @cut_high _ lo hi r rest window (by omega)
          (by omega) high
        rw [splitRegion_eq (by omega) bound (by omega) high]
        obtain ⟨splitOrder, splitFine⟩ := split_fine order fine (show r.base < hi by omega) high
        obtain ⟨i, loop⟩ := ih front (upTo hi r :: fromOn hi r :: rest) startRgn endRgn splitOrder
          splitFine (by simp only [length_cons] at enough ⊢; omega)
          (by simp only [length_append, length_cons] at room ⊢; omega)
        refine ⟨i, ?_⟩
        rw [cut, belowEq, insideEq, aboveEq]
        exact loop
      obtain ⟨same, none⟩ := cut_inside order (show lo ≤ r.base by omega)
        (show r.top ≤ hi by omega) pos
      rw [same]
      rw [crossings_cons_eq (show ¬(r.base < lo ∧ lo < r.top) by omega)
        (show ¬(r.base < hi ∧ hi < r.top) by omega)] at enough room
      obtain ⟨i, loop⟩ := ih (front ++ [r]) rest start (front.length + 1) order' fine'
        (by simp only [length_cons] at enough; omega) (by simpa using room)
      refine ⟨i, ?_⟩
      have whole : inside lo hi r = some r := inside_self (by omega) (by omega) pos
      have indices : isolated (front.length + ((r :: rest).filterMap (below lo)).length)
          ((r :: rest).filterMap (inside lo hi)).length startRgn endRgn =
          isolated ((front ++ [r]).length + (rest.filterMap (below lo)).length)
            (rest.filterMap (inside lo hi)).length start (front.length + 1) := by
        rw [filterMap_cons_none (below_none (by omega)), filterMap_cons_some whole, none]
        simp [isolated_succ, ← first]
      rw [indices]
      simp only [length_append, append_assoc] at loop ⊢
      exact loop

end Isolate

def orEmpty (regions : List MemblockRegion) : List MemblockRegion :=
  if regions = [] then [⟨0, 0, noAttr⟩] else regions

theorem removeRegions_eq (type : MemblockType) (front back : List MemblockRegion)
    (mid : List MemblockRegion) (nonempty : mid ≠ []) (bound : ∀ b ∈ mid, b.size < 2 ^ 64) :
    removeRegions front.length mid.length (withRegions type (front ++ mid ++ back)) =
      withRegions type (orEmpty (front ++ back)) := by
  -- the last of the isolated regions goes first
  induction mid using List.reverseRecOn generalizing back with
  | nil => exact absurd rfl nonempty
  | append_singleton mid r ih =>
    have regroup : front ++ (mid ++ [r]) ++ back = (front ++ mid) ++ r :: back := by simp
    have index : front.length + mid.length = (front ++ mid).length := by simp
    rw [length_append, length_singleton, removeRegions, regroup, index,
      memblockRemoveRegion_eq (bound r (by simp))]
    by_cases done : mid = []
    · subst done
      simp [removeRegions, orEmpty]
    have some : front ++ mid ++ back ≠ [] := by simp [done]
    rw [if_neg some]
    exact ih back done fun b mem => bound b (by simp [mem])

theorem mapIdx_between (change : RegionAttr → RegionAttr) (front mid back : List MemblockRegion) :
    (front ++ mid ++ back).mapIdx (fun i r =>
      if front.length ≤ i ∧ i < front.length + mid.length then { r with tag := change r.tag } else r) =
      front ++ mid.map (fun r => { r with tag := change r.tag }) ++ back := by
  refine ext_getElem? fun i => ?_
  rw [List.getElem?_mapIdx]
  by_cases low : i < front.length
  · rw [append_assoc, append_assoc, List.getElem?_append_left low, List.getElem?_append_left low]
    simp [show ¬front.length ≤ i by omega]
  by_cases high : i < front.length + mid.length
  · have later : front.length ≤ i := by omega
    have found (part : List MemblockRegion) (length : part.length = mid.length) :
        (front ++ (part ++ back))[i]? = part[i - front.length]? := by
      rw [List.getElem?_append_right later, List.getElem?_append_left (by omega)]
    rw [append_assoc, append_assoc, found mid rfl, found _ (length_map _)]
    simp [high, later]
  · have beyond : (front ++ mid).length ≤ i := by
      rw [length_append]
      omega
    rw [List.getElem?_append_right beyond,
      List.getElem?_append_right (by simpa only [length_append, length_map] using beyond)]
    simp [high]

end Linux318.Source.Mm
