import Linux318.Source.ListSort.Merge

/-!
lib/list_sort.c, 102 to 144: `list_sort`, which merges the sorted lists of `part` like a binary
counter. Slot `lev` has about 2 ^ lev elements, and the lower slots have the later ones.
-/
namespace Linux318.Source.ListSort
open Lib Function List

variable {cmp : Nat → Nat → Int} {s : ListHeads} {l : List Nat}

def maxListLengthBits : Nat := 20

/-- The loop over the slots that are in use, which are merged into `cur`. -/
def slotLoop (cmp : Nat → Nat → Int) (bound frame : Nat) :
    Nat → ListHeads → List Nat → Nat → Nat → Option (ListHeads × List Nat × Nat × Nat)
  | 0, _, _, _, _ => none
  | rounds + 1, s, part, lev, cur => do
    let p ← part[lev]?
    if p ≠ 0 then do
      let (s, cur) ← merge cmp bound s frame p cur
      slotLoop cmp bound frame rounds s (part.set lev 0) (lev + 1) cur
    else some (s, part, lev, cur)

def elementLoop (cmp : Nat → Nat → Int) (bound frame : Nat) :
    Nat → ListHeads → List Nat → Nat → Nat → Option (ListHeads × List Nat × Nat)
  | 0, _, _, _, _ => none
  | rounds + 1, s, part, maxLev, list =>
    if list ≠ 0 then do
      let cur := list
      let list ← getNext s list
      let s ← setNext s cur 0
      let (s, part, lev, cur) ← slotLoop cmp bound frame part.length s part 0 cur
      let (lev, maxLev) :=
        if maxLev < lev then
          -- the last slot stays empty, longer lists go to the one before
          let lev := if part.length - 1 ≤ lev then lev - 1 else lev
          (lev, lev)
        else (lev, maxLev)
      elementLoop cmp bound frame rounds s (part.set lev cur) maxLev list
    else some (s, part, maxLev)

/-- The loop over the slots below the highest one, with the number that is left. -/
def collectLoop (cmp : Nat → Nat → Int) (bound frame : Nat) (part : List Nat) :
    Nat → ListHeads → Nat → Nat → Option (ListHeads × Nat)
  | 0, s, _, list => some (s, list)
  | n + 1, s, lev, list => do
    let p ← part[lev]?
    let (s, list) ← (if p ≠ 0 then merge cmp bound s frame p list else some (s, list))
    collectLoop cmp bound frame part n s (lev + 1) list

/-- `list_sort`. `frame` is the address of the local head of the merges. -/
def listSort (cmp : Nat → Nat → Int) (rounds frame : Nat) (s : ListHeads) (head : Nat) :
    Option ListHeads :=
  if s.next head = head then some s
  else do
    let part := replicate (maxListLengthBits + 1) 0
    let s ← setNext s (s.prev head) 0
    let (s, part, maxLev) ← elementLoop cmp rounds frame rounds s part 0 (s.next head)
    let (s, list) ← collectLoop cmp rounds frame part maxLev s 0 0
    let top ← part[maxLev]?
    mergeAndRestoreBackLinks cmp rounds s head top list

section Sorted

variable {cmp : Nat → Nat → Int} {next next' : Nat → Nat} {p : Nat} {c : List Nat}

def Sorts (cmp : Nat → Nat → Int) (next : Nat → Nat) (p : Nat) (c : List Nat) : Prop :=
  ∃ out, Chain next p out ∧ StableSort (cmpLe cmp) c out

theorem Sorts.nil : Sorts cmp next 0 [] := ⟨[], rfl, .nil⟩

theorem Sorts.singleton (some : p ≠ 0) (last : next p = 0) : Sorts cmp next p [p] :=
  ⟨[p], ⟨rfl, some, last⟩, .singleton p⟩

theorem Sorts.congr (sorts : Sorts cmp next p c) (same : ∀ x ∈ c, next' x = next x) :
    Sorts cmp next' p c := by
  obtain ⟨out, chain, stable⟩ := sorts
  exact ⟨out, chain.congr fun x mem => same x (stable.perm.mem_iff.mp mem), stable⟩

theorem Sorts.eq_zero_iff (sorts : Sorts cmp next p c) : p = 0 ↔ c = [] := by
  obtain ⟨out, chain, stable⟩ := sorts
  rw [chain.eq_zero_iff, ← length_eq_zero_iff, stable.perm.length_eq, length_eq_zero_iff]

variable (trans : ∀ a b c, cmpLe cmp a b → cmpLe cmp b c → cmpLe cmp a c)
  (total : ∀ a b, cmpLe cmp a b || cmpLe cmp b a)
include trans total

theorem merge_sorts {fuel : Nat} {head a b : Nat} {c d : List Nat} (left : Sorts cmp s.next a c)
    (right : Sorts cmp s.next b d) (some : head ≠ 0) (nodup : (head :: (c ++ d)).Nodup)
    (enough : (c ++ d).length < fuel) :
    ∃ s' list, merge cmp fuel s head a b = .some (s', list) ∧ Sorts cmp s'.next list (c ++ d) ∧
      ∀ x, x ∉ head :: (c ++ d) → s'.next x = s.next x := by
  obtain ⟨out, chain, stable⟩ := left
  obtain ⟨out', chain', stable'⟩ := right
  have perm := (stable.perm.append stable'.perm).cons head
  obtain ⟨s', run, merged, same⟩ := mergeLoop_chain chain chain' some (perm.nodup_iff.mpr nodup)
    (by simpa [stable.perm.length_eq, stable'.perm.length_eq] using enough)
  refine ⟨s', s'.next head, ?_, ⟨_, merged, stable.merge trans total stable'⟩,
    fun x outside => same x fun mem => outside (perm.mem_iff.mp mem)⟩
  rw [merge, run]
  simp [getNext_eq some]

end Sorted

theorem forall₂_slot {α β : Type} {R : α → β → Prop} {as : List α} {l r : List β} {x : β}
    (all : List.Forall₂ R as (l ++ x :: r)) : ∃ a, as[l.length]? = some a ∧ R a x ∧
      ∀ b y, R b y → List.Forall₂ R (as.set l.length b) (l ++ y :: r) := by
  induction l generalizing as with
  | nil =>
    obtain ⟨a, rest, here, more, rfl⟩ := forall₂_cons_right_iff.mp all
    exact ⟨a, rfl, here, fun b y related => .cons related more⟩
  | cons z l ih =>
    obtain ⟨a, rest, here, more, rfl⟩ := forall₂_cons_right_iff.mp all
    obtain ⟨b, at_, related, set⟩ := ih more
    exact ⟨b, at_, related, fun b y related => .cons here (set b y related)⟩

/-- The lists of the slots are the given parts of the elements, in order. -/
abbrev Slots (cmp : Nat → Nat → Int) (next : Nat → Nat) : List Nat → List (List Nat) → Prop :=
  List.Forall₂ (Sorts cmp next)

theorem Slots.congr {next next' : Nat → Nat} {part : List Nat}
    {cs : List (List Nat)} (slots : Slots cmp next part cs)
    (same : ∀ x ∈ cs.flatten, next' x = next x) : Slots cmp next' part cs := by
  induction slots with
  | nil => exact .nil
  | cons here rest ih =>
    simp only [flatten_cons, mem_append] at same
    exact .cons (here.congr fun x mem => same x (.inl mem)) (ih fun x mem => same x (.inr mem))

/-- The slots of `list_sort`: those up to `max_lev`, which is in use unless nothing is, and at least
one more. -/
structure Counter (cmp : Nat → Nat → Int) (next : Nat → Nat) (part : List Nat)
    (low : List (List Nat)) (top : List Nat) (n : Nat) : Prop where
  slots : Slots cmp next part (low ++ top :: replicate (n + 1) [])
  inUse : top = [] → low = []

def counted (low : List (List Nat)) (top : List Nat) : List Nat := top ++ low.reverse.flatten

theorem perm_counted (low : List (List Nat)) (top : List Nat) (n : Nat) :
    (low ++ top :: replicate n []).flatten.Perm (counted low top) := by
  have same : (low ++ top :: replicate n []).flatten = low.flatten ++ top := by simp
  rw [same]
  exact perm_append_comm.trans ((reverse_perm low).symm.flatten.append_left top)

/-- Adding an element. The slots in use up to the first free one are cleared, and the merged list
goes to that slot, or to the one before if that is the last one. -/
theorem counter_add {low : List (List Nat)} {top : List Nat} (n a : Nat)
    (inUse : top = [] → low = []) : ∃ used free before after low' top' n',
      low ++ top :: replicate (n + 1) [] = used ++ [] :: free ∧ [] ∉ used ∧
      (if low.length < used.length then
          let lev := if low.length + 1 + (n + 1) - 1 ≤ used.length then used.length - 1 else used.length
          (lev, lev)
        else (used.length, low.length)) = (before.length, low'.length) ∧
      replicate used.length [] ++ [] :: free = before ++ [] :: after ∧
      before ++ (used.reverse.flatten ++ [a]) :: after = low' ++ top' :: replicate (n' + 1) [] ∧
      (top' = [] → low' = []) ∧ counted low' top' = counted low top ++ [a] := by
  by_cases gap : [] ∈ low
  · obtain ⟨used, low2, rfl, full⟩ := eq_append_cons_of_mem gap
    refine ⟨used, low2 ++ top :: replicate (n + 1) [], replicate used.length [],
      low2 ++ top :: replicate (n + 1) [],
      replicate used.length [] ++ (used.reverse.flatten ++ [a]) :: low2, top, n, by simp, full, ?_,
      rfl, by simp, ?_, by simp [counted]⟩
    · simp
    · intro none
      simpa using inUse none
  by_cases none : top = []
  · obtain rfl := inUse none
    subst none
    exact ⟨[], replicate (n + 1) [], [], replicate (n + 1) [], [], [a], n, rfl, by simp, rfl, rfl,
      by simp, by simp, by simp [counted]⟩
  have full : [] ∉ low ++ [top] := by simp [gap, Ne.symm none]
  have split : low ++ top :: replicate (n + 1) [] = (low ++ [top]) ++ [] :: replicate n [] := by
    simp [replicate_succ]
  rcases n with _ | n
  · -- the counter is full
    refine ⟨low ++ [top], [], replicate low.length [], [[]], replicate low.length [],
      (low ++ [top]).reverse.flatten ++ [a], 0, split, full, ?_, ?_, rfl, by simp, ?_⟩
    · simp
    · simp [replicate_succ']
    · simp [counted]
  refine ⟨low ++ [top], replicate (n + 1) [], replicate (low.length + 1) [],
    replicate (n + 1) [], replicate (low.length + 1) [],
    (low ++ [top]).reverse.flatten ++ [a], n, split, full, ?_, by simp, rfl, by simp, ?_⟩
  · simp
  · simp [counted]

section Loops

variable {cmp : Nat → Nat → Int} {bound frame : Nat}
  (trans : ∀ a b c, cmpLe cmp a b → cmpLe cmp b c → cmpLe cmp a c)
  (total : ∀ a b, cmpLe cmp a b || cmpLe cmp b a) (someFrame : frame ≠ 0)
include trans total someFrame

/-- The slots up to the first empty one are merged, the later elements into the earlier ones. -/
theorem slotLoop_sorts {used free : List (List Nat)} {fuel lev cur : Nat} {s : ListHeads}
    {part c : List Nat} (slots : Slots cmp s.next part (replicate lev [] ++ (used ++ [] :: free)))
    (inUse : [] ∉ used) (current : Sorts cmp s.next cur c)
    (nodup : (frame :: ((used ++ free).flatten ++ c)).Nodup)
    (short : (used.flatten ++ c).length < bound) (enough : used.length < fuel) :
    ∃ s' part' cur', slotLoop cmp bound frame fuel s part lev cur =
        some (s', part', lev + used.length, cur') ∧
      Slots cmp s'.next part' (replicate (lev + used.length) [] ++ [] :: free) ∧
      Sorts cmp s'.next cur' (used.reverse.flatten ++ c) ∧
      ∀ x, x ∉ frame :: (used.flatten ++ c) → s'.next x = s.next x := by
  induction used generalizing fuel lev cur s part c with
  | nil =>
    obtain ⟨fuel, rfl⟩ : ∃ m, fuel = m + 1 := ⟨fuel - 1, by simp at enough; omega⟩
    obtain ⟨p, slot, empty, _⟩ := forall₂_slot slots
    rw [length_replicate] at slot
    refine ⟨s, part, cur, ?_, slots, current, fun x out => rfl⟩
    have exit : ¬ p ≠ 0 := not_not.mpr (empty.eq_zero_iff.mpr rfl)
    simp only [slotLoop, slot, Option.bind_eq_bind, Option.bind_some, if_neg exit, length_nil,
      Nat.add_zero]
  | cons d used ih =>
    obtain ⟨fuel, rfl⟩ : ∃ m, fuel = m + 1 := ⟨fuel - 1, by simp at enough; omega⟩
    obtain ⟨p, slot, older, set⟩ := forall₂_slot slots
    rw [length_replicate] at slot set
    have someP : p ≠ 0 := fun none => inUse (by simp [older.eq_zero_iff.mp none])
    have distinct' : ((used ++ free).flatten ++ frame :: (d ++ c)).Nodup := by
      refine (List.Perm.nodup_iff ?_).mp nodup
      refine List.Perm.trans ?_ perm_middle.symm
      rw [cons_append, ← append_assoc]
      exact (perm_append_comm.append_right c).cons frame
    obtain ⟨s1, cur1, run, merged, same⟩ := merge_sorts trans total older current someFrame
      (nodup_append.mp distinct').2.1 (show (d ++ c).length < bound by simp at short ⊢; omega)
    have away : ∀ x ∈ (used ++ free).flatten, x ∉ frame :: (d ++ c) := fun x mem member' =>
      (nodup_append.mp distinct').2.2 x mem x member' rfl
    have slots1 : Slots cmp s1.next (part.set lev 0)
        (replicate (lev + 1) [] ++ (used ++ [] :: free)) := by
      rw [replicate_succ', append_assoc]
      exact Slots.congr (set 0 [] .nil) fun x mem => same x (away x (by simpa using mem))
    obtain ⟨s', part', cur', run', slots', sorted, same'⟩ := @ih fuel (lev + 1) cur1 s1 _ (d ++ c)
      slots1 (fun mem => inUse (mem_cons_of_mem d mem)) merged
      (perm_middle.nodup_iff.mp distinct') (by simp at short ⊢; omega) (by simpa using enough)
    have level : lev + 1 + used.length = lev + (d :: used).length := by simp; omega
    rw [level] at run' slots'
    refine ⟨s', part', cur', ?_, slots', ?_, ?_⟩
    · simp only [slotLoop, slot, run, run', Option.bind_eq_bind, Option.bind_some, if_pos someP]
    · simpa using sorted
    intro x out
    have outside' : x ∉ frame :: (used.flatten ++ (d ++ c)) := by simpa [or_left_comm] using out
    rw [same' x outside', same x fun mem => outside' (by simp at mem ⊢; tauto)]

theorem elementLoop_sorts {l : List Nat} (nodup : (frame :: l).Nodup) (short : l.length < bound)
    {fuel n list : Nat} {s : ListHeads} {part top rest : List Nat} {low : List (List Nat)}
    (counter : Counter cmp s.next part low top n) (chain : Chain s.next list rest)
    (whole : counted low top ++ rest = l) (enough : rest.length < fuel) : ∃ s' part' low' top' n',
      elementLoop cmp bound frame fuel s part low.length list = some (s', part', low'.length) ∧
      Counter cmp s'.next part' low' top' n' ∧ counted low' top' = l := by
  induction fuel generalizing n list s part top rest low with
  | zero => omega
  | succ fuel ih =>
    rcases rest with _ | ⟨a, rest⟩
    · refine ⟨s, part, low, top, n, ?_, counter, by simpa using whole⟩
      have exit : ¬ list ≠ 0 := not_not.mpr chain
      rw [elementLoop, if_neg exit]
    obtain ⟨rfl, someA, more⟩ := chain
    obtain ⟨used, free, before, after, low', top', n', split, full, levels, cleared, stored, inUse',
      add⟩ := counter_add n list counter.inUse
    -- the element becomes a list of its own
    have perm : (used.flatten ++ free.flatten ++ list :: rest).Perm l := by
      rw [← whole]
      refine List.Perm.append_right _ (List.Perm.trans ?_ (perm_counted low top (n + 1)))
      rw [split]
      simp
    have distinct' := (perm.cons frame).nodup_iff.mpr nodup
    obtain ⟨notFrame, apart⟩ := nodup_cons.mp distinct'
    obtain ⟨_, apartRest, away⟩ := nodup_append.mp apart
    have slots1 : Slots cmp (update s.next list 0) part
        (replicate 0 [] ++ (used ++ [] :: free)) := by
      rw [replicate_zero, ← split]
      refine counter.slots.congr fun x mem => update_of_ne ?_ ..
      rw [split] at mem
      exact away x (by simpa using mem) list (by simp)
    have size : (used.flatten ++ [list]).length < bound := by
      have := perm.length_eq
      simp at this ⊢
      omega
    have lengths : part.length = used.length + 1 + free.length := by
      simpa [Nat.add_assoc, Nat.add_comm 1] using slots1.length_eq
    obtain ⟨s', part', cur', run, slots', sorted, same⟩ := @slotLoop_sorts cmp bound frame trans total
      someFrame used free part.length 0 list { s with next := update s.next list 0 } part [list]
      slots1 full (.singleton someA (update_self ..)) (distinct'.sublist (by simp)) size (by omega)
    rw [Nat.zero_add] at run slots'
    have lengths' : part'.length = low.length + 1 + (n + 1) := by
      rw [slots'.length_eq]
      simpa [Nat.add_assoc, Nat.add_comm 1] using (congrArg List.length split).symm
    rw [cleared] at slots'
    obtain ⟨_, _, _, store⟩ := forall₂_slot slots'
    have slots'' := store cur' _ sorted
    rw [stored] at slots''
    have chain' : Chain s'.next (s.next list) rest := by
      refine more.congr fun x mem => ?_
      have other : x ≠ list := ne_of_mem_of_not_mem mem (nodup_cons.mp apartRest).1
      rw [same x]
      · exact update_of_ne other ..
      intro inside
      rcases mem_cons.mp inside with rfl | inside
      · exact notFrame (by simp [mem])
      rcases mem_append.mp inside with inside | inside
      · exact away x (by simp [inside]) x (by simp [mem]) rfl
      · exact other (by simpa using inside)
    obtain ⟨s'', part'', low'', top'', n'', runs, done⟩ :=
      @ih n' (s.next list) s' (part'.set before.length cur')
      top' rest low' ⟨slots'', inUse'⟩ chain' (by rw [add]; simpa using whole) (by simpa using enough)
    refine ⟨s'', part'', low'', top'', n'', ?_, done⟩
    simp only [elementLoop, ne_eq, someA, not_false_eq_true, if_true, getNext_eq someA,
      setNext_eq someA, Option.bind_eq_bind, Option.bind_some, run, lengths', levels, runs]

/-- The slots below the highest one are merged, from the later elements to the earlier ones. -/
theorem collectLoop_sorts {low high : List (List Nat)} {part c : List Nat} {s : ListHeads}
    {lev list : Nat} (slots : Slots cmp s.next (part.drop lev) (low ++ high))
    (current : Sorts cmp s.next list c) (nodup : (frame :: ((low ++ high).flatten ++ c)).Nodup)
    (short : (low.flatten ++ c).length < bound) :
    ∃ s' list', collectLoop cmp bound frame part low.length s lev list = some (s', list') ∧
      Slots cmp s'.next (part.drop (lev + low.length)) high ∧
      Sorts cmp s'.next list' (low.reverse.flatten ++ c) := by
  induction low generalizing c s lev list with
  | nil => exact ⟨s, list, rfl, slots, current⟩
  | cons d low ih =>
    obtain ⟨p, rest, older, slots, split⟩ := forall₂_cons_right_iff.mp slots
    have slot : part[lev]? = some p := by rw [← List.head?_drop, split, List.head?_cons]
    have below : part.drop (lev + 1) = rest := by rw [← tail_drop, split, tail_cons]
    rw [← below] at slots
    have distinct' : ((low ++ high).flatten ++ frame :: (d ++ c)).Nodup := by
      refine (List.Perm.nodup_iff ?_).mp nodup
      refine List.Perm.trans ?_ perm_middle.symm
      rw [cons_append, ← append_assoc]
      exact (perm_append_comm.append_right c).cons frame
    -- an empty slot is passed, which is as merging nothing
    have step : ∃ s1 list1, (if p ≠ 0 then merge cmp bound s frame p list else some (s, list)) =
          some (s1, list1) ∧ Sorts cmp s1.next list1 (d ++ c) ∧
        ∀ x, x ∉ frame :: (d ++ c) → s1.next x = s.next x := by
      by_cases none : p = 0
      · obtain rfl := older.eq_zero_iff.mp none
        exact ⟨s, list, if_neg (not_not.mpr none), current, fun x out => rfl⟩
      rw [if_pos none]
      exact merge_sorts trans total older current someFrame (nodup_append.mp distinct').2.1
        (show (d ++ c).length < bound by simp at short ⊢; omega)
    obtain ⟨s1, list1, run, merged, same⟩ := step
    obtain ⟨s', list', runs, slots', sorted⟩ := @ih (d ++ c) s1 (lev + 1) list1
      (Slots.congr slots fun x mem => same x fun member' =>
        (nodup_append.mp distinct').2.2 x mem x member' rfl) merged
      (perm_middle.nodup_iff.mp distinct') (by simp at short ⊢; omega)
    refine ⟨s', list', ?_, ?_, by simpa using sorted⟩
    · simp only [collectLoop, length_cons, slot, run, runs, Option.bind_eq_bind, Option.bind_some]
    · rw [length_cons, Nat.add_comm low.length, ← Nat.add_assoc]
      exact slots'

end Loops

theorem chain_of_links {head x : Nat} (links : List.IsChain (Link s) (x :: (l ++ [head])))
    (nodup : (x :: l).Nodup) (some : 0 ∉ x :: l) :
    s.prev head ∈ x :: l ∧ Chain (update s.next (s.prev head) 0) x (x :: l) := by
  induction l generalizing x with
  | nil =>
    have last : s.prev head = x := (isChain_cons_cons.mp links).1.2
    refine ⟨by simp [last], rfl, fun none => some (by simp [none]), ?_⟩
    rw [last]
    exact update_self ..
  | cons y l ih =>
    obtain ⟨link, links⟩ := isChain_cons_cons.mp links
    obtain ⟨fresh, nodup⟩ := nodup_cons.mp nodup
    obtain ⟨last, chain⟩ := ih links nodup fun mem => some (mem_cons_of_mem x mem)
    refine ⟨mem_cons_of_mem x last, rfl, fun none => some (by simp [none]), ?_⟩
    rw [update_of_ne (ne_of_mem_of_not_mem last fresh).symm, link.1]
    exact chain

theorem slots_replicate {next : Nat → Nat} (n : Nat) :
    Slots cmp next (replicate n 0) (replicate n []) := by
  induction n with
  | zero => exact .nil
  | succ n ih => exact .cons .nil ih

/-- `list_sort` gives a circular list that is a stable sort of the elements. -/
theorem listSort_sorts (trans : ∀ a b c, cmpLe cmp a b → cmpLe cmp b c → cmpLe cmp a c)
    (total : ∀ a b, cmpLe cmp a b || cmpLe cmp b a) {head frame fuel : Nat}
    (circular : Circular s head l) (nodup : (frame :: head :: l).Nodup)
    (some : 0 ∉ frame :: head :: l) (enough : l.length < fuel) :
    ∃ s' out, listSort cmp fuel frame s head = .some s' ∧ Circular s' head out ∧
      StableSort (cmpLe cmp) l out := by
  obtain ⟨notFrame, nodup⟩ := nodup_cons.mp nodup
  obtain ⟨notHead, distinctL⟩ := nodup_cons.mp nodup
  have someFrame : frame ≠ 0 := ne_of_mem_of_not_mem mem_cons_self some
  have someHead : head ≠ 0 := ne_of_mem_of_not_mem (by simp) some
  rcases l with _ | ⟨x, l⟩
  · have next : s.next head = head := (isChain_cons_cons.mp circular).1.1
    refine ⟨s, [], ?_, circular, .nil⟩
    rw [listSort, if_pos next]
  obtain ⟨first, links⟩ := isChain_cons_cons.mp circular
  obtain ⟨last, chain⟩ := chain_of_links links distinctL fun none => some (by simp [none])
  have next : update s.next (s.prev head) 0 head = x := by
    rw [update_of_ne (ne_of_mem_of_not_mem last notHead).symm]
    exact first.1
  have more : s.next head ≠ head := fun same => notHead (by simp [← first.1.symm.trans same])
  have someLast : s.prev head ≠ 0 :=
    ne_of_mem_of_not_mem (show _ ∈ frame :: head :: x :: l by simp [last]) some
  have distinctF : (frame :: x :: l).Nodup :=
    nodup_cons.mpr ⟨fun mem => notFrame (mem_cons_of_mem _ mem), distinctL⟩
  obtain ⟨s1, part, low, top, n, run, counter, whole⟩ := @elementLoop_sorts cmp fuel frame trans total
    someFrame (x :: l) distinctF enough fuel 19 x ⟨update s.next (s.prev head) 0, s.prev⟩
    (replicate (maxListLengthBits + 1) 0) [] (x :: l) [] ⟨slots_replicate 21, fun _ => rfl⟩ chain rfl
    enough
  have perm := perm_counted low top (n + 1)
  rw [whole] at perm
  have size : low.flatten.length < fuel := by
    have := perm.length_eq
    simp at this enough ⊢
    omega
  obtain ⟨s2, list, run', slots, below⟩ := @collectLoop_sorts cmp fuel frame trans total someFrame low
    (top :: replicate (n + 1) []) part [] s1 0 0 counter.slots .nil
    (by rw [append_nil]; exact (perm.cons frame).nodup_iff.mpr distinctF) (by simpa using size)
  rw [append_nil] at below
  rw [Nat.zero_add] at slots
  obtain ⟨p, rest, highest, _, split⟩ := forall₂_cons_right_iff.mp slots
  have slot : part[low.length]? = .some p := by rw [← List.head?_drop, split, List.head?_cons]
  obtain ⟨out, chain1, stable1⟩ := highest
  obtain ⟨out', chain2, stable2⟩ := below
  have perm' : (out ++ out').Perm (x :: l) := whole ▸ stable1.perm.append stable2.perm
  have size' : out.length + out'.length < fuel := by
    rw [← length_append, perm'.length_eq]
    exact enough
  obtain ⟨s', run'', links', _⟩ := @mergeRestoreLoop_links cmp fuel fuel s2 head head p list out out'
    chain1 chain2 someHead someHead ((perm'.cons head).nodup_iff.mpr nodup)
    (fun mem => notHead (perm'.mem_iff.mp mem))
    (fun none => by rw [none] at perm'; exact absurd perm'.nil_eq (by simp)) size' size'
  refine ⟨s', _, ?_, links', whole ▸ stable1.merge trans total stable2⟩
  rw [length_nil] at run
  rw [listSort, if_neg more, setNext_eq someLast]
  simp only [Option.bind_eq_bind, Option.bind_some, next, run, run', slot]
  exact run''

end Linux318.Source.ListSort
