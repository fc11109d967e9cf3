import Linux318.Source.Percpu.AreaAlloc

/-!
Freeing an area: the search for its entry and the merge with free neighbours.
-/
namespace Linux318.Source.Percpu
open List

/-- The offsets increase up to the end marker. -/
theorem starts_offsets {l : List Area} (off : Nat) (even : 2 ∣ off)
    (sizes : ∀ a ∈ l, 0 < a.size ∧ 2 ∣ a.size) :
    (∀ e ∈ starts off l ++ [((off + total l : Nat) : Int) + 1], (off : Int) ≤ offsetOf e) ∧
      ((starts off l ++ [((off + total l : Nat) : Int) + 1]).map offsetOf).Pairwise (· < ·) := by
  induction l generalizing off with
  | nil =>
    refine ⟨fun e mem => ?_, by simp [starts]⟩
    simp only [starts, nil_append, mem_singleton] at mem
    rw [offsetOf]
    omega
  | cons a l ih =>
    have here := sizes a mem_cons_self
    have even' : 2 ∣ off + a.size := by omega
    obtain ⟨low, sorted⟩ := ih (off + a.size) even' fun b mem =>
      sizes b (mem_cons_of_mem a mem)
    rw [Nat.add_assoc] at low sorted
    rw [starts, cons_append]
    refine ⟨fun e mem => ?_, ?_⟩
    · rcases mem_cons.mp mem with rfl | later
      · rw [offsetOf_eq even]
      · have := low e later
        omega
    rw [map_cons, offsetOf_eq even]
    refine List.Pairwise.cons (fun e later => ?_) sorted
    obtain ⟨e', mem, rfl⟩ := mem_map.mp later
    have := low e' mem
    omega

section
variable {unitSize n : Nat} {pre post : List Area} {chunk : PcpuChunk}

theorem searchLoop_spec (ok : ChunkOk unitSize chunk (pre ++ ⟨n, true⟩ :: post)) (fuel i j : Nat)
    (off : Int) (low : i ≤ pre.length) (high : pre.length < j) (last : j ≤ mapUsed chunk)
    (enough : j ≤ i + fuel) :
    searchLoop chunk (total pre + 1) fuel i j off = some (pre.length, (total pre : Int) + 1) := by
  have offsets := (starts_offsets 0 ⟨0, rfl⟩ fun a mem => ok.cut.sizes mem).2
  have sorted := (pairwise_map.mp offsets).imp fun {a b} lt => show a < b by
    rw [offsetOf, offsetOf] at lt
    omega
  rw [Nat.zero_add, ok.cut.sum, ← ok.map, pairwise_iff_getElem] at sorted
  have here := entry_here ok.map ok.cut.sum
  rw [entry_nat] at here
  obtain ⟨bound, here⟩ := List.getElem?_eq_some_iff.mp here
  have here : chunk.map[pre.length] = (total pre : Int) + 1 := here
  rw [mapUsed] at last
  induction fuel generalizing i j off with
  | zero => omega
  | succ fuel ih =>
    have inside : (i + j) / 2 < chunk.map.length := by omega
    rw [searchLoop, if_neg (by omega)]
    simp only [entry_nat, List.getElem?_eq_getElem inside, Option.bind_eq_bind, Option.bind_some]
    rcases Nat.lt_trichotomy ((i + j) / 2) pre.length with less | same | more
    · have lt := sorted _ _ inside bound less
      rw [here] at lt
      rw [if_pos lt]
      exact ih _ _ _ (by omega) high last (by omega)
    · have eq : chunk.map[(i + j) / 2] = (total pre : Int) + 1 := by
        rw [← here]
        congr 1
      rw [if_neg (by omega), if_neg (by omega), eq, same]
      rfl
    · have gt := sorted _ _ bound inside more
      rw [here] at gt
      rw [if_neg (by omega), if_pos gt]
      exact ih _ _ _ low more (by omega) (by omega)

theorem usedAt_split {l : List Area} {off m : Nat} (used : UsedAt l off m) :
    ∃ pre post, l = pre ++ ⟨m, true⟩ :: post ∧ total pre = off := by
  induction l generalizing off with
  | nil => exact used.elim
  | cons a l ih =>
    rcases used with ⟨rfl, flag, rfl⟩ | ⟨off', rfl, later⟩
    · refine ⟨[], l, ?_, rfl⟩
      rw [nil_append, ← flag]
    · obtain ⟨pre, post, rfl, rfl⟩ := ih later
      exact ⟨a :: pre, post, rfl, rfl⟩

inductive MergesPrev : List Area → List Area → Nat → Bool → Prop
  | keep {pre : List Area} (used : ∀ y ∈ pre.getLast?, y.used = true) : MergesPrev pre pre 0 false
  | merge {pre : List Area} {k : Nat} (used : ∀ y ∈ pre.getLast?, y.used = true) :
      MergesPrev (pre ++ [⟨k, false⟩]) pre k true

inductive MergesNext : List Area → List Area → Nat → Bool → Prop
  | keep {post : List Area} (used : ∀ y ∈ post.head?, y.used = true) : MergesNext post post 0 false
  | merge {post : List Area} {k : Nat} (used : ∀ y ∈ post.head?, y.used = true) :
      MergesNext (⟨k, false⟩ :: post) post k true

theorem AreasOk.mergesPrev {x : Area} (areas : AreasOk unitSize (pre ++ x :: post)) :
    ∃ pre' k merge, MergesPrev pre pre' k merge := by
  obtain ⟨chain, _, _⟩ := isChain_append.mp areas.apart
  rcases eq_nil_or_concat' pre with rfl | ⟨front, ⟨k, used⟩, rfl⟩
  · exact ⟨[], 0, false, .keep (by simp)⟩
  cases used with
  | true => exact ⟨_, 0, false, .keep (by simp)⟩
  | false =>
    refine ⟨front, k, true, .merge fun y last => ?_⟩
    obtain ⟨_, _, link⟩ := isChain_append.mp chain
    exact (link y last _ rfl).resolve_right Bool.false_ne_true

theorem AreasOk.mergesNext {x : Area} (areas : AreasOk unitSize (pre ++ x :: post)) :
    ∃ post' k merge, MergesNext post post' k merge := by
  obtain ⟨_, chain, _⟩ := isChain_append.mp areas.apart
  have chain := (isChain_cons.mp chain).2
  cases post with
  | nil => exact ⟨[], 0, false, .keep (by simp)⟩
  | cons y post =>
    obtain ⟨k, used⟩ := y
    cases used with
    | true => exact ⟨_, 0, false, .keep (by simp)⟩
    | false =>
      refine ⟨post, k, true, .merge fun y head => ?_⟩
      exact ((isChain_cons.mp chain).1 y head).resolve_left Bool.false_ne_true

section Merge
variable {pre' post' : List Area} {k m : Nat} {mergePrev mergeNext : Bool}

theorem MergesPrev.parts (merges : MergesPrev pre pre' k mergePrev) :
    total pre = total pre' + k ∧ freeTotal pre = freeTotal pre' + k ∧ ∀ b ∈ pre', b ∈ pre := by
  cases merges with
  | keep => exact ⟨rfl, rfl, fun _ mem => mem⟩
  | merge => exact ⟨by simp [total], by simp [freeTotal], fun _ mem => mem_append_left _ mem⟩

theorem MergesNext.parts (merges : MergesNext post post' k mergeNext) :
    total post = k + total post' ∧ freeTotal post = k + freeTotal post' ∧ ∀ b ∈ post', b ∈ post := by
  cases merges with
  | keep => exact ⟨(Nat.zero_add _).symm, (Nat.zero_add _).symm, fun _ mem => mem⟩
  | merge => exact ⟨rfl, rfl, fun _ mem => mem_cons_of_mem _ mem⟩

theorem AreasOk.merge (areas : AreasOk unitSize (pre ++ ⟨n, true⟩ :: post))
    (prev : MergesPrev pre pre' k mergePrev) (next : MergesNext post post' m mergeNext) :
    AreasOk unitSize (pre' ++ ⟨k + n + m, false⟩ :: post') := by
  have sum := areas.sum
  have here := areas.sizes (a := ⟨n, true⟩) (by simp)
  obtain ⟨left, chain, _⟩ := isChain_append.mp areas.apart
  have right := (isChain_cons.mp chain).2
  obtain ⟨totals, _, subPre⟩ := prev.parts
  obtain ⟨totals', _, subPost⟩ := next.parts
  obtain ⟨leftChain, evenK, lastUsed⟩ : (pre'.IsChain fun a b => a.used = true ∨ b.used = true) ∧
      2 ∣ k ∧ (∀ y ∈ pre'.getLast?, y.used = true) := by
    cases prev with
    | keep used => exact ⟨left, ⟨0, rfl⟩, used⟩
    | merge used =>
      exact ⟨left.left_of_append, (areas.sizes (a := ⟨k, false⟩) (by simp)).2, used⟩
  obtain ⟨rightChain, evenM, headUsed⟩ : (post'.IsChain fun a b => a.used = true ∨ b.used = true) ∧
      2 ∣ m ∧ (∀ y ∈ post'.head?, y.used = true) := by
    cases next with
    | keep used => exact ⟨right, ⟨0, rfl⟩, used⟩
    | merge used =>
      exact ⟨(isChain_cons.mp right).2, (areas.sizes (a := ⟨m, false⟩) (by simp)).2, used⟩
  simp only at here
  refine ⟨?_, fun {b} mem => ?_, ?_⟩
  · simp only [total_append, total] at sum ⊢
    omega
  · rcases mem_append.mp mem with there | there
    · exact areas.sizes (by simp [subPre b there])
    rcases mem_cons.mp there with rfl | there
    · simp only
      omega
    · exact areas.sizes (by simp [subPost b there])
  · refine leftChain.append (isChain_cons.mpr ⟨fun y head => .inr (headUsed y head),
      rightChain⟩) fun x last y _ => .inl (lastUsed x last)

theorem MergesNext.nextUsed_eq (merges : MergesNext post post' k mergeNext) :
    (!nextUsed post) = mergeNext ∧ nextUsed post' = true := by
  cases merges with
  | keep used =>
    cases post with
    | nil => exact ⟨rfl, rfl⟩
    | cons y post =>
      have flag : y.used = true := used y rfl
      simp only [nextUsed, flag]
      exact ⟨rfl, trivial⟩
  | merge used =>
    refine ⟨rfl, ?_⟩
    cases post' with
    | nil => rfl
    | cons y post' => exact used y rfl

theorem map_merge (unitSize n : Nat) (prev : MergesPrev pre pre' k mergePrev)
    (next : MergesNext post post' m mergeNext) :
    (if mergePrev then pre.length - 1 else pre.length) = pre'.length ∧
      (starts 0 (pre ++ ⟨n, false⟩ :: post) ++ [(unitSize : Int) + 1]).take (pre'.length + 1) ++
        (starts 0 (pre ++ ⟨n, false⟩ :: post) ++ [(unitSize : Int) + 1]).drop
          (pre'.length + 1 + (mergeNext.toNat + mergePrev.toNat)) =
      starts 0 (pre' ++ ⟨k + n + m, false⟩ :: post') ++ [(unitSize : Int) + 1] := by
  have taken : (starts 0 pre').take (pre'.length + 1) = starts 0 pre' :=
    take_of_length_le (by simp)
  cases prev with
  | keep =>
    cases next with
    | keep => simp [starts_append, starts, take_append, drop_append, taken]
    | merge =>
      simp [starts_append, starts, take_append, drop_append, taken, Nat.add_assoc]
  | merge =>
    cases next with
    | keep | merge =>
      simp [starts_append, starts, take_append, drop_append, taken, Nat.add_assoc]

end Merge

structure Freed (unitSize : Nat) (areas : List Area) (off : Nat) (chunk' : PcpuChunk)
    (areas' : List Area) : Prop where
  ok : ChunkOk unitSize chunk' areas'
  kept : ∀ o m, o ≠ off → UsedAt areas o m → UsedAt areas' o m

theorem usedAt_merge {pre' post' : List Area} {k m : Nat} {mergePrev mergeNext : Bool}
    (areas : AreasOk unitSize (pre ++ ⟨n, true⟩ :: post)) (prev : MergesPrev pre pre' k mergePrev)
    (next : MergesNext post post' m mergeNext) {o j : Nat} (ne : o ≠ total pre)
    (used : UsedAt (pre ++ ⟨n, true⟩ :: post) o j) :
    UsedAt (pre' ++ ⟨k + n + m, false⟩ :: post') o j := by
  rw [usedAt_append] at used ⊢
  rcases used with left | ⟨o', rfl, right⟩
  · left
    cases prev with
    | keep => exact left
    | merge =>
      rw [usedAt_append] at left
      rcases left with left | ⟨o', rfl, here⟩
      · exact left
      rcases here with ⟨_, impossible, _⟩ | ⟨o'', _, impossible⟩
      · cases impossible
      · exact impossible.elim
  right
  rcases right with ⟨rfl, _⟩ | ⟨o'', rfl, later⟩
  · exact absurd (Nat.add_zero _) ne
  have totals := prev.parts.1
  cases next with
  | keep =>
    exact ⟨k + n + o'', by simp only; omega, .inr ⟨o'', rfl, later⟩⟩
  | merge =>
    rcases later with ⟨_, impossible, _⟩ | ⟨o3, rfl, later⟩
    · cases impossible
    · exact ⟨k + n + m + o3, by simp only; omega, .inr ⟨o3, rfl, later⟩⟩

/-- The previous area is read only if there is one. -/
theorem readPrev_eq {pre' : List Area} {k : Nat} {mergePrev : Bool} {x : Area}
    (map : chunk.map = starts 0 (pre ++ x :: post) ++ [(unitSize : Int) + 1])
    (sum : total (pre ++ x :: post) = unitSize) (even : ∀ a ∈ pre, 2 ∣ a.size)
    (prev : MergesPrev pre pre' k mergePrev) :
    (∃ off, 0 < pre.length ∧ entry chunk ((pre.length : Int) - 1) = some off ∧
      (!inUse off) = mergePrev) ∨ ¬ 0 < pre.length ∧ false = mergePrev := by
  rcases eq_nil_or_concat' pre with rfl | ⟨front, y, rfl⟩
  · generalize none : ([] : List Area) = l at prev
    right
    cases prev with
    | keep =>
      rw [← none]
      exact ⟨Nat.lt_irrefl 0, rfl⟩
    | merge => simp at none
  rw [append_assoc] at map sum
  have frontEven : 2 ∣ total front := even_total fun a mem => even a (mem_append_left _ mem)
  refine .inl ⟨_, by simp, entry_prev map sum, ?_⟩
  rw [inUse_eq frontEven]
  generalize whole : front ++ [y] = l at prev
  cases prev with
  | keep used =>
    have flag : y.used = true := used y (by rw [← whole]; simp)
    rw [flag]
    rfl
  | merge used =>
    have last := (append_inj' whole rfl).2
    rw [List.cons.injEq] at last
    rw [last.1]
    rfl

/-- No free area is before the first free one. -/
theorem first_merge {pre' post' : List Area} {k m : Nat} {mergePrev : Bool}
    (ok : ChunkOk unitSize chunk (pre ++ ⟨n, true⟩ :: post)) (prev : MergesPrev pre pre' k mergePrev)
    {a : Area}
    (mem : a ∈ (pre' ++ ⟨k + n + m, false⟩ :: post').take (min pre.length chunk.firstFree)) :
    a.used = true := by
  have low : min pre.length chunk.firstFree ≤ pre'.length := by
    cases prev with
    | keep => exact Nat.min_le_left _ _
    | merge =>
      by_contra high
      obtain ⟨d, past⟩ : ∃ d, chunk.firstFree - pre'.length = d + 1 :=
        ⟨chunk.firstFree - pre'.length - 1, by omega⟩
      have used := ok.first (by
        rw [append_assoc, take_append, mem_append, past]
        exact .inr mem_cons_self)
      cases used
  rw [take_append_of_le_length low] at mem
  have before : a ∈ pre'.take chunk.firstFree :=
    (take_subset_take_left _ (Nat.min_le_right _ _)) mem
  refine ok.first ?_
  cases prev with
  | keep =>
    rw [take_append]
    exact mem_append_left _ before
  | merge =>
    rw [append_assoc, take_append]
    exact mem_append_left _ before

theorem map_unused : (starts 0 (pre ++ ⟨n, true⟩ :: post) ++ [(unitSize : Int) + 1]).set pre.length
    (total pre) = starts 0 (pre ++ ⟨n, false⟩ :: post) ++ [(unitSize : Int) + 1] := by
  simp [starts_append, starts, flag]

theorem firstFree_eq (i : Nat) : (if i < chunk.firstFree then { chunk with firstFree := i } else
    chunk) = { chunk with firstFree := min i chunk.firstFree } := by
  split_ifs with lt
  · rw [Nat.min_eq_left (Nat.le_of_lt lt)]
  · rw [Nat.min_eq_right (Nat.le_of_not_lt lt)]

theorem pcpuFreeArea_spec {areas : List Area} (ok : ChunkOk unitSize chunk areas) {off n : Nat}
    (used : UsedAt areas off n) : ∃ occ chunk' areas', pcpuFreeArea chunk off = some (occ, chunk') ∧
      Freed unitSize areas off chunk' areas' := by
  obtain ⟨pre, post, rfl, rfl⟩ := usedAt_split used
  obtain ⟨evenPre, evenN, _, _⟩ := ok.cut.even
  obtain ⟨pre', k, mergePrev, prev⟩ := ok.cut.mergesPrev
  obtain ⟨post', m, mergeNext, next⟩ := ok.cut.mergesNext
  have slots := mapUsed_eq ok.map
  rw [length_append, length_cons] at slots
  have place : offsetOf (total pre : Int) = total pre := by
    have even := offsetOf_eq evenPre false
    rwa [flag, if_neg Bool.false_ne_true, Int.add_zero] at even
  have place' : offsetOf ((total pre : Int) + 1) = total pre := offsetOf_eq evenPre true
  have found := searchLoop_spec ok (mapUsed chunk) 0 (mapUsed chunk) 0 (Nat.zero_le _) (by omega)
    (Nat.le_refl _) (by omega)
  obtain ⟨chunk1, unmarked⟩ : ∃ c : PcpuChunk, c = { chunk with
      firstFree := min pre.length chunk.firstFree
      map := starts 0 (pre ++ ⟨n, false⟩ :: post) ++ [(unitSize : Int) + 1]
      freeSize := chunk.freeSize + n } := ⟨_, rfl⟩
  have map1 : chunk1.map = starts 0 (pre ++ ⟨n, false⟩ :: post) ++ [(unitSize : Int) + 1] := by
    rw [unmarked]
  have sum1 : total (pre ++ ⟨n, false⟩ :: post) = unitSize := by
    rw [← ok.cut.sum, total_append, total_append, total, total]
  have evenFin : 2 ∣ total pre + n := by
    simp only at evenN
    omega
  have nextOf (c : PcpuChunk)
      (map : c.map = starts 0 (pre ++ ⟨n, false⟩ :: post) ++ [(unitSize : Int) + 1]) :
      entry c ((pre.length : Int) + 1) = some ((total pre + n : Nat) + flag (nextUsed post)) :=
    entry_next map sum1
  have inside : pre.length < mapUsed chunk1 := by
    rw [mapUsed_eq map1, length_append, length_cons]
    omega
  obtain ⟨occ, counted⟩ := pcpuCountOccupiedPages_isSome inside
  have readPrev := readPrev_eq map1 sum1 (fun a mem => (ok.cut.sizes (by simp [mem])).2) prev
  have merged := ok.cut.merge prev next
  obtain ⟨nextFlag, lastFlag⟩ := next.nextUsed_eq
  obtain ⟨index, entries⟩ := map_merge unitSize n prev next
  have ends (c : PcpuChunk)
      (map : c.map = starts 0 (pre' ++ ⟨k + n + m, false⟩ :: post') ++ [(unitSize : Int) + 1]) :
      entry c (pre'.length : Int) = some ((total pre' : Int) + 0) ∧ entry c ((pre'.length : Int) + 1) =
        some ((total pre' : Int) + (k + n + m : Nat) + 1) := by
    refine ⟨entry_here map merged.sum, ?_⟩
    rw [entry_next map merged.sum, lastFlag]
    rfl
  have size : (total pre' : Int) + (k + n + m : Nat) + 1 - (total pre' + 0) - 1 =
      (k + n + m : Nat) := by
    omega
  have step : pcpuFreeArea chunk (total pre) = some (occ, { chunk with
      firstFree := min pre.length chunk.firstFree
      map := starts 0 (pre' ++ ⟨k + n + m, false⟩ :: post') ++ [(unitSize : Int) + 1]
      freeSize := chunk.freeSize + n
      contigHint := max ((k + n + m : Nat) : Int) chunk.contigHint }) := by
    rw [pcpuFreeArea, place]
    simp only [found, Option.bind_eq_bind, Option.bind_some, ne_eq, not_true_eq_false, if_false,
      firstFree_eq, place', setEntry]
    simp only [ok.map, map_unused]
    rw [nextOf _ rfl]
    simp only [Option.bind_some, offsetOf_eq evenFin, inUse_eq evenFin, nextFlag, Option.pure_def]
    rw [show chunk.freeSize + (((total pre + n : Nat) : Int) - total pre) = chunk.freeSize + n by
      omega]
    rw [unmarked] at counted readPrev
    simp only [counted, Option.bind_some]
    rcases readPrev with ⟨off, pos, read, rfl⟩ | ⟨zero, rfl⟩
    · simp only [if_pos pos, read, Option.bind_some, index, entries]
      rw [(ends _ rfl).1, (ends _ rfl).2, Option.bind_some, Option.bind_some, size]
    · simp only [if_neg zero, index, entries]
      rw [(ends _ rfl).1, (ends _ rfl).2, Option.bind_some, Option.bind_some, size]
  refine ⟨occ, _, pre' ++ ⟨k + n + m, false⟩ :: post', step,
    ⟨rfl, merged, ?_, fun {a} mem free => ?_, first_merge ok prev⟩,
    fun o j ne => usedAt_merge ok.cut prev next ne⟩
  · have free := ok.free
    have before := prev.parts.2.1
    have behind := next.parts.2.1
    simp only [freeTotal_append, freeTotal, if_pos, Bool.false_eq_true, if_false] at free ⊢
    omega
  · rw [le_max_iff]
    rcases mem_append.mp mem with there | there
    · exact .inr (ok.hint (mem_append_left _ (prev.parts.2.2 a there)) free)
    rcases mem_cons.mp there with rfl | there
    · exact .inl (Int.le_refl _)
    · exact .inr (ok.hint (mem_append_right _ (mem_cons_of_mem _ (next.parts.2.2 a there))) free)

end

end Linux318.Source.Percpu
