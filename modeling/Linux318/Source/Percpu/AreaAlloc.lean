import Linux318.Source.Percpu.AreaMapOk

/-!
Allocating an area: the scan for a free area that fits, the merge of a small head into
the area before, and the split of the rest.
-/
namespace Linux318.Source.Percpu
open List

variable {chunk chunk' : PcpuChunk} {maxContig : Int}

structure Scanned (unitSize : Nat) (chunk : PcpuChunk) (pre post : List Area) (maxContig : Int)
    (seenFree : Bool) : Prop where
  ok : ChunkOk unitSize chunk (pre ++ post)
  contig {a : Area} : a ∈ pre → a.used = false → (a.size : Int) ≤ maxContig
  seen : seenFree = false → ∀ a ∈ pre, a.used = true
  first : chunk.firstFree ≤ pre.length

/-- The scan is at a free area, of size `n`, where the request fits. -/
structure FitAt (unitSize : Nat) (pre post : List Area) (n : Nat) (size align : Int)
    (seenFree : Bool) (a : AreaFit) : Prop where
  scanned : Scanned unitSize a.chunk pre (⟨n, false⟩ :: post) a.maxContig seenFree
  off : a.off = total pre
  thisSize : a.thisSize = n
  head : HeadFits a.off a.thisSize size align a.head

section
variable {unitSize n : Nat} {pre post : List Area} {size align : Int} {seenFree : Bool}
  {a : AreaFit}

theorem FitAt.even (fit : FitAt unitSize pre post n size align seenFree a) (evenAlign : 2 ∣ align) :
    2 ∣ a.head := by
  have pos := fit.scanned.ok.cut.even.1
  have aligned := Int.dvd_trans evenAlign fit.head.aligned
  rw [fit.off] at aligned
  omega

theorem usedKept_grow (pre post : List Area) (y : Area) {n k : Nat}
    (le : k ≤ n) : UsedKept (pre ++ ([y] ++ ⟨n, false⟩ :: post))
      (pre ++ ([⟨y.size + k, true⟩] ++ ⟨n - k, false⟩ :: post)) := by
  intro off m there
  rw [usedAt_append] at there
  rcases there with left | ⟨off1, rfl, right⟩
  · exact ⟨m, Nat.le_refl m, (usedAt_append ..).mpr (.inl left)⟩
  rcases right with ⟨rfl, _, rfl⟩ | ⟨off2, rfl, later⟩
  · exact ⟨y.size + k, Nat.le_add_right _ _,
      (usedAt_append ..).mpr (.inr ⟨0, rfl, .inl ⟨rfl, rfl, rfl⟩⟩)⟩
  rcases later with ⟨_, impossible, _⟩ | ⟨off3, rfl, behind⟩
  · cases impossible
  refine ⟨m, Nat.le_refl m, (usedAt_append ..).mpr (.inr ⟨_, rfl, .inr ⟨n - k + off3, ?_,
    .inr ⟨off3, rfl, behind⟩⟩⟩)⟩
  simp only
  omega

/-- The last area before the free one grows by the head. -/
theorem merged_ok {y : Area} {k : Nat} (chunk' : PcpuChunk)
    (scanned : Scanned unitSize chunk (pre ++ [y]) (⟨n, false⟩ :: post) maxContig seenFree)
    (used : y.used = true) (even : 2 ∣ k) (lt : k < n)
    (map : chunk'.map = chunk.map.set (pre ++ [y]).length (total (pre ++ [y]) + k))
    (free : chunk'.freeSize = chunk.freeSize - k) (hint : chunk'.contigHint = chunk.contigHint)
    (first : chunk'.firstFree = chunk.firstFree) :
    Scanned unitSize chunk' (pre ++ [⟨y.size + k, true⟩]) (⟨n - k, false⟩ :: post) maxContig
        seenFree ∧
      UsedKept ((pre ++ [y]) ++ ⟨n, false⟩ :: post)
        ((pre ++ [⟨y.size + k, true⟩]) ++ ⟨n - k, false⟩ :: post) := by
  have ok := scanned.ok
  have sum := ok.cut.sum
  have small := ok.cut.sizes (a := y) (by simp)
  have here := ok.cut.sizes (a := ⟨n, false⟩) (by simp)
  have old {b : Area} (mem : b ∈ pre ++ [⟨y.size + k, true⟩]) :
      b ∈ pre ∨ b = ⟨y.size + k, true⟩ := by
    rcases mem_append.mp mem with there | there
    · exact .inl there
    · exact .inr (mem_singleton.mp there)
  refine ⟨⟨⟨?_, ⟨?_, fun {b} mem => ?_, ?_⟩, ?_, fun {b} mem unused => ?_, fun {b} mem => ?_⟩,
    fun {b} mem unused => ?_, fun none b mem => ?_, ?_⟩, ?_⟩
  · rw [map, ok.map]
    simp only [starts_append, starts, total_append, total, used, append_assoc, cons_append,
      nil_append]
    rw [show 0 + total pre + (y.size + k) + (n - k) = 0 + total pre + y.size + n by omega]
    simp [flag, Int.add_assoc]
  · simp only [total_append, total] at sum ⊢
    omega
  · rcases mem_append.mp mem with there | there
    · rcases old there with left | rfl
      · exact ok.cut.sizes (by simp [left])
      · exact ⟨by simp only; omega, by simp only; omega⟩
    rcases mem_cons.mp there with rfl | right
    · simp only at here ⊢
      omega
    · exact ok.cut.sizes (by simp [right])
  · have apart := ok.cut.apart
    rw [append_assoc, singleton_append] at apart ⊢
    obtain ⟨left, chain, link⟩ := isChain_append.mp apart
    refine left.append ?_ fun x last z head => ?_
    · have rest := (isChain_cons_cons.mp chain).2
      exact isChain_cons_cons.mpr ⟨.inl rfl, isChain_cons.mpr
        ⟨(isChain_cons.mp rest).1, (isChain_cons.mp rest).2⟩⟩
    · rw [List.head?_cons, Option.mem_some_iff] at head
      subst head
      exact .inr rfl
  · rw [free, ok.free]
    simp only [freeTotal_append, freeTotal, used, if_pos]
    simp only [Bool.false_eq_true, if_false]
    omega
  · rw [hint]
    rcases mem_append.mp mem with there | there
    · rcases old there with left | rfl
      · exact ok.hint (by simp [left]) unused
      · cases unused
    rcases mem_cons.mp there with rfl | right
    · have := ok.hint (a := ⟨n, false⟩) (by simp) rfl
      simp only at this ⊢
      omega
    · exact ok.hint (by simp [right]) unused
  · rw [first, take_append_of_le_length (by simpa using scanned.first)] at mem
    rw [take_append, mem_append] at mem
    rcases mem with there | there
    · refine ok.first ?_
      rw [take_append_of_le_length scanned.first, take_append]
      exact mem_append_left _ there
    · rw [mem_singleton.mp (mem_of_mem_take there)]
  · rcases old mem with left | rfl
    · exact scanned.contig (mem_append_left _ left) unused
    · cases unused
  · rcases old mem with left | rfl
    · exact scanned.seen none b (mem_append_left _ left)
    · rfl
  · rw [first]
    simpa using scanned.first
  · rw [append_assoc, append_assoc]
    exact usedKept_grow pre post y (Nat.le_of_lt lt)

/-- A head is merged only into an area before, and what is left is no small head. -/
theorem mergeHead_spec (fit : FitAt unitSize pre post n size align seenFree a) (pos : 0 < size)
    (evenAlign : 2 ∣ align) (some : pre = [] → a.head = 0) :
    ∃ a' pre' n', mergeHead pre.length a = Option.some a' ∧
      FitAt unitSize pre' post n' size align seenFree a' ∧ pre'.length = pre.length ∧
      a'.chunk.mapAlloc = a.chunk.mapAlloc ∧
      UsedKept (pre ++ ⟨n, false⟩ :: post) (pre' ++ ⟨n', false⟩ :: post) := by
  have ok := fit.scanned.ok
  have even := fit.even evenAlign
  have room := fit.head.room
  have nonneg := fit.head.nonneg
  have aligned := fit.head.aligned
  rw [fit.thisSize] at room
  by_cases zero : a.head = 0
  · exact ⟨a, pre, n, by rw [mergeHead, if_pos zero], fit, rfl, rfl,
      fun off k used => ⟨k, Nat.le_refl k, used⟩⟩
  rcases eq_nil_or_concat' pre with rfl | ⟨pre, y, rfl⟩
  · exact absurd (some rfl) zero
  have used : y.used = true := ok.cut.neighbours.1 y (by simp)
  have read : entry a.chunk (((pre ++ [y]).length : Int) - 1) =
      Option.some (total pre + flag y.used) := by
    have cut := ok.cut
    have map := ok.map
    rw [append_assoc] at cut map
    exact entry_prev map cut.sum
  have flagged : inUse (total pre + flag y.used) = true := by
    have cut := ok.cut
    rw [append_assoc] at cut
    rw [inUse_eq cut.even.1, used]
  by_cases short : a.head < sizeofInt
  · obtain ⟨k, hk⟩ := Int.eq_ofNat_of_zero_le nonneg
    have evenK : 2 ∣ k := by omega
    have lt : k < n := by omega
    generalize chunkEq : ({ (setEntry a.chunk (pre ++ [y]).length (a.off + a.head)) with
      freeSize := a.chunk.freeSize - a.head } : PcpuChunk) = chunk'
    obtain ⟨scanned, kept⟩ := merged_ok chunk' fit.scanned used evenK lt
      (by rw [← chunkEq, fit.off, hk]; rfl) (by rw [← chunkEq, hk]) (by rw [← chunkEq]; rfl)
      (by rw [← chunkEq]; rfl)
    refine ⟨⟨chunk', a.off + a.head, a.thisSize - a.head, 0, a.maxContig⟩,
      pre ++ [⟨y.size + k, true⟩], n - k, ?_, ⟨scanned, ?_, ?_, ?_⟩, by simp, ?_, kept⟩
    · rw [mergeHead, if_neg zero, read, ← chunkEq]
      simp only [flagged, short, Option.bind_eq_bind, Option.bind_some]
      rfl
    · rw [fit.off]
      simp only [total_append, total]
      omega
    · rw [fit.thisSize, hk]
      show (n : Int) - k = ((n - k : Nat) : Int)
      omega
    · refine ⟨Int.le_refl 0, ?_, ?_⟩
      · simp only [fit.thisSize]
        omega
      · simp only [Int.add_zero]
        exact aligned
    · rw [← chunkEq]
      rfl
  · refine ⟨a, pre ++ [y], n, ?_, fit, rfl, rfl, fun off k used => ⟨k, Nat.le_refl k, used⟩⟩
    rw [mergeHead, read]
    simp [flagged, short]

/-- The areas that a free one is split into: a free head, the used part and a free tail. -/
def pieces (head size tail : Nat) : List Area :=
  (if head = 0 then [] else [⟨head, false⟩]) ++ ⟨size, true⟩ ::
    (if tail = 0 then [] else [⟨tail, false⟩])

theorem total_pieces (head size tail : Nat) : total (pieces head size tail) = head + size + tail := by
  by_cases zero : head = 0
  · by_cases none : tail = 0
    · simp [pieces, zero, none, total]
    · simp [pieces, zero, none, total]
  · by_cases none : tail = 0
    · simp [pieces, zero, none, total]
    · simp [pieces, zero, none, total, Nat.add_assoc]

theorem freeTotal_pieces (head size tail : Nat) :
    freeTotal (pieces head size tail) = head + tail := by
  unfold pieces
  split <;> split <;> simp_all [freeTotal]

theorem pieces_apart (head size tail : Nat) :
    (pieces head size tail).IsChain fun a b => a.used = true ∨ b.used = true := by
  unfold pieces
  split <;> split <;> simp

theorem mem_pieces {head size tail : Nat} {b : Area} (mem : b ∈ pieces head size tail) :
    (head ≠ 0 ∧ b = ⟨head, false⟩) ∨ b = ⟨size, true⟩ ∨ (tail ≠ 0 ∧ b = ⟨tail, false⟩) := by
  unfold pieces at mem
  split at mem <;> split at mem <;> simp_all

theorem length_pieces (head size tail : Nat) : (pieces head size tail).length =
    (if head = 0 then 0 else 1) + 1 + if tail = 0 then 0 else 1 := by
  unfold pieces
  split <;> split <;> rfl

theorem usedAt_pieces (head size tail : Nat) : UsedAt (pieces head size tail) head size := by
  by_cases zero : head = 0
  · rw [pieces, zero]
    exact .inl ⟨rfl, rfl, rfl⟩
  · rw [pieces, if_neg zero]
    exact .inr ⟨0, rfl, .inl ⟨rfl, rfl, rfl⟩⟩

/-- The entries of the pieces, once the used one is marked. -/
theorem map_pieces (pre post : List Area) (unitSize head size tail : Nat) :
    ((starts 0 pre ++ [(total pre : Int)] ++
        ((if head ≠ 0 then [(total pre : Int) + head] else []) ++
          (if tail ≠ 0 then [(total pre : Int) + head + size] else [])) ++
        (starts (total pre + (head + size + tail)) post ++ [(unitSize : Int) + 1])).set
      (if head ≠ 0 then pre.length + 1 else pre.length) (total pre + head + 1)) =
      starts 0 (pre ++ (pieces head size tail ++ post)) ++ [(unitSize : Int) + 1] := by
  rw [starts_append, starts_append, total_pieces]
  by_cases zero : head = 0
  · subst zero
    by_cases none : tail = 0
    · subst none
      simp [pieces, starts, flag]
    · simp [pieces, starts, flag, none]
  · by_cases none : tail = 0
    · subst none
      simp [pieces, starts, flag, zero]
    · simp [pieces, starts, flag, zero, none]

/-- The first areas stay used, and the hint covers the pieces. -/
theorem pieces_ok {head size tail : Nat}
    (scanned : Scanned unitSize chunk pre (⟨n, false⟩ :: post) maxContig seenFree)
    (sum : head + size + tail = n) (some : 0 < size) (evenHead : 2 ∣ head) (evenSize : 2 ∣ size)
    (map : chunk'.map = starts 0 (pre ++ (pieces head size tail ++ post)) ++ [(unitSize : Int) + 1])
    (free : chunk'.freeSize = chunk.freeSize - size)
    (hint : maxContig ≤ chunk'.contigHint ∧ (head ≠ 0 → (head : Int) ≤ chunk'.contigHint) ∧
      (tail ≠ 0 → (tail : Int) ≤ chunk'.contigHint) ∧
      (post ≠ [] → chunk.contigHint ≤ chunk'.contigHint))
    (first : chunk'.firstFree = chunk.firstFree ∨ seenFree = false ∧
      (chunk'.firstFree = pre.length ∨ head = 0 ∧ chunk'.firstFree = pre.length + 1)) :
    ChunkOk unitSize chunk' (pre ++ (pieces head size tail ++ post)) where
  map := map
  cut := by
    have here := scanned.ok.cut.sizes (a := ⟨n, false⟩) (by simp)
    simp only at here
    refine scanned.ok.cut.replace (by rw [total_pieces, sum]) (fun b mem => ?_)
      (pieces_apart head size tail)
    rcases mem_pieces mem with ⟨ne, rfl⟩ | rfl | ⟨ne, rfl⟩
    · simp only
      omega
    · exact ⟨some, evenSize⟩
    · simp only
      omega
  free := by
    rw [free, scanned.ok.free]
    simp only [freeTotal_append, freeTotal, freeTotal_pieces, Bool.false_eq_true, if_false]
    omega
  hint {b} mem unused := by
    rcases mem_append.mp mem with there | mem
    · exact Int.le_trans (scanned.contig there unused) hint.1
    rcases mem_append.mp mem with piece | there
    · rcases mem_pieces piece with ⟨ne, rfl⟩ | rfl | ⟨ne, rfl⟩
      · exact hint.2.1 ne
      · cases unused
      · exact hint.2.2.1 ne
    · refine Int.le_trans (scanned.ok.hint (by simp [there]) unused) (hint.2.2.2 ?_)
      exact ne_nil_of_mem there
  first {b} mem := by
    rcases first with same | ⟨none, same | ⟨zero, same⟩⟩
    · rw [same, take_append_of_le_length scanned.first] at mem
      refine scanned.ok.first ?_
      rw [take_append_of_le_length scanned.first]
      exact mem
    · rw [same, take_append_of_le_length (Nat.le_refl _), take_length] at mem
      exact scanned.seen none b mem
    rw [same, take_append, take_of_length_le (Nat.le_succ _), Nat.add_sub_cancel_left,
      mem_append] at mem
    rcases mem with there | piece
    · exact scanned.seen none b there
    simp only [pieces, zero, if_true, nil_append, cons_append, take_succ_cons,
      take_zero, mem_singleton] at piece
    rw [piece]

structure Allocated (unitSize : Nat) (areas : List Area) (size align : Int) (off : Int)
    (chunk' : PcpuChunk) (areas' : List Area) : Prop where
  ok : ChunkOk unitSize chunk' areas'
  kept : UsedKept areas areas'
  nonneg : 0 ≤ off
  aligned : align ∣ off
  here : ∃ m : Nat, size ≤ m ∧ UsedAt areas' off.toNat m
  fresh : ∀ m, ¬ UsedAt areas off.toNat m

theorem UsedAt.bound {l : List Area} {off m : Nat} (used : UsedAt l off m) :
    off + m ≤ total l ∧ ∃ a ∈ l, a.size = m := by
  induction l generalizing off with
  | nil => exact used.elim
  | cons a l ih =>
    rw [total]
    rcases used with ⟨rfl, _, rfl⟩ | ⟨off', rfl, later⟩
    · exact ⟨by omega, a, mem_cons_self, rfl⟩
    · obtain ⟨le, b, mem, eq⟩ := ih later
      exact ⟨by omega, b, mem_cons_of_mem a mem, eq⟩

theorem AreasOk.not_usedAt (areas : AreasOk unitSize (pre ++ ⟨n, false⟩ :: post)) {off m : Nat}
    (low : total pre ≤ off) (high : off < total pre + n) :
    ¬ UsedAt (pre ++ ⟨n, false⟩ :: post) off m := by
  intro used
  rw [usedAt_append] at used
  rcases used with left | ⟨off', rfl, right⟩
  · obtain ⟨le, b, mem, rfl⟩ := left.bound
    have := (areas.sizes (mem_append_left _ mem)).1
    omega
  rcases right with ⟨_, impossible, _⟩ | ⟨off'', rfl, _⟩
  · cases impossible
  · simp only at high
    omega

/-- The tail is kept only if it is large enough; else it belongs to the used area. -/
theorem split_rest {thisSize head size : Int} {h s : Nat} (this : thisSize = n) (isHead : head = h)
    (isSize : size = s) (room : head + size ≤ thisSize) (evenN : 2 ∣ n) (evenHead : 2 ∣ head)
    (evenSize : 2 ∣ size) : ∃ used tail : Nat, h + used + tail = n ∧ s ≤ used ∧ 2 ∣ used ∧
      (if 0 ≤ thisSize - head - size ∧ thisSize - head - size < sizeofInt then 0
        else thisSize - head - size) = (tail : Int) ∧
      (if 0 ≤ thisSize - head - size ∧ thisSize - head - size < sizeofInt then
        thisSize - head else size) = (used : Int) := by
  split_ifs
  · exact ⟨n - h, 0, by omega, by omega, by omega, rfl, by omega⟩
  · exact ⟨s, n - h - s, by omega, by omega, by omega, by omega, by omega⟩

/-- The new hint covers the two free pieces, and the old one unless the scan is over. -/
theorem split_hint (h tail : Nat) (maxContig contigHint : Int) (last : Prop) [Decidable last]
    (ends : last → post = []) {m hint : Int} (isMax : (if tail ≠ 0 then max (tail : Int)
        (if h ≠ 0 then max (h : Int) maxContig else maxContig)
      else if h ≠ 0 then max (h : Int) maxContig else maxContig) = m)
    (isHint : (if last then m else max contigHint m) = hint) :
    maxContig ≤ hint ∧ (h ≠ 0 → (h : Int) ≤ hint) ∧ (tail ≠ 0 → (tail : Int) ≤ hint) ∧
      (post ≠ [] → contigHint ≤ hint) := by
  have contig : maxContig ≤ m ∧ (h ≠ 0 → (h : Int) ≤ m) ∧ (tail ≠ 0 → (tail : Int) ≤ m) := by
    split at isMax <;> split at isMax <;> omega
  have le : m ≤ hint ∧ (post ≠ [] → contigHint ≤ hint) := by
    split at isHint
    case isTrue last => exact ⟨by omega, fun some => absurd (ends last) some⟩
    case isFalse => exact ⟨by omega, fun _ => by omega⟩
  exact ⟨by omega, fun ne => by have := contig.2.1 ne; omega,
    fun ne => by have := contig.2.2 ne; omega, le.2⟩

/-- `first_free` moves only if no free area was seen before. -/
theorem split_first (h len firstFree : Nat) {index first : Nat}
    (isIndex : (if h ≠ 0 then len + 1 else len) = index)
    (isFirst : (if (!(seenFree || decide (h ≠ 0))) = true then index + 1
      else if h ≠ 0 ∧ (!seenFree) = true then len else firstFree) = first) :
    first = firstFree ∨ seenFree = false ∧ (first = len ∨ h = 0 ∧ first = len + 1) := by
  by_cases zero : h = 0
  · cases seenFree
    · exact .inr ⟨rfl, .inr ⟨zero, by rw [← isFirst, ← isIndex]; simp [zero]⟩⟩
    · exact .inl (by rw [← isFirst]; simp)
  · cases seenFree
    · exact .inr ⟨rfl, .inl (by rw [← isFirst]; simp [zero])⟩
    · exact .inl (by rw [← isFirst]; simp)

theorem splitArea_spec (fit : FitAt unitSize pre post n size align seenFree a) (pos : 0 < size)
    (evenSize : 2 ∣ size) (evenAlign : 2 ∣ align) (spare : mapUsed a.chunk + 3 ≤ a.chunk.mapAlloc) :
    ∃ occ chunk' areas', splitArea pre.length a size seenFree =
        some (a.off + a.head, occ, chunk') ∧ chunk'.mapAlloc = a.chunk.mapAlloc ∧
      Allocated unitSize (pre ++ ⟨n, false⟩ :: post) size align (a.off + a.head) chunk' areas' := by
  obtain ⟨scanned, off, thisSize, nonneg, room, aligned⟩ := fit
  have evenHead := FitAt.even ⟨scanned, off, thisSize, nonneg, room, aligned⟩ evenAlign
  have evenN := scanned.ok.cut.even.2.1
  simp only at evenN
  obtain ⟨h, hh⟩ := Int.eq_ofNat_of_zero_le nonneg
  obtain ⟨s, hs⟩ := Int.eq_ofNat_of_zero_le (Int.le_of_lt pos)
  obtain ⟨used, tail, sum, le, evenUsed, restEq, usedEq⟩ :=
    split_rest thisSize hh hs room evenN evenHead evenSize
  have usedMap := mapUsed_eq scanned.ok.map
  have prior : a.chunk.map.take (pre.length + 1) = starts 0 pre ++ [(total pre : Int)] := by
    rw [scanned.ok.map, starts_append, starts, append_assoc]
    rw [take_append, take_of_length_le (by simp)]
    simp [flag]
  have later : a.chunk.map.drop (pre.length + 1) =
      starts (total pre + (h + used + tail)) post ++ [(unitSize : Int) + 1] := by
    rw [scanned.ok.map, starts_append, starts, append_assoc, drop_append, sum]
    simp
  have entries := map_pieces pre post unitSize h used tail
  have headNe : (a.head ≠ 0) = (h ≠ 0) := propext (by omega)
  have tailNe : ((tail : Int) ≠ 0) = (tail ≠ 0) := propext (by omega)
  generalize extraEq : (if h ≠ 0 then [(total pre : Int) + h] else []) ++
    (if tail ≠ 0 then [(total pre : Int) + h + used] else []) = extra at entries
  have few : extra.length ≤ 2 := by
    rw [← extraEq]
    split <;> split <;> simp
  have count : (starts 0 pre ++ [(total pre : Int)] ++ extra ++ (starts (total pre +
      (h + used + tail)) post ++ [(unitSize : Int) + 1])).length - 1 =
      pre.length + (pieces h used tail).length + post.length := by
    have lengths := congrArg List.length entries
    rw [length_set] at lengths
    rw [lengths]
    simp only [length_append, length_starts, length_singleton]
    omega
  simp only [splitArea]
  simp only [restEq, usedEq]
  simp only [headNe, tailNe]
  simp only [off, hh, extraEq]
  rw [if_neg (by omega), prior, later, entries, count]
  have parts := length_pieces h used tail
  generalize indexEq : (if h ≠ 0 then pre.length + 1 else pre.length) = index
  -- Nothing is behind the used part only if no area is left out of the scan.
  have ends : index + 1 = pre.length + (pieces h used tail).length + post.length → post = [] := by
    intro last
    rw [parts, ← indexEq] at last
    apply eq_nil_of_length_eq_zero
    split_ifs at last <;> omega
  have inside : index < pre.length + (pieces h used tail).length + post.length := by
    rw [parts, ← indexEq]
    split_ifs <;> omega
  generalize maxEq : (if tail ≠ 0 then max (tail : Int) (if h ≠ 0 then max (h : Int) a.maxContig
    else a.maxContig) else if h ≠ 0 then max (h : Int) a.maxContig else a.maxContig) = maxContig
  generalize hintEq : (if index + 1 = pre.length + (pieces h used tail).length + post.length then
    maxContig else max a.chunk.contigHint maxContig) = hint
  have hinted := split_hint h tail a.maxContig a.chunk.contigHint _ ends maxEq hintEq
  generalize firstEq : (if (!(seenFree || decide (h ≠ 0))) = true then index + 1
    else if h ≠ 0 ∧ (!seenFree) = true then pre.length else a.chunk.firstFree) = first
  have firsts := split_first h pre.length a.chunk.firstFree indexEq firstEq
  generalize chunkEq : PcpuChunk.mk (a.chunk.freeSize - used) hint a.chunk.mapAlloc
    (starts 0 (pre ++ (pieces h used tail ++ post)) ++ [(unitSize : Int) + 1]) first
    a.chunk.populated = chunk'
  have ok : ChunkOk unitSize chunk' (pre ++ (pieces h used tail ++ post)) :=
    pieces_ok scanned sum (by omega) (by omega) evenUsed (by rw [← chunkEq]) (by rw [← chunkEq])
      (by rw [← chunkEq]; exact hinted) (by rw [← chunkEq]; exact firsts)
  have below : index < mapUsed chunk' := by
    rw [mapUsed_eq ok.map, length_append, length_append]
    omega
  obtain ⟨occ, counted⟩ := pcpuCountOccupiedPages_isSome below
  refine ⟨occ, chunk', _, by rw [counted]; rfl, by rw [← chunkEq], ok,
    usedKept_replace pre (pieces h used tail) post n (by rw [total_pieces, sum]), by omega, ?_,
    ⟨used, by omega, ?_⟩, fun m => ?_⟩
  · rw [off, hh] at aligned
    exact aligned
  · rw [usedAt_append]
    refine .inr ⟨h, rfl, ?_⟩
    rw [usedAt_append]
    exact .inl (usedAt_pieces h used tail)
  · exact scanned.ok.cut.not_usedAt (by omega) (by omega)

theorem Scanned.pass {x : Area} {maxContig' : Int} {seenFree' : Bool}
    (scanned : Scanned unitSize chunk pre (x :: post) maxContig seenFree)
    (map : chunk'.map = chunk.map) (free : chunk'.freeSize = chunk.freeSize)
    (hint : chunk'.contigHint = chunk.contigHint)
    (first : chunk'.firstFree = chunk.firstFree ∨ seenFree = false ∧ chunk'.firstFree = pre.length)
    (more : maxContig ≤ maxContig') (size : x.used = false → (x.size : Int) ≤ maxContig')
    (seen : seenFree' = false → seenFree = false ∧ x.used = true) :
    Scanned unitSize chunk' (pre ++ [x]) post maxContig' seenFree' where
  ok := by
    rw [append_assoc]
    refine ⟨map.trans scanned.ok.map, scanned.ok.cut, free.trans scanned.ok.free,
      fun mem unused => ?_, fun {b} mem => ?_⟩
    · rw [hint]
      exact scanned.ok.hint mem unused
    rcases first with same | ⟨none, same⟩
    · rw [same] at mem
      exact scanned.ok.first mem
    · rw [same, take_append_of_le_length (Nat.le_refl _), take_length] at mem
      exact scanned.seen none b mem
  contig {b} mem unused := by
    rcases mem_append.mp mem with there | there
    · exact Int.le_trans (scanned.contig there unused) more
    · rw [mem_singleton.mp there] at unused ⊢
      exact size unused
  seen none b mem := by
    obtain ⟨before, used⟩ := seen none
    rcases mem_append.mp mem with there | there
    · exact scanned.seen before b there
    · rw [mem_singleton.mp there]
      exact used
  first := by
    have le := scanned.first
    rw [length_append]
    rcases first with same | ⟨_, same⟩ <;> omega

/-- What an allocation returns: an area, or -1 and the same areas. -/
def AllocOutcome (unitSize : Nat) (areas : List Area) (size align : Int) (chunk : PcpuChunk)
    (result : Option (Int × Int × PcpuChunk)) : Prop :=
  ∃ off occ chunk', result = some (off, occ, chunk') ∧ chunk'.mapAlloc = chunk.mapAlloc ∧
    (off = -1 ∧ ChunkOk unitSize chunk' areas ∨
      ∃ areas', Allocated unitSize areas size align off chunk' areas')

section
variable (pos : 0 < size) (evenSize : 2 ∣ size) (alignPos : 0 < align) (evenAlign : 2 ∣ align)
  (pages : 4096 ∣ unitSize) (small : unitSize + align + size ≤ 2 ^ 31) (popOnly : Bool)
include pos evenSize alignPos evenAlign pages small popOnly

theorem allocLoop_spec (scanned : Scanned unitSize chunk pre post maxContig seenFree)
    (spare : mapUsed chunk + 3 ≤ chunk.mapAlloc)
    (start : ∀ n rest head, pre = [] → post = ⟨n, false⟩ :: rest →
      pcpuFitInArea chunk 0 n size align popOnly = some head → head ≤ 0) :
    AllocOutcome unitSize (pre ++ post) size align chunk
      (allocLoop size align popOnly post.length chunk pre.length maxContig seenFree) := by
  induction post generalizing pre chunk maxContig seenFree with
  | nil =>
    refine ⟨-1, 0, _, rfl, rfl, .inl ⟨rfl, scanned.ok.map, scanned.ok.cut, scanned.ok.free,
      fun mem unused => ?_, scanned.ok.first⟩⟩
    rw [append_nil] at mem
    exact scanned.contig mem unused
  | cons x post ih =>
    obtain ⟨n, used⟩ := x
    have length : (pre ++ [(⟨n, used⟩ : Area)]).length = pre.length + 1 := by simp
    obtain ⟨evenPre, evenX, _, bound⟩ := scanned.ok.cut.even
    simp only at evenX bound
    have read := entry_here scanned.ok.map scanned.ok.cut.sum
    rw [length_cons, allocLoop, read]
    simp only [Option.bind_eq_bind, Option.bind_some, inUse_eq evenPre]
    cases used with
    | true =>
      rw [append_cons, ← length]
      exact ih (scanned.pass rfl rfl rfl (.inl rfl) (Int.le_refl _) (by simp) fun none => ⟨none, rfl⟩)
        spare fun _ _ _ none => absurd none (by simp)
    | false =>
      have behind := entry_next scanned.ok.map scanned.ok.cut.sum
      have evenSum : 2 ∣ total pre + n := by omega
      have place : (total pre : Int) + flag false = total pre := by simp [flag]
      have extent : offsetOf ((total pre : Int) + n + flag (nextUsed post)) - total pre = n := by
        have := offsetOf_eq evenSum (nextUsed post)
        rw [Nat.cast_add] at this
        omega
      simp only [behind, Option.bind_some, place, extent]
      have fitting : ∃ head, pcpuFitInArea chunk (total pre) n size align popOnly = some head ∧
          (head < 0 ∨ HeadFits (total pre) n size align head) :=
        pcpuFitInArea_spec (by omega) (by omega) pos alignPos (by
          have := pfnUp_le (x := total pre + n) (u := unitSize) (by omega) (by omega) (by omega)
          omega)
      obtain ⟨head, fitted, outcome⟩ := fitting
      simp only [fitted, Option.bind_some]
      by_cases negative : head < 0
      · rw [if_pos negative]
        have passed : (n : Int) ≤ max (n : Int) maxContig := Int.le_max_left _ _
        have more : maxContig ≤ max (n : Int) maxContig := Int.le_max_right _ _
        rw [append_cons, ← length]
        cases seenFree with
        | false =>
          exact ih (scanned.pass rfl rfl rfl (.inr ⟨rfl, rfl⟩) more (fun _ => passed) (by simp)) spare
            fun _ _ _ none => absurd none (by simp)
        | true =>
          exact ih (scanned.pass rfl rfl rfl (.inl rfl) more (fun _ => passed) (by simp)) spare
            fun _ _ _ none => absurd none (by simp)
      · rw [if_neg negative]
        have fits := outcome.resolve_left negative
        have fit : FitAt unitSize pre post n size align seenFree
            ⟨chunk, total pre, n, head, maxContig⟩ := ⟨scanned, rfl, rfl, fits⟩
        obtain ⟨a', pre', n', merged, fit', len, alloc, kept⟩ :=
          mergeHead_spec fit pos evenAlign fun none => by
            subst none
            have le := start n post head rfl rfl fitted
            simp only
            omega
        have alloc : a'.chunk.mapAlloc = chunk.mapAlloc := alloc
        have slots : mapUsed a'.chunk = mapUsed chunk := by
          rw [mapUsed_eq fit'.scanned.ok.map, mapUsed_eq scanned.ok.map]
          simp [len]
        obtain ⟨occ, chunk', areas', split, same, made⟩ :=
          splitArea_spec fit' pos evenSize evenAlign (by omega)
        rw [len] at split
        simp only [merged]
        refine ⟨_, occ, chunk', split, same.trans alloc, .inr ⟨areas', { made with
          kept := kept.trans made.kept, fresh := fun m used => ?_ }⟩⟩
        obtain ⟨m', _, there⟩ := kept _ m used
        exact made.fresh m' there

theorem pcpuAllocArea_spec {areas : List Area} (ok : ChunkOk unitSize chunk areas)
    (spare : mapUsed chunk + 3 ≤ chunk.mapAlloc)
    (start : ∀ n rest head, areas = ⟨n, false⟩ :: rest →
      pcpuFitInArea chunk 0 n size align popOnly = some head → head ≤ 0) :
    AllocOutcome unitSize areas size align chunk (pcpuAllocArea chunk size align popOnly) := by
  have split : areas.take chunk.firstFree ++ areas.drop chunk.firstFree = areas :=
    take_append_drop _ _
  have count : mapUsed chunk - chunk.firstFree = (areas.drop chunk.firstFree).length := by
    rw [mapUsed_eq ok.map, length_drop]
  by_cases inside : chunk.firstFree ≤ areas.length
  · have here : (areas.take chunk.firstFree).length = chunk.firstFree := by
      rw [length_take]
      omega
    have scanned : Scanned unitSize chunk (areas.take chunk.firstFree)
        (areas.drop chunk.firstFree) 0 false := by
      refine ⟨by rw [split]; exact ok, fun mem unused => ?_, fun _ b mem => ok.first mem,
        Nat.le_of_eq here.symm⟩
      rw [ok.first mem] at unused
      cases unused
    have outcome := allocLoop_spec pos evenSize alignPos evenAlign pages small popOnly scanned spare
      fun n rest head none some fitted => by
        refine start n rest head ?_ fitted
        rw [← split, none, some]
        rfl
    rw [split, here, ← count] at outcome
    exact outcome
  · -- All areas are used.
    have none : mapUsed chunk - chunk.firstFree = 0 := by
      rw [mapUsed_eq ok.map]
      omega
    rw [pcpuAllocArea, none]
    refine ⟨-1, 0, _, rfl, rfl, .inl ⟨rfl, ok.map, ok.cut, ok.free, fun {b} mem unused => ?_,
      ok.first⟩⟩
    have used : b.used = true := ok.first (by rw [take_of_length_le (by omega)]; exact mem)
    rw [used] at unused
    cases unused

end

end

end Linux318.Source.Percpu
