import Linux318.Source.Fs.ExtentStatus
import Mathlib.Data.Nat.Bitwise

/-!
The sequence of extents behind the tree: what a block is mapped to, how a node is overwritten and
erased, and what the searches find.
-/
namespace Linux318.Source.Fs
open Lib List
open SearchTree (toList)

variable {lblk : Nat} {entries : List ExtentStatus} {t : SearchTree ExtentStatus}
  {es : ExtentStatus} {value : Nat × Option Nat}

theorem and_esPblockMask (word : Nat) : word &&& esPblockMask = word % 2 ^ 60 :=
  Nat.and_two_pow_sub_one_eq_mod word 60

theorem and_esMask {word : Nat} (bound : word < 2 ^ 64) : word &&& esMask = (word / 2 ^ 60) <<< 60 := by
  apply Nat.eq_of_testBit_eq
  intro i
  have mask : esMask = 0xf <<< 60 := rfl
  rw [mask, Nat.testBit_and, Nat.testBit_shiftLeft, Nat.testBit_shiftLeft, ← Nat.shiftRight_eq_div_pow,
    Nat.testBit_shiftRight]
  by_cases low : 60 ≤ i
  · have split : 60 + (i - 60) = i := by omega
    have ones : Nat.testBit 15 (i - 60) = decide (i - 60 < 4) := Nat.testBit_two_pow_sub_one 4 _
    rw [split, ones]
    by_cases inside : i - 60 < 4
    · simp [low, inside]
    have high : word.testBit i = false :=
      Nat.testBit_lt_two_pow (Nat.lt_of_lt_of_le bound (Nat.pow_le_pow_right (by omega) (by omega)))
    simp [high]
  · simp [low]

theorem pblockStatus_eq (pb status : Nat) :
    pblockStatus pb status = status % 2 ^ 4 * 2 ^ 60 + pb % 2 ^ 60 := by
  have low : status &&& 0xf = status % 2 ^ 4 := Nat.and_two_pow_sub_one_eq_mod status 4
  rw [pblockStatus, and_esPblockMask, low,
    ← Nat.shiftLeft_add_eq_or_of_lt (Nat.mod_lt _ (by decide)), Nat.shiftLeft_eq]

theorem ext4EsStatus_eq (es : ExtentStatus) : ext4EsStatus es = es.esPblk / 2 ^ 60 :=
  Nat.shiftRight_eq_div_pow _ _

theorem ext4EsPblock_eq (es : ExtentStatus) : ext4EsPblock es = es.esPblk % 2 ^ 60 :=
  and_esPblockMask _

theorem ext4EsStorePblock_word (bound : es.esPblk < 2 ^ 64) (pb : Nat) :
    (ext4EsStorePblock es pb).esPblk = ext4EsStatus es * 2 ^ 60 + pb % 2 ^ 60 := by
  rw [ext4EsStorePblock, and_esPblockMask, and_esMask bound, Nat.or_comm,
    ← Nat.shiftLeft_add_eq_or_of_lt (Nat.mod_lt _ (by decide)), Nat.shiftLeft_eq, ext4EsStatus_eq]

theorem ext4EsIsUnwritten_eq (es : ExtentStatus) :
    ext4EsIsUnwritten es = (ext4EsStatus es).testBit 2 := by
  simp [ext4EsIsUnwritten, ext4EsStatus]

theorem ext4EsIsDelayed_eq (es : ExtentStatus) : ext4EsIsDelayed es = (ext4EsStatus es).testBit 1 := by
  simp [ext4EsIsDelayed, ext4EsStatus]

theorem ext4EsIsHole_eq (es : ExtentStatus) : ext4EsIsHole es = (ext4EsStatus es).testBit 0 := by
  simp [ext4EsIsHole, ext4EsStatus]

/-- The statuses whose extents keep track of a physical block. Extents of the other statuses are
merged whatever their physical blocks are. -/
def hasPblock (status : Nat) : Bool :=
  (status.testBit 3 || status.testBit 2) && !status.testBit 0 &&
    (!status.testBit 1 || status.testBit 2)

/-- The status and the physical block of a block in an extent. -/
def esValue (es : ExtentStatus) (lblk : Nat) : Nat × Option Nat :=
  (ext4EsStatus es,
    if hasPblock (ext4EsStatus es) then some ((ext4EsPblock es + (lblk - es.esLblk)) % 2 ^ 60)
    else none)

def Covers (es : ExtentStatus) (lblk : Nat) : Prop :=
  es.esLblk ≤ lblk ∧ lblk < es.esLblk + es.esLen

/-- A block is in one of the extents, with this value. -/
def Exposes (entries : List ExtentStatus) (lblk : Nat) (value : Nat × Option Nat) : Prop :=
  ∃ es ∈ entries, Covers es lblk ∧ esValue es lblk = value

theorem exposes_append {pre post : List ExtentStatus} :
    Exposes (pre ++ post) lblk value ↔ Exposes pre lblk value ∨ Exposes post lblk value := by
  simp [Exposes, or_and_right, exists_or]

theorem exposes_cons {rest : List ExtentStatus} : Exposes (es :: rest) lblk value ↔
      (Covers es lblk ∧ esValue es lblk = value) ∨ Exposes rest lblk value := by
  simp [Exposes]

theorem mapped_of_hasPblock (has : hasPblock (ext4EsStatus es) = true) :
    (ext4EsIsWritten es || ext4EsIsUnwritten es) = true := by
  simp only [hasPblock, Bool.and_eq_true] at has
  exact has.1.1

/-- Two extents give a block the same value if they have the same status and, where it matters,
agree on the physical block. -/
theorem esValue_congr {es' : ExtentStatus} (status : ext4EsStatus es = ext4EsStatus es')
    (block : hasPblock (ext4EsStatus es') = true →
      (ext4EsPblock es + (lblk - es.esLblk)) % 2 ^ 60 =
        (ext4EsPblock es' + (lblk - es'.esLblk)) % 2 ^ 60) :
    esValue es lblk = esValue es' lblk := by
  rw [esValue, esValue, status]
  by_cases has : hasPblock (ext4EsStatus es') = true
  · rw [block has]
  · simp [has]

def Before (a b : ExtentStatus) : Prop := a.esLblk + a.esLen ≤ b.esLblk ∧ a.addr ≠ b.addr

structure FineExtent (es : ExtentStatus) : Prop where
  nonempty : 0 < es.esLen
  noWrap : es.esLblk + es.esLen ≤ extMaxBlocks
  word : es.esPblk < 2 ^ 64

structure EsList (entries : List ExtentStatus) (nextAddr : Nat) : Prop where
  before : entries.Pairwise Before
  fine : ∀ es ∈ entries, FineExtent es
  addrs : ∀ es ∈ entries, es.addr < nextAddr

theorem FineExtent.lt_two_pow (fine : FineExtent es) : es.esLblk + es.esLen < 2 ^ 32 := by
  have bound := fine.noWrap
  simp only [extMaxBlocks] at bound
  omega

theorem FineExtent.end_eq (fine : FineExtent es) :
    ext4EsEnd es = some (es.esLblk + es.esLen - 1) := by
  have bound := fine.lt_two_pow
  have pos := fine.nonempty
  have wrapped : (es.esLblk + es.esLen + 0xffffffff) % 2 ^ 32 = es.esLblk + es.esLen - 1 := by omega
  rw [ext4EsEnd, if_neg (by omega), wrapped]

def Distinct (entries : List ExtentStatus) : Prop := (entries.map (·.addr)).Nodup

theorem Distinct.others {pre post : List ExtentStatus} (nodup : Distinct (pre ++ es :: post)) :
    (∀ a ∈ pre, a.addr ≠ es.addr) ∧ ∀ b ∈ post, b.addr ≠ es.addr := by
  simp only [Distinct, map_append, map_cons, nodup_append, nodup_cons] at nodup
  obtain ⟨_, ⟨behind, _⟩, across⟩ := nodup
  refine ⟨fun a mem => across _ (mem_map_of_mem mem) _ mem_cons_self, ?_⟩
  intro b mem same
  exact behind (same ▸ mem_map_of_mem mem)

namespace EsList

theorem distinct {n : Nat} (ok : EsList entries n) : Distinct entries :=
  pairwise_map.mpr (ok.before.imp fun h => h.2)

variable {pre mid mid' post : List ExtentStatus} {es es' : ExtentStatus} {n : Nat}

/-- A part of the sequence is replaced by extents that fit in its place. -/
theorem replace (ok : EsList (pre ++ mid ++ post) n) {n' : Nat} (le : n ≤ n') (ok' : EsList mid' n')
    (front : ∀ a ∈ pre, ∀ m ∈ mid', Before a m) (back : ∀ m ∈ mid', ∀ b ∈ post, Before m b) :
    EsList (pre ++ mid' ++ post) n' := by
  obtain ⟨before, fine, addrs⟩ := ok
  rw [append_assoc] at before
  obtain ⟨sortedPre, sortedRest, across⟩ := pairwise_append.mp before
  have sortedPost := (pairwise_append.mp sortedRest).2.1
  refine ⟨?_, ?_, ?_⟩
  · rw [append_assoc]
    refine pairwise_append.mpr ⟨sortedPre, pairwise_append.mpr ⟨ok'.before, sortedPost, back⟩, ?_⟩
    intro a inPre b mem
    rcases mem_append.mp mem with inMid | inPost
    · exact front a inPre b inMid
    · exact across a inPre b (mem_append_right _ inPost)
  · intro e mem
    simp only [mem_append] at mem
    rcases mem with (inPre | inMid) | inPost
    · exact fine e (by simp [inPre])
    · exact ok'.fine e inMid
    · exact fine e (by simp [inPost])
  · intro e mem
    simp only [mem_append] at mem
    rcases mem with (inPre | inMid) | inPost
    · exact Nat.lt_of_lt_of_le (addrs e (by simp [inPre])) le
    · exact ok'.addrs e inMid
    · exact Nat.lt_of_lt_of_le (addrs e (by simp [inPost])) le

theorem nil (n : Nat) : EsList [] n := ⟨.nil, by simp, by simp⟩

theorem single (fine : FineExtent es) (addr : es.addr < n) : EsList [es] n :=
  ⟨pairwise_singleton _ _, by simpa using fine, by simpa using addr⟩

theorem sublist {entries' : List ExtentStatus} (ok : EsList entries n)
    (sub : entries'.Sublist entries) : EsList entries' n :=
  ⟨ok.before.sublist sub, fun e mem => ok.fine e (sub.subset mem),
    fun e mem => ok.addrs e (sub.subset mem)⟩

section
variable (ok : EsList (pre ++ es :: post) n)
include ok

/-- An extent that lies in the place of another one, at the same address. -/
theorem resize (fine : FineExtent es') (addr : es'.addr = es.addr)
    (lo : ∀ a ∈ pre, a.esLblk + a.esLen ≤ es'.esLblk)
    (hi : ∀ b ∈ post, es'.esLblk + es'.esLen ≤ b.esLblk) : EsList (pre ++ es' :: post) n := by
  have nodup := ok.distinct.others
  have bound := ok.addrs es (by simp)
  have ok' : EsList (pre ++ [es] ++ post) n := by simpa using ok
  have res := ok'.replace (Nat.le_refl n) (single fine (addr ▸ bound)) (by
    intro a inPre m mem
    obtain rfl := mem_singleton.mp mem
    exact ⟨lo a inPre, addr ▸ nodup.1 a inPre⟩) (by
    intro m mem b inPost
    obtain rfl := mem_singleton.mp mem
    exact ⟨hi b inPost, addr ▸ (nodup.2 b inPost).symm⟩)
  simpa using res

theorem lo : ∀ a ∈ pre, a.esLblk + a.esLen ≤ es.esLblk :=
  fun a mem => ((pairwise_append.mp ok.before).2.2 a mem es mem_cons_self).1

theorem hi : ∀ b ∈ post, es.esLblk + es.esLen ≤ b.esLblk :=
  fun _ mem => (rel_of_pairwise_cons (pairwise_append.mp ok.before).2.1 mem).1

theorem fine_mid : FineExtent es := ok.fine es (by simp)

end

theorem exposes_unique (ok : EsList entries n) (mem : es ∈ entries) (member' : es' ∈ entries)
    (covers : Covers es lblk) (covers' : Covers es' lblk) : es = es' := by
  by_contra ne
  rcases List.Pairwise.forall_of_forall_of_flip
    (R := fun a b => a = b ∨ a.esLblk + a.esLen ≤ b.esLblk ∨ b.esLblk + b.esLen ≤ a.esLblk)
    (fun _ _ => .inl rfl) (ok.before.imp fun h => .inr (.inl h.1))
    (ok.before.imp fun h => .inr (.inr h.1)) mem member' with same | disjoint
  · exact ne same
  · obtain ⟨lo, hi⟩ := covers
    obtain ⟨lo', hi'⟩ := covers'
    omega

end EsList

theorem rbNext_append {pre post : List ExtentStatus} (nodup : Distinct (pre ++ es :: post)) :
    rbNext (pre ++ es :: post) es.addr = post.head? := by
  induction pre with
  | nil => cases post <;> simp [rbNext]
  | cons a pre ih =>
    have ne : a.addr ≠ es.addr := nodup.others.1 a mem_cons_self
    have rest := ih (nodup_cons.mp nodup).2
    cases pre <;> simpa [rbNext, ne] using rest

theorem rbPrev_append {pre post : List ExtentStatus} (nodup : Distinct (pre ++ es :: post)) :
    rbPrev (pre ++ es :: post) es.addr = pre.getLast? := by
  induction pre with
  | nil =>
    have behind := nodup.others.2
    clear nodup
    suffices none : ∀ head, rbPrev (head :: post) es.addr = none from none es
    induction post with
    | nil => intro head; rfl
    | cons b post ih =>
      intro head
      have ne : b.addr ≠ es.addr := behind b mem_cons_self
      rw [rbPrev, if_neg ne]
      exact ih (fun b' mem => behind b' (mem_cons_of_mem b mem)) b
  | cons a pre ih =>
    have rest := ih (nodup_cons.mp nodup).2
    cases pre with
    | nil => simp [rbPrev]
    | cons a' pre =>
      have ne : a'.addr ≠ es.addr := nodup.others.1 a' (by simp)
      simpa [rbPrev, ne] using rest

def tracked (entries : List ExtentStatus) (cacheEs : Option Nat) (nextAddr : Nat) : EsInode :=
  { entries := entries, cacheEs := cacheEs, iEsAllNr := entries.length
    iEsLruNr := entries.countP fun es => !ext4EsIsDelayed es, nextAddr := nextAddr }

section Tracked

variable {pre post : List ExtentStatus} {es es' : ExtentStatus} {cache : Option Nat} {n : Nat}

theorem setNode_tracked (nodup : Distinct (pre ++ es :: post)) (addr : es'.addr = es.addr)
    (delayed : ext4EsIsDelayed es' = ext4EsIsDelayed es) :
    (tracked (pre ++ es :: post) cache n).setNode es' = tracked (pre ++ es' :: post) cache n := by
  have keep (l : List ExtentStatus) (others : ∀ e ∈ l, e.addr ≠ es.addr) :
      l.map (fun e => if e.addr = es.addr then es' else e) = l :=
    (map_congr_left fun e mem => if_neg (others e mem)).trans (map_id l)
  simp [EsInode.setNode, tracked, addr, keep _ nodup.others.1, keep _ nodup.others.2,
    countP_cons, delayed]

theorem free_tracked (nodup : Distinct (pre ++ es :: post)) :
    ext4EsFreeExtent ((tracked (pre ++ es :: post) cache n).eraseNode es.addr) es =
      some (tracked (pre ++ post) cache n) := by
  have keep (l : List ExtentStatus) (others : ∀ e ∈ l, e.addr ≠ es.addr) :
      l.filter (fun e => e.addr ≠ es.addr) = l := filter_eq_self.mpr (by simpa using others)
  have kept : (pre ++ es :: post).filter (fun e => e.addr ≠ es.addr) = pre ++ post := by
    rw [filter_append, filter_cons_of_neg (by simp), keep _ nodup.others.1, keep _ nodup.others.2]
  simp only [EsInode.eraseNode, kept, tracked, ext4EsFreeExtent]
  cases delayed : ext4EsIsDelayed es with
  | true =>
    simp [delayed]
    omega
  | false =>
    simp [delayed]
    omega

theorem mergeNodes_tracked {es1 es2 : ExtentStatus} (nodup : Distinct (pre ++ es1 :: es2 :: post)) :
    mergeNodes (tracked (pre ++ es1 :: es2 :: post) cache n) es1 es2 = some (tracked
      (pre ++ { es1 with esLen := (es1.esLen + es2.esLen) % 2 ^ 32 } :: post) cache n) := by
  obtain ⟨merged, hm⟩ : ∃ merged, merged =
    ({ es1 with esLen := (es1.esLen + es2.esLen) % 2 ^ 32 } : ExtentStatus) := ⟨_, rfl⟩
  have addr : merged.addr = es1.addr := by rw [hm]
  have delayed : ext4EsIsDelayed merged = ext4EsIsDelayed es1 := by rw [hm]; rfl
  have distinct' : Distinct ((pre ++ [merged]) ++ es2 :: post) := by
    simpa [Distinct, addr] using nodup
  rw [mergeNodes, ← hm, setNode_tracked nodup addr delayed, append_cons, free_tracked distinct']
  simp

end Tracked

theorem esDir_steered {n : Nat} (ok : EsList entries n) (lblk : Nat) :
    entries.Pairwise (SearchTree.Steered (esDir lblk)) := by
  refine ok.before.imp fun {a b} h => ?_
  have order := h.1
  simp only [SearchTree.Steered, esDir]
  by_cases behind : a.esLblk + a.esLen ≤ lblk
  · rw [if_neg (by omega), if_neg (by omega)]
    exact .inl rfl
  · rw [if_pos (show lblk < b.esLblk by omega)]
    exact .inr rfl

theorem esDir_eq_gt (gt : esDir lblk es = .gt) : es.esLblk + es.esLen ≤ lblk := by
  unfold esDir at gt
  split_ifs at gt
  omega

theorem esDir_eq_lt (lt : esDir lblk es = .lt) : lblk < es.esLblk := by
  unfold esDir at lt
  split_ifs at lt
  assumption

theorem esTreeDescend_eq (lblk : Nat) (fine : ∀ es ∈ t.toList, FineExtent es)
    (last : Option ExtentStatus) :
    esTreeDescend lblk t last = some (t.descend (esDir lblk) last) := by
  induction t generalizing last with
  | nil => rfl
  | node left es right ihl ihr =>
    have self : FineExtent es := fine es (by simp [toList])
    have pos := self.nonempty
    rw [esTreeDescend, SearchTree.descend, esDir, self.end_eq]
    split_ifs
    · exact ihl (fun e mem => fine e (by simp [toList, mem])) _
    · exact if_neg (by omega)
    · exact (if_pos (by omega)).trans (ihr (fun e mem => fine e (by simp [toList, mem])) _)

/-- The search finds the first extent that does not end before the block. -/
theorem esTreeSearch_spec (shape : Shape ExtentStatus) {ei : EsInode}
    (ok : EsList ei.entries ei.nextAddr) (lblk : Nat) :
    (esTreeSearch shape ei lblk = some none ∧ ∀ es ∈ ei.entries, es.esLblk + es.esLen ≤ lblk) ∨
      ∃ pre es post, esTreeSearch shape ei lblk = some (some es) ∧ ei.entries = pre ++ es :: post ∧
        (∀ a ∈ pre, a.esLblk + a.esLen ≤ lblk) ∧ lblk < es.esLblk + es.esLen := by
  have list := shape.inorder ei.entries
  have steered : (shape.tree ei.entries).toList.Pairwise (SearchTree.Steered (esDir lblk)) := by
    rw [list]
    exact esDir_steered ok lblk
  have descended := esTreeDescend_eq lblk (by rw [list]; exact ok.fine) none
  rw [esTreeSearch, descended]
  rcases SearchTree.descend_some steered none with ⟨empty, res⟩ | ⟨es, pre, post, res, split,
    before, after⟩
  · rw [list] at empty
    rw [res]
    exact .inl ⟨rfl, by simp [empty]⟩
  rw [list] at split
  rw [res]
  have self : FineExtent es := ok.fine es (by simp [split])
  have pos := self.nonempty
  simp only [self.end_eq]
  by_cases lt : lblk < es.esLblk
  · refine .inr ⟨pre, es, post, if_pos lt, split, fun a mem => ?_, by omega⟩
    exact esDir_eq_gt (before (by simp [esDir, lt]) a mem)
  rw [if_neg lt]
  by_cases inside : lblk < es.esLblk + es.esLen
  · refine .inr ⟨pre, es, post, if_neg (by omega), split, fun a mem => ?_, inside⟩
    exact esDir_eq_gt (before (by simp [esDir, lt, inside]) a mem)
  -- the search ended left of the block: the next extent is the first one behind it
  have behind := after (by simp [esDir, lt, inside])
  rw [split] at ok
  have front (a : ExtentStatus) (mem : a ∈ pre) : a.esLblk + a.esLen ≤ lblk := by
    have order := ok.lo a mem
    omega
  rw [if_pos (by omega), split, rbNext_append ok.distinct]
  cases post with
  | nil =>
    refine .inl ⟨rfl, ?_⟩
    intro e mem
    simp only [mem_append, mem_singleton] at mem
    rcases mem with inPre | rfl
    · exact front e inPre
    · omega
  | cons next post =>
    have ahead := esDir_eq_lt (behind next mem_cons_self)
    refine .inr ⟨pre ++ [es], next, post, rfl, by simp, ?_, by omega⟩
    intro a mem
    simp only [mem_append, mem_singleton] at mem
    rcases mem with inPre | rfl
    · exact front a inPre
    · omega

theorem lookupDescend_spec (lblk : Nat) {n : Nat} (ok : EsList t.toList n) :
    ∃ r, lookupDescend lblk t = some r ∧ ∀ es, r = some es ↔ es ∈ t.toList ∧ Covers es lblk := by
  induction t with
  | nil => exact ⟨none, rfl, by simp [toList]⟩
  | node left es right ihl ihr =>
    rw [toList] at ok ⊢
    have self := ok.fine_mid
    have pos := self.nonempty
    have left_end := ok.lo
    have right_start := ok.hi
    rw [lookupDescend, self.end_eq]
    simp only [mem_append, mem_cons]
    by_cases lt : lblk < es.esLblk
    · obtain ⟨r, res, found⟩ := ihl (ok.sublist (sublist_append_left _ _))
      refine ⟨r, by rw [if_pos lt, res], fun e => (found e).trans ?_⟩
      constructor
      · exact fun h => ⟨.inl h.1, h.2⟩
      rintro ⟨inLeft | rfl | inRight, covers⟩
      · exact ⟨inLeft, covers⟩
      · exact absurd covers.1 (by omega)
      · have start := right_start e inRight
        exact absurd covers.1 (by omega)
    by_cases inside : lblk < es.esLblk + es.esLen
    · refine ⟨some es, ?_, fun e => ?_⟩
      · simp only [if_neg lt]
        rw [if_neg (by omega)]
      have here : Covers es lblk := ⟨by omega, inside⟩
      constructor
      · intro same
        obtain rfl := Option.some.inj same
        exact ⟨.inr (.inl rfl), here⟩
      · rintro ⟨mem, covers⟩
        rw [ok.exposes_unique (by simp) (by simpa using mem) here covers]
    obtain ⟨r, res, found⟩ :=
      ihr (ok.sublist ((sublist_cons_self _ _).trans (sublist_append_right _ _)))
    refine ⟨r, ?_, fun e => (found e).trans ?_⟩
    · simp only [if_neg lt]
      rw [if_pos (by omega), res]
    constructor
    · exact fun h => ⟨.inr (.inr h.1), h.2⟩
    rintro ⟨inLeft | rfl | inRight, covers⟩
    · have fin := left_end e inLeft
      exact absurd covers.2 (by omega)
    · exact absurd covers.2 inside
    · exact ⟨inRight, covers⟩

def Clear (entries : List ExtentStatus) (lo hi : Nat) : Prop :=
  ∀ es ∈ entries, es.esLblk + es.esLen ≤ lo ∨ hi ≤ es.esLblk

theorem esInsertDescend_spec {newes : ExtentStatus} (pos : 0 < newes.esLen)
    (fine : ∀ es ∈ t.toList, FineExtent es)
    (clear : Clear t.toList newes.esLblk (newes.esLblk + newes.esLen)) :
    esInsertDescend newes t = some .link ∨
      ∃ es ∈ t.toList,
        (esInsertDescend newes t = some (.before es) ∧ ext4EsCanBeMerged newes es = true) ∨
        (esInsertDescend newes t = some (.after es) ∧ ext4EsCanBeMerged es newes = true) := by
  induction t with
  | nil => exact .inl rfl
  | node left es right ihl ihr =>
    have self : FineExtent es := fine es (by simp [toList])
    have selfPos := self.nonempty
    have apart := clear es (by simp [toList])
    rw [esInsertDescend, self.end_eq]
    simp only [toList, mem_append, mem_cons]
    split_ifs with lt can gt can
    · exact .inr ⟨es, by simp, .inl ⟨rfl, can⟩⟩
    · rcases ihl (fun e mem => fine e (by simp [toList, mem]))
        (fun e mem => clear e (by simp [toList, mem])) with link | ⟨e, mem, place⟩
      · exact .inl link
      · exact .inr ⟨e, .inl mem, place⟩
    · exact .inr ⟨es, by simp, .inr ⟨rfl, can⟩⟩
    · rcases ihr (fun e mem => fine e (by simp [toList, mem]))
        (fun e mem => clear e (by simp [toList, mem])) with link | ⟨e, mem, place⟩
      · exact .inl link
      · exact .inr ⟨e, .inr (.inr mem), place⟩
    · omega

end Linux318.Source.Fs
