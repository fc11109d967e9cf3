import Linux318.Source.Fs.ExtentStatusOps

/-!
Removing a range from the extent status tree: an extent is split, cut at one end, or erased.
-/
namespace Linux318.Source.Fs
open Lib List

/-- The range is gone, and the other blocks are mapped as before. -/
def Removes (entries entries' : List ExtentStatus) (lblk fin : Nat) : Prop :=
  ∀ b v, Exposes entries' b v ↔ Exposes entries b v ∧ ¬(lblk ≤ b ∧ b ≤ fin)

variable {part : ExtentStatus} {v : Nat × Option Nat} {ei : EsInode} {b : Nat}

theorem Removes.clear {entries entries' : List ExtentStatus} {lblk fin : Nat}
    (removes : Removes entries entries' lblk fin) (fine : ∀ es ∈ entries', FineExtent es)
    (order : lblk ≤ fin) : Clear entries' lblk (fin + 1) := by
  intro es mem
  by_contra meets
  have pos := (fine es mem).nonempty
  have inside : Covers es (max es.esLblk lblk) := ⟨by omega, by omega⟩
  exact ((removes _ _).mp ⟨es, mem, inside, rfl⟩).2 (by omega)

section Parts

variable {es : ExtentStatus} {lblk fin : Nat}

structure BackPart (part es : ExtentStatus) (fin : Nat) : Prop where
  lblk : part.esLblk = fin + 1
  hi : part.esLblk + part.esLen = es.esLblk + es.esLen
  word : part.esPblk < 2 ^ 64
  status : ext4EsStatus part = ext4EsStatus es
  block : hasPblock (ext4EsStatus es) = true →
    ext4EsPblock part = (ext4EsPblock es + (fin + 1 - es.esLblk)) % 2 ^ 60

theorem BackPart.fine (back : BackPart part es fin) (fine : FineExtent es)
    (hi : fin + 1 < es.esLblk + es.esLen) : FineExtent part := by
  have lblk := back.lblk
  have hi' := back.hi
  have bound := fine.noWrap
  exact ⟨by omega, by omega, back.word⟩

theorem BackPart.exposes (back : BackPart part es fin) (lo : es.esLblk ≤ fin) :
    (Covers part b ∧ esValue part b = v) ↔ (Covers es b ∧ esValue es b = v) ∧ fin < b := by
  have lblk := back.lblk
  have hi := back.hi
  have value (inside : fin < b) : esValue part b = esValue es b := by
    refine esValue_congr back.status fun has => ?_
    rw [back.block has]
    omega
  constructor
  · rintro ⟨⟨low, high⟩, rfl⟩
    exact ⟨⟨⟨by omega, by omega⟩, (value (by omega)).symm⟩, by omega⟩
  · rintro ⟨⟨⟨low, high⟩, rfl⟩, inside⟩
    exact ⟨⟨by omega, by omega⟩, value inside⟩

def frontCut (es : ExtentStatus) (fin len : Nat) : ExtentStatus :=
  let block := (es.esPblk + es.esLen - len) % 2 ^ 64
  let cut := { es with esLblk := (fin + 1) % 2 ^ 32, esLen := len }
  if ext4EsIsWritten es || ext4EsIsUnwritten es then ext4EsStorePblock cut block else cut

theorem frontCut_addr (fin len : Nat) : (frontCut es fin len).addr = es.addr := by
  unfold frontCut
  split_ifs <;> rfl

section
variable (fine : FineExtent es) (lo : es.esLblk ≤ fin) (hi : fin + 1 < es.esLblk + es.esLen)
include fine lo hi

theorem frontCut_part : BackPart (frontCut es fin (es.esLblk + es.esLen - 1 - fin)) es fin := by
  have bound := fine.lt_two_pow
  have word := fine.word
  have wrap : (fin + 1) % 2 ^ 32 = fin + 1 := Nat.mod_eq_of_lt (by omega)
  unfold frontCut
  rw [wrap]
  obtain ⟨cut, hc⟩ : ∃ cut, cut = ({ es with esLblk := fin + 1
                                             esLen := es.esLblk + es.esLen - 1 - fin } :
    ExtentStatus) := ⟨_, rfl⟩
  have cutLblk : cut.esLblk = fin + 1 := by rw [hc]
  have cutHi : cut.esLblk + cut.esLen = es.esLblk + es.esLen := by
    rw [hc]
    show fin + 1 + (es.esLblk + es.esLen - 1 - fin) = _
    omega
  have cutWord : cut.esPblk < 2 ^ 64 := by rw [hc]; exact word
  have cutStatus : ext4EsStatus cut = ext4EsStatus es := by rw [hc]; rfl
  simp only [← hc]
  split_ifs with mapped
  · obtain ⟨stored, pblock, lt⟩ := storePblock_word cutWord _
    refine ⟨cutLblk, cutHi, lt, stored.trans cutStatus, fun _ => ?_⟩
    · rw [pblock, ext4EsPblock_eq]
      omega
  · exact ⟨cutLblk, cutHi, cutWord, cutStatus, fun has => absurd (mapped_of_hasPblock has) mapped⟩

theorem splitTail_part : BackPart (splitTail es fin (es.esLblk + es.esLen - 1 - fin)) es fin := by
  have bound := fine.lt_two_pow
  have word := fine.word
  have small : ext4EsStatus es < 2 ^ 4 := by
    rw [ext4EsStatus_eq]
    omega
  have status : ext4EsStatus es % 2 ^ 4 = ext4EsStatus es := Nat.mod_eq_of_lt small
  have stored (block : Nat) : pblockStatus block (ext4EsStatus es) =
      ext4EsStatus es * 2 ^ 60 + block % 2 ^ 60 := by rw [pblockStatus_eq, status]
  unfold splitTail
  refine ⟨Nat.mod_eq_of_lt (by omega), ?_, ?_, ?_, fun has => ?_⟩
  · show (fin + 1) % 2 ^ 32 + (es.esLblk + es.esLen - 1 - fin) = _
    omega
  · simp only [stored]
    omega
  · refine (ext4EsStatus_eq _).trans ?_
    simp only [stored]
    omega
  · simp only [mapped_of_hasPblock has, if_true, ext4EsPblock_eq, stored]
    omega

end

theorem short_exposes (hi : lblk < es.esLblk + es.esLen) :
    (Covers { es with esLen := lblk - es.esLblk } b ∧
      esValue { es with esLen := lblk - es.esLblk } b = v) ↔
      (Covers es b ∧ esValue es b = v) ∧ b < lblk := by
  simp only [Covers]
  constructor
  · rintro ⟨covers, same⟩
    exact ⟨⟨by omega, same⟩, by omega⟩
  · rintro ⟨⟨covers, same⟩, inside⟩
    exact ⟨by omega, same⟩

end Parts

def trimFront (fin : Nat) : List ExtentStatus → List ExtentStatus
  | [] => []
  | es :: rest =>
    if es.esLblk + es.esLen ≤ fin + 1 then trimFront fin rest
    else if es.esLblk ≤ fin then frontCut es fin (es.esLblk + es.esLen - 1 - fin) :: rest
    else es :: rest

theorem removeLoop_spec (fin : Nat) (cache : Option Nat) {pre : List ExtentStatus} {n : Nat}
    (tail : List ExtentStatus) : ∀ fuel, tail.length < fuel → EsList (pre ++ tail) n →
      removeLoop fin fuel (tracked (pre ++ tail) cache n) tail.head? =
        some (tracked (pre ++ tail.dropWhile fun es => es.esLblk + es.esLen ≤ fin + 1) cache n,
          (tail.dropWhile fun es => es.esLblk + es.esLen ≤ fin + 1).head?) := by
  induction tail with
  | nil =>
    intro fuel enough _
    cases fuel with
    | zero => exact absurd enough (by simp)
    | succ fuel => simp [removeLoop]
  | cons es rest ih =>
    intro fuel enough list
    cases fuel with
    | zero => exact absurd enough (by simp)
    | succ fuel =>
      have fine := list.fine_mid
      have rest_list : EsList (pre ++ rest) n :=
        list.sublist (List.Sublist.append_left (sublist_cons_self _ _) _)
      have next : rbNext (tracked (pre ++ es :: rest) cache n).entries es.addr = rest.head? :=
        rbNext_append list.distinct
      rw [List.head?_cons, removeLoop, fine.end_eq]
      by_cases whole : es.esLblk + es.esLen ≤ fin + 1
      · have whole' : es.esLblk + es.esLen - 1 ≤ fin := by omega
        simp only [if_pos whole', free_tracked list.distinct, next]
        rw [ih fuel (by simpa using enough) rest_list, dropWhile_cons_of_pos (by simpa using whole)]
      · have whole' : ¬es.esLblk + es.esLen - 1 ≤ fin := by omega
        simp only [if_neg whole']
        rw [dropWhile_cons_of_neg (by simpa using whole), List.head?_cons]

theorem removeRest_spec {fin : Nat} (bound : fin < 2 ^ 32) (cache : Option Nat)
    {pre tail : List ExtentStatus} {n : Nat} (list : EsList (pre ++ tail) n) :
    removeRest (tracked (pre ++ tail) cache n) tail.head? fin =
      some (tracked (pre ++ trimFront fin tail) cache n) := by
  have enough : tail.length < (pre ++ tail).length + 1 := by
    rw [length_append]
    omega
  have loop := removeLoop_spec fin cache tail _ enough list
  have fuel : (tracked (pre ++ tail) cache n).entries.length + 1 = (pre ++ tail).length + 1 := rfl
  rw [removeRest, fuel, loop]
  clear loop fuel enough
  induction tail with
  | nil => rfl
  | cons es rest ih =>
    have rest_list : EsList (pre ++ rest) n :=
      list.sublist (List.Sublist.append_left (sublist_cons_self _ _) _)
    rw [trimFront]
    by_cases whole : es.esLblk + es.esLen ≤ fin + 1
    · rw [dropWhile_cons_of_pos (by simpa using whole), if_pos whole]
      exact ih rest_list
    have fine := list.fine_mid
    have hi := fine.lt_two_pow
    rw [dropWhile_cons_of_neg (by simpa using whole), if_neg whole]
    simp only [List.head?_cons, fine.end_eq]
    by_cases meets : es.esLblk ≤ fin
    · have part := frontCut_part fine meets (by omega)
      rw [if_pos (by omega), if_pos meets]
      exact congrArg some (setNode_tracked list.distinct (frontCut_addr _ _)
        (isDelayed_congr part.status))
    · rw [if_neg (by omega), if_neg meets]

theorem trimFront_spec (fin : Nat) {pre tail : List ExtentStatus} {n : Nat}
    (list : EsList (pre ++ tail) n) : EsList (pre ++ trimFront fin tail) n ∧
      ∀ b v, Exposes (trimFront fin tail) b v ↔ Exposes tail b v ∧ fin < b := by
  induction tail with
  | nil => exact ⟨list, by simp [trimFront, Exposes]⟩
  | cons es rest ih =>
    have after := list.hi
    have behind (lo : fin < es.esLblk + es.esLen) (b : Nat) (v : Nat × Option Nat) :
        Exposes rest b v ↔ Exposes rest b v ∧ fin < b := by
      refine ⟨fun exposed => ⟨exposed, ?_⟩, And.left⟩
      obtain ⟨e, mem, covers, _⟩ := exposed
      have start := after e mem
      have low := covers.1
      omega
    have fine := list.fine_mid
    have before := list.lo
    rw [trimFront]
    split_ifs with whole meets
    · obtain ⟨trimmed, exposes⟩ :=
        ih (list.sublist (List.Sublist.append_left (sublist_cons_self _ _) _))
      refine ⟨trimmed, fun b v => (exposes b v).trans ?_⟩
      rw [exposes_cons]
      constructor
      · exact fun h => ⟨.inr h.1, h.2⟩
      rintro ⟨⟨covers, _⟩ | inRest, beyond⟩
      · exact absurd covers.2 (by omega)
      · exact ⟨inRest, beyond⟩
    · have part := frontCut_part fine meets (by omega)
      have hi := part.hi
      have lblk := part.lblk
      refine ⟨list.resize (part.fine fine (by omega)) (frontCut_addr _ _) (fun a mem => ?_)
        (fun b mem => ?_), fun b v => ?_⟩
      · have order := before a mem
        omega
      · rw [hi]
        exact after b mem
      · rw [exposes_cons, exposes_cons, part.exposes meets, or_and_right]
        exact or_congr_right (behind (by omega) b v)
    · refine ⟨list, fun b v => ?_⟩
      rw [exposes_cons, or_and_right]
      refine or_congr ⟨fun h => ⟨h, ?_⟩, And.left⟩ (behind (by omega) b v)
      have low := h.1.1
      omega

theorem removeFirst_spec (shape : Shape ExtentStatus) (list : EsList ei.entries ei.nextAddr)
    (lblk fin : Nat) :
    (removeFirst shape ei lblk fin = some none ∧ Clear ei.entries lblk (fin + 1)) ∨
      ∃ pre es post, removeFirst shape ei lblk fin =
          some (some (es, lblk - es.esLblk, es.esLblk + es.esLen - 1 - fin)) ∧
        ei.entries = pre ++ es :: post ∧ (∀ a ∈ pre, a.esLblk + a.esLen ≤ lblk) ∧
        es.esLblk ≤ fin ∧ lblk < es.esLblk + es.esLen := by
  unfold removeFirst
  rcases esTreeSearch_spec shape list lblk with ⟨found, before⟩ | ⟨pre, es, post, found, split,
    before, hi⟩
  · exact .inl ⟨by rw [found], fun es mem => .inl (before es mem)⟩
  simp only [found]
  by_cases beyond : es.esLblk > fin
  · refine .inl ⟨if_pos beyond, fun e mem => ?_⟩
    rw [split] at list mem
    rcases mem_append.mp mem with inPre | mem
    · exact .inl (before e inPre)
    rcases mem_cons.mp mem with rfl | inPost
    · omega
    · have behind := list.hi e inPost
      omega
  · have fine : FineExtent es := list.fine es (by simp [split])
    refine .inr ⟨pre, es, post, ?_, split, before, by omega, hi⟩
    rw [if_neg beyond, fine.end_eq]
    have len1 : (if lblk > es.esLblk then lblk - es.esLblk else 0) = lblk - es.esLblk := by
      split_ifs <;> omega
    have len2 : (if es.esLblk + es.esLen - 1 > fin then es.esLblk + es.esLen - 1 - fin else 0) =
        es.esLblk + es.esLen - 1 - fin := by split_ifs <;> omega
    simp only [len1, len2]

section Shapes

variable {pre post : List ExtentStatus} {es : ExtentStatus} {lblk fin n : Nat}

/-- The extents outside the range are not touched. -/
theorem exposes_apart {l : List ExtentStatus}
    (apart : ∀ e ∈ l, e.esLblk + e.esLen ≤ lblk ∨ fin < e.esLblk) (b : Nat) (v : Nat × Option Nat) :
    Exposes l b v ↔ Exposes l b v ∧ ¬(lblk ≤ b ∧ b ≤ fin) := by
  refine ⟨fun ⟨e, mem, covers, value⟩ => ⟨⟨e, mem, covers, value⟩, ?_⟩, And.left⟩
  have out := apart e mem
  have ⟨low, high⟩ := covers
  omega

/-- The range begins in the first extent: its front stays. -/
theorem short_list (list : EsList (pre ++ es :: post) n) (front : es.esLblk < lblk)
    (hi : lblk < es.esLblk + es.esLen) :
    EsList (pre ++ { es with esLen := lblk - es.esLblk } :: post) n := by
  have fine := list.fine_mid
  have bound := fine.noWrap
  refine list.resize ⟨?_, ?_, fine.word⟩ rfl list.lo fun b mem => ?_
  · show 0 < lblk - es.esLblk
    omega
  · show es.esLblk + (lblk - es.esLblk) ≤ extMaxBlocks
    omega
  · have after := list.hi b mem
    show es.esLblk + (lblk - es.esLblk) ≤ b.esLblk
    omega

variable (list : EsList (pre ++ es :: post) n) (before : ∀ a ∈ pre, a.esLblk + a.esLen ≤ lblk)
include list before

/-- The range reaches behind the first extent, which loses its end. -/
theorem removes_short (front : es.esLblk < lblk) (hi : lblk < es.esLblk + es.esLen)
    (far : es.esLblk + es.esLen ≤ fin + 1) :
    EsList (pre ++ { es with esLen := lblk - es.esLblk } :: trimFront fin post) n ∧
      Removes (pre ++ es :: post)
        (pre ++ { es with esLen := lblk - es.esLblk } :: trimFront fin post) lblk fin := by
  have short := short_list list front hi
  rw [append_cons] at short
  obtain ⟨trimmed, exposes⟩ := trimFront_spec fin short
  have after := list.hi
  rw [append_cons]
  refine ⟨trimmed, fun b v => ?_⟩
  rw [← append_cons, exposes_append, exposes_cons, exposes_append, exposes_cons, or_and_right,
    or_and_right, short_exposes hi, exposes]
  refine or_congr (exposes_apart (fun e mem => .inl (before e mem)) b v)
    (or_congr (and_congr_right fun h => ?_) ?_)
  · have high := h.1.2
    omega
  refine and_congr_right fun ⟨e, mem, covers, _⟩ => ?_
  have start := after e mem
  have low := covers.1
  omega

theorem removes_whole (fin : Nat) (lo : lblk ≤ es.esLblk) :
    EsList (pre ++ trimFront fin (es :: post)) n ∧
      Removes (pre ++ es :: post) (pre ++ trimFront fin (es :: post)) lblk fin := by
  obtain ⟨trimmed, exposes⟩ := trimFront_spec fin list
  have after := list.hi
  refine ⟨trimmed, fun b v => ?_⟩
  rw [exposes_append, exposes_append, or_and_right, exposes]
  refine or_congr (exposes_apart (fun e mem => .inl (before e mem)) b v)
    (and_congr_right fun ⟨e, mem, covers, _⟩ => ?_)
  have low := covers.1
  rcases mem_cons.mp mem with rfl | inPost
  · omega
  · have start := after e inPost
    omega

/-- The tail of the first extent has its place behind the front. -/
theorem back_clear (front : es.esLblk ≤ lblk) (back : BackPart part es fin)
    (order : lblk ≤ fin + 1) :
    Clear (pre ++ { es with esLen := lblk - es.esLblk } :: post) part.esLblk
      (part.esLblk + part.esLen) := by
  have lblk := back.lblk
  intro e mem
  rcases mem_append.mp mem with inPre | mem
  · have fin := before e inPre
    omega
  rcases mem_cons.mp mem with rfl | inPost
  · simp only
    omega
  · right
    rw [back.hi]
    exact list.hi e inPost

/-- The range lies inside the first extent, whose front and tail stay. -/
theorem removes_split {ei : EsInode} (front : es.esLblk < lblk) (order : lblk ≤ fin)
    (back : fin + 1 < es.esLblk + es.esLen) {cache : Option Nat}
    (adds : Adds (tracked (pre ++ { es with esLen := lblk - es.esLblk } :: post) cache n) ei
      (splitTail es fin (es.esLblk + es.esLen - 1 - fin))) :
    Removes (pre ++ es :: post) ei.entries lblk fin := by
  have part := splitTail_part list.fine_mid (show es.esLblk ≤ fin by omega) back
  have after := list.hi
  intro b v
  rw [adds b v, part.exposes (by omega), tracked, exposes_append, exposes_cons, exposes_append,
    exposes_cons, or_and_right, or_and_right, short_exposes (by omega),
    ← exposes_apart fun e mem => .inl (before e mem),
    ← exposes_apart fun e mem => .inr (by have := after e mem; omega)]
  constructor
  · rintro ((inPre | ⟨h, low⟩ | inPost) | ⟨h, high⟩)
    · exact .inl inPre
    · exact .inr (.inl ⟨h, by omega⟩)
    · exact .inr (.inr inPost)
    · exact .inr (.inl ⟨h, by omega⟩)
  rintro (inPre | ⟨h, out⟩ | inPost)
  · exact .inl (.inl inPre)
  · by_cases low : b < lblk
    · exact .inl (.inr (.inl ⟨h, low⟩))
    · exact .inr ⟨h, by omega⟩
  · exact .inl (.inr (.inr inPost))

end Shapes

section
variable (shape : Shape ExtentStatus) {lblk fin : Nat} (order : lblk ≤ fin) (bound : fin < 2 ^ 32)
include shape lblk fin order bound

/-- One attempt: the range is removed, or an allocation fails and the tree is as it was. -/
theorem remove_step (ok : EsOk ei) (failures : List Bool) :
    (∃ ei', EsOk ei' ∧ Removes ei.entries ei'.entries lblk fin ∧
      esRemoveExtent shape lblk fin failures ei = some (.zero, ei')) ∨
    ∃ elsewhere rest ei', failures = elsewhere :: rest ∧ EsOk ei' ∧
      esRemoveExtent shape lblk fin failures ei =
        match ext4EsShrink ei' elsewhere with
        | none => none
        | some (0, ei) => some (.enomem, ei)
        | some (_ + 1, ei) => esRemoveExtent shape lblk fin rest ei := by
  have first := removeFirst_spec shape ok.list lblk fin
  obtain ⟨entries, cache, n, rfl, list, _⟩ := ok.exists_tracked
  rw [esRemoveExtent]
  rcases first with ⟨found, clear⟩ | ⟨pre, es, post, found, split, before, lo, hi⟩
  · left
    refine ⟨_, ok, fun b v => ⟨fun ⟨e, mem, covers, value⟩ => ⟨⟨e, mem, covers, value⟩, ?_⟩,
      And.left⟩, by simp only [found]⟩
    have apart := clear e mem
    have low := covers.1
    have high := covers.2
    omega
  have fine : FineExtent es := list.fine es (by rw [show entries = _ from split]; simp)
  simp only [found]
  obtain rfl : entries = pre ++ es :: post := split
  have uncached : ({ tracked (pre ++ es :: post) cache n with cacheEs := none } : EsInode) =
      tracked (pre ++ es :: post) none n := rfl
  have short_set : (tracked (pre ++ es :: post) none n).setNode
      { es with esLen := lblk - es.esLblk } =
        tracked (pre ++ { es with esLen := lblk - es.esLblk } :: post) none n :=
    setNode_tracked list.distinct rfl rfl
  rw [uncached, short_set]
  by_cases back : es.esLblk + es.esLen - 1 - fin > 0
  · rw [if_pos back]
    by_cases front : lblk - es.esLblk > 0
    · rw [if_pos front]
      have short := short_list list (show es.esLblk < lblk by omega) hi
      have part := splitTail_part fine lo (by omega)
      have tailFine := part.fine fine (by omega)
      have clear := back_clear list before (by omega) part (show lblk ≤ fin + 1 by omega)
      have insert := esInsertExtent_spec shape (esOk_uncached short) tailFine clear
      have removes {ei' : EsInode} := @removes_split pre post es lblk fin n list before ei' (by omega)
        order (by omega) none
      cases failures with
      | nil =>
        rcases insert true with ⟨no, _⟩ | ⟨ei', inserted, ok', adds⟩
        · cases no
        · exact .inl ⟨ei', ok', removes adds, inserted⟩
      | cons elsewhere rest =>
        rcases insert false with ⟨_, failed⟩ | ⟨ei', inserted, ok', adds⟩
        · refine .inr ⟨elsewhere, rest, tracked (pre ++ es :: post) none n, rfl,
            esOk_uncached list, ?_⟩
          have restored : (tracked (pre ++ { es with esLen := lblk - es.esLblk } :: post)
              none n).setNode es = tracked (pre ++ es :: post) none n :=
            setNode_tracked short.distinct rfl rfl
          rcases shrunk : ext4EsShrink (tracked (pre ++ es :: post) none n) elsewhere with
            _ | ⟨_ | _, _⟩ <;> simp only [failed, restored, shrunk]
        · exact .inl ⟨ei', ok', removes adds, by simp only [inserted]⟩
    · obtain ⟨trimmed, removes⟩ := removes_whole list before fin (by omega)
      have part := frontCut_part fine lo (by omega)
      have cut : trimFront fin (es :: post) =
          frontCut es fin (es.esLblk + es.esLen - 1 - fin) :: post := by
        rw [trimFront, if_neg (by omega), if_pos lo]
      rw [if_neg front]
      refine .inl ⟨_, esOk_uncached trimmed, removes, ?_⟩
      rw [cut, ← setNode_tracked list.distinct (frontCut_addr _ _) (isDelayed_congr part.status)]
      rfl
  · rw [if_neg back]
    left
    by_cases front : lblk - es.esLblk > 0
    · obtain ⟨trimmed, removes⟩ := removes_short list before (by omega) hi
        (show es.esLblk + es.esLen ≤ fin + 1 by omega)
      refine ⟨_, esOk_uncached trimmed, removes, ?_⟩
      have short := short_list list (show es.esLblk < lblk by omega) hi
      have next := rbNext_append short.distinct
      have rest := removeRest_spec bound none (append_cons .. ▸ short)
      rw [← append_cons, ← append_cons, ← next] at rest
      rw [if_pos front]
      simp only [tracked] at rest ⊢
      rw [rest]
      rfl
    · obtain ⟨trimmed, removes⟩ := removes_whole list before fin (by omega)
      refine ⟨_, esOk_uncached trimmed, removes, ?_⟩
      rw [if_neg front]
      rw [show some es = (es :: post).head? from rfl, removeRest_spec bound none list]
      rfl

/-- A removal ends in a well-formed tree. When it succeeds the range is free, and without a failing
allocation exactly the range is removed. -/
theorem esRemoveExtent_spec (failures : List Bool) (ok : EsOk ei) :
    ∃ err ei', esRemoveExtent shape lblk fin failures ei = some (err, ei') ∧ EsOk ei' ∧
      (err = .zero → Clear ei'.entries lblk (fin + 1)) ∧
      (failures = [] → err = .zero ∧ Removes ei.entries ei'.entries lblk fin) := by
  induction failures generalizing ei with
  | nil =>
    rcases remove_step shape order bound ok [] with ⟨ei', ok', removes, res⟩ | ⟨_, _, _, no, _⟩
    · exact ⟨_, ei', res, ok', fun _ => removes.clear ok'.list.fine order, fun _ => ⟨rfl, removes⟩⟩
    · cases no
  | cons elsewhere rest ih =>
    rcases remove_step shape order bound ok (elsewhere :: rest) with
      ⟨ei', ok', removes, res⟩ | ⟨_, _, ei', same, ok', res⟩
    · exact ⟨_, ei', res, ok', fun _ => removes.clear ok'.list.fine order, by simp⟩
    cases same
    obtain ⟨nr, ei'', shrunk, ok'', _⟩ := ext4EsShrink_spec ok' elsewhere
    rw [res, shrunk]
    cases nr with
    | zero => exact ⟨.enomem, ei'', rfl, ok'', by simp, by simp⟩
    | succ nr =>
      obtain ⟨err, ei3, retried, ok3, clear, _⟩ := ih ok''
      exact ⟨err, ei3, retried, ok3, clear, by simp⟩

end

end Linux318.Source.Fs
