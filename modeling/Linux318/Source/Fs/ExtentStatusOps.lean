import Linux318.Source.Fs.ExtentStatusTree

/-!
The operations on the extent status tree keep it well formed, and change the mapping of the blocks
of their range only.
-/
namespace Linux318.Source.Fs
open Lib

variable {ei : EsInode} {entries : List ExtentStatus} {es : ExtentStatus}

/-- A well-formed tree: the extents are ordered, disjoint and not empty, the cached one is in the
tree, and the counters are exact. -/
structure EsOk (ei : EsInode) : Prop where
  list : EsList ei.entries ei.nextAddr
  cache : ∀ addr, ei.cacheEs = some addr → ∃ es ∈ ei.entries, es.addr = addr
  allNr : ei.iEsAllNr = ei.entries.length
  lruNr : ei.iEsLruNr = ei.entries.countP fun es => !ext4EsIsDelayed es

theorem EsOk.exists_tracked (ok : EsOk ei) :
    ∃ entries cache n, ei = tracked entries cache n ∧ EsList entries n ∧
      ∀ addr, cache = some addr → ∃ es ∈ entries, es.addr = addr :=
  ⟨ei.entries, ei.cacheEs, ei.nextAddr, by rw [tracked, ← ok.allNr, ← ok.lruNr], ok.list, ok.cache⟩

theorem esOk_tracked {n : Nat} (list : EsList entries n)
    {cache : Option Nat} (cached : ∀ addr, cache = some addr → ∃ es ∈ entries, es.addr = addr) :
    EsOk (tracked entries cache n) :=
  ⟨list, cached, rfl, rfl⟩

theorem esOk_uncached {n : Nat} (list : EsList entries n) : EsOk (tracked entries none n) :=
  esOk_tracked list fun _ none => absurd none (by simp)

theorem esOk_cached {pre post : List ExtentStatus} {n : Nat} (list : EsList (pre ++ es :: post) n) :
    EsOk (tracked (pre ++ es :: post) (some es.addr) n) := by
  refine esOk_tracked list ?_
  rintro _ ⟨⟩
  exact ⟨es, by simp, rfl⟩

theorem esOk_initTree : EsOk ext4EsInitTree :=
  esOk_uncached (EsList.nil 0)

section Join

variable {m es1 es2 : ExtentStatus}

theorem ext4EsCanBeMerged_facts (can : ext4EsCanBeMerged es1 es2 = true) :
    ext4EsStatus es1 = ext4EsStatus es2 ∧ es1.esLen + es2.esLen ≤ extMaxBlocks ∧
      es1.esLblk + es1.esLen = es2.esLblk ∧
      (hasPblock (ext4EsStatus es1) = true → ext4EsPblock es1 + es1.esLen = ext4EsPblock es2) := by
  unfold ext4EsCanBeMerged at can
  split_ifs at can with status len lblk mapped hole delayed
  all_goals
    refine ⟨not_not.mp status, Nat.not_lt.mp len, not_not.mp lblk, fun has => ?_⟩
  · simp only [Bool.and_eq_true, decide_eq_true_eq] at mapped
    exact mapped.2
  · rw [ext4EsIsHole_eq] at hole
    simp [hasPblock, hole] at has
  · rw [ext4EsIsDelayed_eq, ext4EsIsUnwritten_eq] at delayed
    simp only [Bool.and_eq_true, Bool.not_eq_true'] at delayed
    simp [hasPblock, delayed.1, delayed.2] at has

structure Joined (m es1 es2 : ExtentStatus) : Prop where
  lblk : m.esLblk = es1.esLblk
  len : m.esLen = es1.esLen + es2.esLen
  status : ext4EsStatus m = ext4EsStatus es1
  block : hasPblock (ext4EsStatus es1) = true → ext4EsPblock m = ext4EsPblock es1

theorem Joined.exposes (joined : Joined m es1 es2) (can : ext4EsCanBeMerged es1 es2 = true)
    {b : Nat} {v : Nat × Option Nat} : (Covers m b ∧ esValue m b = v) ↔
      (Covers es1 b ∧ esValue es1 b = v) ∨ (Covers es2 b ∧ esValue es2 b = v) := by
  obtain ⟨lblk, len, status, block⟩ := joined
  obtain ⟨same, _, next, contiguous⟩ := ext4EsCanBeMerged_facts can
  have value1 : esValue m b = esValue es1 b :=
    esValue_congr status fun has => by rw [block has, lblk]
  have value2 (inside : es2.esLblk ≤ b) : esValue m b = esValue es2 b := by
    refine esValue_congr (status.trans same) fun has => ?_
    rw [← same] at has
    have offset : ext4EsPblock es1 + (b - es1.esLblk) = ext4EsPblock es2 + (b - es2.esLblk) := by
      have sum := contiguous has
      omega
    rw [block has, lblk, offset]
  simp only [Covers, lblk]
  constructor
  · rintro ⟨covers, rfl⟩
    by_cases first : b < es1.esLblk + es1.esLen
    · exact .inl ⟨⟨covers.1, first⟩, value1.symm⟩
    · exact .inr ⟨by omega, (value2 (by omega)).symm⟩
  · rintro (⟨covers, rfl⟩ | ⟨covers, rfl⟩)
    · exact ⟨by omega, value1⟩
    · exact ⟨by omega, value2 covers.1⟩

theorem joined_grow (can : ext4EsCanBeMerged es1 es2 = true) :
    Joined { es1 with esLen := (es1.esLen + es2.esLen) % 2 ^ 32 } es1 es2 := by
  obtain ⟨_, bound, _⟩ := ext4EsCanBeMerged_facts can
  simp only [extMaxBlocks] at bound
  exact ⟨rfl, Nat.mod_eq_of_lt (by omega), rfl, fun _ => rfl⟩

theorem Joined.fine (joined : Joined m es1 es2) (can : ext4EsCanBeMerged es1 es2 = true)
    (fine1 : FineExtent es1) (fine2 : FineExtent es2) (word : m.esPblk < 2 ^ 64) : FineExtent m := by
  obtain ⟨_, _, next, _⟩ := ext4EsCanBeMerged_facts can
  have pos := fine1.nonempty
  have bound := fine2.noWrap
  have lblk := joined.lblk
  have len := joined.len
  exact ⟨by omega, by omega, word⟩

theorem isDelayed_congr (status : ext4EsStatus es1 = ext4EsStatus es2) :
    ext4EsIsDelayed es1 = ext4EsIsDelayed es2 := by
  rw [ext4EsIsDelayed_eq, ext4EsIsDelayed_eq, status]

theorem merge_list {pre post : List ExtentStatus} {n : Nat}
    (list : EsList (pre ++ es1 :: es2 :: post) n) (can : ext4EsCanBeMerged es1 es2 = true) :
    EsList (pre ++ { es1 with esLen := (es1.esLen + es2.esLen) % 2 ^ 32 } :: post) n ∧
      ∀ b v, Exposes (pre ++ { es1 with esLen := (es1.esLen + es2.esLen) % 2 ^ 32 } :: post) b v ↔
        Exposes (pre ++ es1 :: es2 :: post) b v := by
  have joined := joined_grow can
  have fine1 := list.fine_mid
  have fine2 : FineExtent es2 := list.fine es2 (by simp)
  have lo := list.lo
  have next := (ext4EsCanBeMerged_facts can).2.2.1
  have hi : ∀ b ∈ post, es2.esLblk + es2.esLen ≤ b.esLblk := (List.append_cons .. ▸ list).hi
  have dropped : EsList (pre ++ es1 :: post) n := list.sublist
    (List.Sublist.append_left (List.Sublist.cons_cons _ (List.sublist_cons_self _ _)) _)
  constructor
  · refine dropped.resize (joined.fine can fine1 fine2 fine1.word) rfl lo fun b mem => ?_
    have bound := hi b mem
    rw [joined.lblk, joined.len]
    omega
  · intro b v
    simp only [exposes_append, exposes_cons, joined.exposes can, or_assoc]

end Join

/-- A new extent is in the tree, and the other blocks are mapped as before. -/
def Adds (ei ei' : EsInode) (newes : ExtentStatus) : Prop :=
  ∀ b v, Exposes ei'.entries b v ↔ Exposes ei.entries b v ∨ (Covers newes b ∧ esValue newes b = v)

def Inserts (shape : Shape ExtentStatus) (ei : EsInode) (newes : ExtentStatus) (alloc : Bool) : Prop :=
  ∃ ei', esInsertExtent shape ei newes alloc = some (.zero, ei') ∧ EsOk ei' ∧ Adds ei ei' newes

section Insert

variable {pre post : List ExtentStatus} {es newes : ExtentStatus} {cache : Option Nat} {n : Nat}

/-- The end of both merges: the tree is well formed, maps the blocks as before, and has the node
that is cached. -/
def Merges (entries : List ExtentStatus) (r : EsInode × Nat) : Prop :=
  EsOk { r.1 with cacheEs := some r.2 } ∧ ∀ b v, Exposes r.1.entries b v ↔ Exposes entries b v

theorem ext4EsTryToMergeLeft_spec (cache : Option Nat) (list : EsList (pre ++ es :: post) n) :
    ∃ r, ext4EsTryToMergeLeft (tracked (pre ++ es :: post) cache n) es = some r ∧
      Merges (pre ++ es :: post) r := by
  have prev : rbPrev (tracked (pre ++ es :: post) cache n).entries es.addr = pre.getLast? :=
    rbPrev_append list.distinct
  have stays : Merges (pre ++ es :: post) (tracked (pre ++ es :: post) cache n, es.addr) :=
    ⟨esOk_cached list, fun _ _ => Iff.rfl⟩
  rw [ext4EsTryToMergeLeft, prev]
  rcases List.eq_nil_or_concat' pre with rfl | ⟨front, es1, rfl⟩
  · exact ⟨_, rfl, stays⟩
  rw [List.getLast?_concat]
  dsimp only
  split_ifs with can
  · rw [← List.append_cons] at list ⊢
    obtain ⟨merged, exposes⟩ := merge_list list can
    rw [mergeNodes_tracked list.distinct]
    exact ⟨_, rfl, esOk_cached merged, exposes⟩
  · exact ⟨_, rfl, stays⟩

theorem ext4EsTryToMergeRight_spec (cache : Option Nat) (list : EsList (pre ++ es :: post) n) :
    ∃ r, ext4EsTryToMergeRight (tracked (pre ++ es :: post) cache n) es = some r ∧
      Merges (pre ++ es :: post) r := by
  have next : rbNext (tracked (pre ++ es :: post) cache n).entries es.addr = post.head? :=
    rbNext_append list.distinct
  have stays : Merges (pre ++ es :: post) (tracked (pre ++ es :: post) cache n, es.addr) :=
    ⟨esOk_cached list, fun _ _ => Iff.rfl⟩
  rw [ext4EsTryToMergeRight, next]
  cases post with
  | nil => exact ⟨_, rfl, stays⟩
  | cons es1 back =>
    simp only [List.head?_cons]
    split_ifs with can
    · obtain ⟨merged, exposes⟩ := merge_list list can
      rw [mergeNodes_tracked list.distinct]
      exact ⟨_, rfl, esOk_cached merged, exposes⟩
    · exact ⟨_, rfl, stays⟩

/-- The extent that grows to the front takes the physical block of the new one. -/
def grownFront (newes es : ExtentStatus) : ExtentStatus :=
  let es := { es with esLblk := newes.esLblk, esLen := (es.esLen + newes.esLen) % 2 ^ 32 }
  if ext4EsIsWritten es || ext4EsIsUnwritten es then ext4EsStorePblock es newes.esPblk else es

theorem storePblock_word (word : es.esPblk < 2 ^ 64) (pb : Nat) :
    ext4EsStatus (ext4EsStorePblock es pb) = ext4EsStatus es ∧
      ext4EsPblock (ext4EsStorePblock es pb) = pb % 2 ^ 60 ∧
      (ext4EsStorePblock es pb).esPblk < 2 ^ 64 := by
  rw [ext4EsStatus_eq (ext4EsStorePblock es pb), ext4EsPblock_eq, ext4EsStorePblock_word word,
    ext4EsStatus_eq]
  omega

theorem grownFront_joined (can : ext4EsCanBeMerged newes es = true) (word : es.esPblk < 2 ^ 64) :
    Joined (grownFront newes es) newes es ∧ (grownFront newes es).addr = es.addr ∧
      (grownFront newes es).esPblk < 2 ^ 64 ∧
      ext4EsIsDelayed (grownFront newes es) = ext4EsIsDelayed es := by
  obtain ⟨status, bound, _⟩ := ext4EsCanBeMerged_facts can
  simp only [extMaxBlocks] at bound
  have len : (es.esLen + newes.esLen) % 2 ^ 32 = newes.esLen + es.esLen := by omega
  obtain ⟨wide, hw⟩ : ∃ wide, wide = ({ es with esLblk := newes.esLblk
                                                esLen := (es.esLen + newes.esLen) % 2 ^ 32 } :
    ExtentStatus) := ⟨_, rfl⟩
  have wideStatus : ext4EsStatus wide = ext4EsStatus es := by rw [hw]; rfl
  have wideWord : wide.esPblk < 2 ^ 64 := by rw [hw]; exact word
  have wideLblk : wide.esLblk = newes.esLblk := by rw [hw]
  have wideLen : wide.esLen = newes.esLen + es.esLen := by rw [hw]; exact len
  have wideAddr : wide.addr = es.addr := by rw [hw]
  have grown : grownFront newes es = if ext4EsIsWritten wide || ext4EsIsUnwritten wide
      then ext4EsStorePblock wide newes.esPblk else wide := by rw [hw]; rfl
  rw [grown]
  split_ifs with mapped
  · obtain ⟨stored, pblock, lt⟩ := storePblock_word wideWord newes.esPblk
    refine ⟨⟨wideLblk, wideLen, by rw [stored, wideStatus, status], fun _ => ?_⟩, wideAddr,
      lt, isDelayed_congr (stored.trans wideStatus)⟩
    rw [pblock, ext4EsPblock_eq]
  · refine ⟨⟨wideLblk, wideLen, by rw [wideStatus, status], fun has => absurd ?_ mapped⟩, wideAddr,
      wideWord, isDelayed_congr wideStatus⟩
    exact mapped_of_hasPblock (by rw [wideStatus, ← status]; exact has)

/-- Growing an extent by the new one, in front or behind. -/
theorem grow_list {m : ExtentStatus} (list : EsList (pre ++ es :: post) n) (fine : FineExtent m)
    (addr : m.addr = es.addr)
    (clear : Clear (pre ++ es :: post) newes.esLblk (newes.esLblk + newes.esLen))
    (bounds : (m.esLblk = newes.esLblk ∧ newes.esLblk + newes.esLen = es.esLblk ∧
        m.esLblk + m.esLen = es.esLblk + es.esLen) ∨
      (m.esLblk = es.esLblk ∧ es.esLblk + es.esLen = newes.esLblk ∧
        m.esLblk + m.esLen = newes.esLblk + newes.esLen)) : EsList (pre ++ m :: post) n := by
  refine list.resize fine addr (fun a mem => ?_) (fun b mem => ?_)
  · have order := list.lo a mem
    have pos := (list.fine a (by simp [mem])).nonempty
    have apart := clear a (by simp [mem])
    omega
  · have order := list.hi b mem
    have pos := (list.fine b (by simp [mem])).nonempty
    have apart := clear b (by simp [mem])
    omega

variable (shape : Shape ExtentStatus) (alloc : Bool)

section
variable (list : EsList (pre ++ es :: post) n) (fine : FineExtent newes)
  (clear : Clear (pre ++ es :: post) newes.esLblk (newes.esLblk + newes.esLen))
include list fine clear

theorem insert_before
    (place : esInsertDescend newes (shape.tree (pre ++ es :: post)) = some (.before es))
    (can : ext4EsCanBeMerged newes es = true) :
    Inserts shape (tracked (pre ++ es :: post) cache n) newes alloc := by
  have selfFine := list.fine_mid
  obtain ⟨joined, addr, word, delayed⟩ := grownFront_joined can selfFine.word
  have next := (ext4EsCanBeMerged_facts can).2.2.1
  have grown := grow_list list (joined.fine can fine selfFine word) addr clear
    (.inl ⟨joined.lblk, next, by rw [joined.lblk, joined.len]; omega⟩)
  obtain ⟨r, merge, ok', exposes⟩ := ext4EsTryToMergeLeft_spec cache grown
  refine ⟨{ r.1 with cacheEs := some r.2 }, ?_, ok', fun b v => (exposes b v).trans ?_⟩
  · have step : esInsertExtent shape (tracked (pre ++ es :: post) cache n) newes alloc =
        (ext4EsTryToMergeLeft ((tracked (pre ++ es :: post) cache n).setNode (grownFront newes es))
          (grownFront newes es)).map fun r => (.zero, { r.1 with cacheEs := some r.2 }) := by
      simp only [esInsertExtent, tracked, place]
      rfl
    rw [step, setNode_tracked list.distinct addr delayed, merge]
    rfl
  · simp only [tracked, exposes_append, exposes_cons, joined.exposes can]
    tauto

theorem insert_after
    (place : esInsertDescend newes (shape.tree (pre ++ es :: post)) = some (.after es))
    (can : ext4EsCanBeMerged es newes = true) :
    Inserts shape (tracked (pre ++ es :: post) cache n) newes alloc := by
  have selfFine := list.fine_mid
  have joined := joined_grow can
  obtain ⟨m, hm⟩ : ∃ m, m =
    ({ es with esLen := (es.esLen + newes.esLen) % 2 ^ 32 } : ExtentStatus) := ⟨_, rfl⟩
  rw [← hm] at joined
  have addr : m.addr = es.addr := by rw [hm]
  have word : m.esPblk < 2 ^ 64 := by rw [hm]; exact selfFine.word
  have next := (ext4EsCanBeMerged_facts can).2.2.1
  have grown := grow_list list (joined.fine can selfFine fine word) addr clear
    (.inr ⟨joined.lblk, next, by rw [joined.lblk, joined.len]; omega⟩)
  obtain ⟨r, merge, ok', exposes⟩ := ext4EsTryToMergeRight_spec cache grown
  refine ⟨{ r.1 with cacheEs := some r.2 }, ?_, ok', fun b v => (exposes b v).trans ?_⟩
  · have step : esInsertExtent shape (tracked (pre ++ es :: post) cache n) newes alloc =
        (ext4EsTryToMergeRight ((tracked (pre ++ es :: post) cache n).setNode m) m).map fun r =>
          (.zero, { r.1 with cacheEs := some r.2 }) := by
      simp only [esInsertExtent, tracked, place, hm]
    rw [step, setNode_tracked list.distinct addr (isDelayed_congr joined.status), merge]
    rfl
  · simp only [tracked, exposes_append, exposes_cons, joined.exposes can]
    tauto

end

/-- A new node stands between the extents on its two sides. -/
theorem insert_link (list : EsList entries n) (fine : FineExtent newes)
    (clear : Clear entries newes.esLblk (newes.esLblk + newes.esLen))
    (place : esInsertDescend newes (shape.tree entries) = some .link) :
    Inserts shape (tracked entries cache n) newes true := by
  obtain ⟨node, hn⟩ : ∃ node, node = ({ newes with addr := n } : ExtentStatus) := ⟨_, rfl⟩
  have nodeFine : FineExtent node := by
    rw [hn]
    exact ⟨fine.nonempty, fine.noWrap, fine.word⟩
  have addr : node.addr = n := by rw [hn]
  have inorder := shape.inorder entries
  have apart (e : ExtentStatus) (inList : e ∈ entries) : esDir newes.esLblk e ≠ .eq := by
    intro eq
    have pos := fine.nonempty
    have apart := clear e inList
    unfold esDir at eq
    split_ifs at eq
    omega
  obtain ⟨pre, post, split, linked, before, after⟩ := SearchTree.link_toList node
    (by rw [inorder]; exact esDir_steered list newes.esLblk) (by rw [inorder]; exact apart)
  rw [inorder] at split
  subst split
  have front (a : ExtentStatus) (inPre : a ∈ pre) : Before a node := by
    have bound := list.addrs a (by simp [inPre])
    refine ⟨?_, by omega⟩
    rw [hn]
    exact esDir_eq_gt (before a inPre)
  have back (b : ExtentStatus) (inPost : b ∈ post) : Before node b := by
    have bound := list.addrs b (by simp [inPost])
    have ahead := esDir_eq_lt (after b inPost)
    have apart := clear b (by simp [inPost])
    refine ⟨?_, by omega⟩
    rw [hn]
    show newes.esLblk + newes.esLen ≤ b.esLblk
    omega
  have grown : EsList (pre ++ node :: post) (n + 1) := by
    have list' : EsList (pre ++ [] ++ post) n := by simpa using list
    have fits := list'.replace (Nat.le_succ n)
      (EsList.single nodeFine (addr ▸ Nat.lt_succ_self n)) (by simpa using front) (by simpa using back)
    simpa using fits
  refine ⟨_, ?_, esOk_cached grown, fun b v => ?_⟩
  · have delayed : ext4EsIsDelayed node = ext4EsIsDelayed newes := by rw [hn]; rfl
    simp only [esInsertExtent, tracked, place, countAlloc, ← hn, linked]
    cases value : ext4EsIsDelayed newes <;> simp [delayed, value] <;> omega
  have covers : (Covers node b ∧ esValue node b = v) ↔ (Covers newes b ∧ esValue newes b = v) := by
    rw [hn]
    rfl
  simp only [tracked, exposes_append, exposes_cons]
  tauto

end Insert

/-- A new extent finds its place, if no extent meets its blocks. -/
theorem esInsertExtent_spec (shape : Shape ExtentStatus) (ok : EsOk ei)
    {newes : ExtentStatus} (fine : FineExtent newes)
    (clear : Clear ei.entries newes.esLblk (newes.esLblk + newes.esLen)) (alloc : Bool) :
    (alloc = false ∧ esInsertExtent shape ei newes alloc = some (.enomem, ei)) ∨
      Inserts shape ei newes alloc := by
  obtain ⟨entries, cache, n, rfl, list, _⟩ := ok.exists_tracked
  have inorder := shape.inorder entries
  have place := esInsertDescend_spec fine.nonempty (by rw [inorder]; exact list.fine)
    (by rw [inorder]; exact clear)
  rw [inorder] at place
  rcases place with place | ⟨es, mem, place⟩
  · cases alloc with
    | false => exact .inl ⟨rfl, by simp [esInsertExtent, tracked, place]⟩
    | true => exact .inr (insert_link shape list fine clear place)
  obtain ⟨pre, post, rfl⟩ := List.append_of_mem mem
  rcases place with ⟨place, can⟩ | ⟨place, can⟩
  · exact .inr (insert_before shape alloc list fine clear place can)
  · exact .inr (insert_after shape alloc list fine clear place can)

theorem reclaimLoop_spec (cache : Option Nat) (n : Nat) (todo : List ExtentStatus) :
    ∀ (kept : List ExtentStatus) (nrToScan : Int) (nrShrunk : Nat), Distinct (kept ++ todo) →
      ∃ nr entries, reclaimLoop todo nrToScan nrShrunk (tracked (kept ++ todo) cache n) =
        some (nr, tracked entries cache n) ∧ entries.Sublist (kept ++ todo) := by
  induction todo with
  | nil =>
    intro kept nrToScan nrShrunk _
    exact ⟨nrShrunk, kept, by simp [reclaimLoop], by simp⟩
  | cons es rest ih =>
    intro kept nrToScan nrShrunk nodup
    rw [reclaimLoop]
    by_cases delayed : ext4EsIsDelayed es = true
    · have step := ih (kept ++ [es]) nrToScan nrShrunk (by simpa using nodup)
      simpa [delayed] using step
    have gone : (kept ++ rest).Sublist (kept ++ es :: rest) :=
      List.Sublist.append_left (List.sublist_cons_self _ _) _
    rw [if_neg delayed, free_tracked nodup]
    by_cases last : nrToScan - 1 = 0
    · exact ⟨nrShrunk + 1, kept ++ rest, by simp [last], gone⟩
    obtain ⟨nr, entries, res, sub⟩ := ih kept (nrToScan - 1) (nrShrunk + 1)
      (List.Nodup.sublist (gone.map _) nodup)
    exact ⟨nr, entries, by simp [last, res], sub.trans gone⟩

/-- The shrinker takes extents out of the tree, and no others come in. -/
theorem esTryToReclaimExtents_spec (ok : EsOk ei) (nrToScan : Int) :
    ∃ nr ei', esTryToReclaimExtents ei nrToScan = some (nr, ei') ∧ EsOk ei' ∧
      ei'.entries.Sublist ei.entries := by
  obtain ⟨entries, cache, n, rfl, list, _⟩ := ok.exists_tracked
  rw [esTryToReclaimExtents]
  by_cases none : (tracked entries cache n).iEsLruNr = 0
  · exact ⟨0, _, by rw [if_pos none], ok, List.Sublist.refl _⟩
  obtain ⟨nr, entries', res, sub⟩ := reclaimLoop_spec cache n entries [] nrToScan 0 list.distinct
  have result' : reclaimLoop (tracked entries cache n).entries nrToScan 0
      (tracked entries cache n) = some (nr, tracked entries' cache n) := res
  refine ⟨nr, tracked entries' Option.none n, by rw [if_neg none, result']; rfl, ?_, sub⟩
  exact esOk_uncached (list.sublist sub)

theorem ext4EsShrink_spec (ok : EsOk ei) (elsewhere : Bool) :
    ∃ nr ei', ext4EsShrink ei elsewhere = some (nr, ei') ∧ EsOk ei' ∧
      ei'.entries.Sublist ei.entries := by
  cases elsewhere with
  | true => exact ⟨1, ei, rfl, ok, List.Sublist.refl _⟩
  | false => exact esTryToReclaimExtents_spec ok 1

theorem Clear.sublist {entries' : List ExtentStatus} {lo hi : Nat}
    (clear : Clear entries lo hi) (sub : entries'.Sublist entries) : Clear entries' lo hi :=
  fun es mem => clear es (sub.subset mem)

end Linux318.Source.Fs
