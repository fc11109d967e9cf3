import Mathlib.Algebra.Ring.Nat
import Mathlib.Tactic.Common
import Mathlib.Data.List.Pairwise

/-!
# The resource tree

Source: kernel/resource.c 207-233, 502-528, 923-975, include/linux/ioport.h 18-40. One level of the
tree: the children of a resource, in the order of their `sibling` pointers. Allocations succeed.
-/
namespace Linux318.Source.Kernel

def ioresourceMem : Nat := 0x00000200
def ioresourceBusy : Nat := 0x80000000

/-- The source's `end` is `last`: the range is closed. -/
structure Resource where
  start : Nat
  last : Nat
  name : String
  flags : Nat
  deriving DecidableEq, Repr

variable {root new res c : Resource} {children rest done out : List Resource} {start last fuel : Nat}

def Resource.Contains (p : Resource) (start last : Nat) : Prop := p.start ≤ start ∧ last ≤ p.last

instance (p : Resource) (start last : Nat) : Decidable (p.Contains start last) :=
  inferInstanceAs (Decidable (_ ∧ _))

/-- The children of a well-formed resource: ordered, disjoint, and inside it. -/
structure Siblings (root : Resource) (children : List Resource) : Prop where
  sorted : children.Pairwise fun a b => a.last < b.start
  range : ∀ c ∈ children, root.start ≤ c.start ∧ c.start ≤ c.last ∧ c.last ≤ root.last
  word : root.last < 2 ^ 64

theorem Siblings.unique (ok : Siblings root children) {p q : Resource} (memp : p ∈ children)
    (memq : q ∈ children) (region : start ≤ last) (inp : p.Contains start last)
    (inq : q.Contains start last) : p = q := by
  by_contra ne
  have apart := List.Pairwise.forall_of_forall_of_flip
    (R := fun a b : Resource => a = b ∨ a.last < b.start ∨ b.last < a.start) (fun _ _ => .inl rfl)
    (ok.sorted.imp (.inr ∘ .inl)) (ok.sorted.imp (.inr ∘ .inr)) memp memq
  obtain ⟨lowp, highp⟩ := inp
  obtain ⟨lowq, highq⟩ := inq
  rcases apart with same | apart | apart
  · exact ne same
  · omega
  · omega

/-- `int flags`, widened to the `unsigned long` it is compared with. -/
def ramFlags : Nat := ((BitVec.ofNat 32 (ioresourceMem ||| ioresourceBusy)).signExtend 64).toNat

/-- What `region_is_ram` answers once it has found a resource that contains the region. -/
def Resource.ramVerdict (p : Resource) : Int :=
  if p.flags ≠ ramFlags ∨ p.name ≠ "System RAM" then 0 else 1

/-- The loop of `region_is_ram`. -/
def regionScan (start last : Nat) : List Resource → Int
  | [] => -1
  | p :: rest =>
    if last < p.start then regionScan start last rest
    else if p.Contains start last then p.ramVerdict
    else if p.last < start then -1
    else regionScan start last rest

def regionIsRam (children : List Resource) (start size : Nat) : Int :=
  regionScan start ((start + size + (2 ^ 64 - 1)) % 2 ^ 64) children

theorem regionScan_of_none (none : ∀ p ∈ children, ¬ p.Contains start last) :
    regionScan start last children = -1 := by
  induction children with
  | nil => rfl
  | cons p rest ih =>
    have tail := ih fun q mem => none q (.tail _ mem)
    rw [regionScan, if_neg (none p (.head _)), tail]
    simp

/-- A resource in front of the region hides the one that contains it. -/
theorem regionScan_of_contains (ok : Siblings root children) {q : Resource} (mem : q ∈ children)
    (contains : q.Contains start last) (region : start ≤ last) : regionScan start last children =
      if ∃ p ∈ children, p.last < start then -1 else q.ramVerdict := by
  obtain ⟨sorted, range, word⟩ := ok
  induction children with
  | nil => cases mem
  | cons p rest ih =>
    have tail := fun there => ih there (List.pairwise_cons.mp sorted).2 fun c h => range c (.tail _ h)
    have behind := (List.pairwise_cons.mp sorted).1
    have size := (range p (.head _)).2.1
    obtain ⟨low, high⟩ := contains
    rw [regionScan]
    rcases List.mem_cons.mp mem with rfl | there
    · have alone : ¬ ∃ p ∈ q :: rest, p.last < start := by
        rintro ⟨p, at_, before⟩
        rcases List.mem_cons.mp at_ with rfl | later
        · omega
        have := behind p later
        have := (range p (.tail _ later)).2.1
        omega
      rw [if_neg (by omega), if_pos ⟨low, high⟩, if_neg alone]
    · have apart := behind q there
      rw [if_neg (by omega), if_neg (fun h => by have := h.2; omega)]
      by_cases before : p.last < start
      · rw [if_pos before, if_pos ⟨p, .head _, before⟩]
      · rw [tail there]
        simp [before]

/-- The walk of `__request_resource`: the children with the new one, or the first conflict. -/
def linkResource (new : Resource) : List Resource → Except Resource (List Resource)
  | [] => .ok [new]
  | tmp :: rest =>
    if new.last < tmp.start then .ok (new :: tmp :: rest)
    else if tmp.last < new.start then (tmp :: ·) <$> linkResource new rest
    else .error tmp

def requestResource (root : Resource) (children : List Resource) (new : Resource) :
    Except Resource (List Resource) :=
  if new.last < new.start then .error root
  else if new.start < root.start then .error root
  else if root.last < new.last then .error root
  else linkResource new children

/-- The loop of `__reserve_region_with_split`; `none` means that the fuel is used up. -/
def splitLoop (root : Resource) : Nat → List Resource → Resource → Option Resource →
    Option (List Resource)
  | 0, _, _, _ => none
  | fuel + 1, children, res, nextRes =>
    match requestResource root children res with
    | .ok children' =>
      match nextRes with
      | none => some children'
      | some res' => splitLoop root fuel children' res' none
    | .error conflict =>
      if conflict.start ≤ res.start ∧ res.last ≤ conflict.last then some children
      else if res.start < conflict.start then
        splitLoop root fuel children { res with last := conflict.start - 1 }
          (if conflict.last < res.last then
            some { res with start := (conflict.last + 1) % 2 ^ 64 } else nextRes)
      else splitLoop root fuel children { res with start := (conflict.last + 1) % 2 ^ 64 } nextRes

def reserveRegionWithSplit (fuel : Nat) (root : Resource) (children : List Resource)
    (start last : Nat) (name : String) : Option (List Resource) :=
  splitLoop root fuel children ⟨start, last, name, ioresourceBusy⟩ none

/-- The children with the free part of `res` filled. -/
def fill (res : Resource) : List Resource → List Resource
  | [] => [res]
  | c :: rest =>
    if res.last < c.start then res :: c :: rest
    else if c.last < res.start then c :: fill res rest
    else (if res.start < c.start then [{ res with last := c.start - 1 }] else []) ++
      c :: if c.last < res.last then fill { res with start := c.last + 1 } rest else rest

/-- The children `done` lie in front of the region, `rest` is still to be walked. -/
structure Walked (root : Resource) (done rest : List Resource) (res : Resource) : Prop where
  ok : Siblings root rest
  done : ∀ d ∈ done, d.start ≤ d.last ∧ d.last < res.start
  region : root.start ≤ res.start ∧ res.start ≤ res.last ∧ res.last ≤ root.last

theorem linkResource_append (region : new.start ≤ new.last)
    (before : ∀ d ∈ done, d.start ≤ d.last ∧ d.last < new.start) :
    linkResource new (done ++ rest) = (done ++ ·) <$> linkResource new rest := by
  induction done with
  | nil => simp
  | cons d done ih =>
    have ends := before d (.head _)
    rw [List.cons_append, linkResource, if_neg (by omega), if_pos ends.2,
      ih fun e mem => before e (.tail _ mem)]
    simp

theorem Walked.request (w : Walked root done rest res) :
    requestResource root (done ++ rest) res = (done ++ ·) <$> linkResource res rest := by
  obtain ⟨ok, before, region⟩ := w
  rw [requestResource, if_neg (by omega), if_neg (by omega), if_neg (by omega),
    linkResource_append region.2.1 before]

theorem Siblings.tail (ok : Siblings root (c :: rest)) : Siblings root rest :=
  ⟨(List.pairwise_cons.mp ok.sorted).2, fun d mem => ok.range d (.tail _ mem), ok.word⟩

/-- The walk goes on behind the child `c`, with the pieces linked in front of it. -/
theorem Walked.pass (w : Walked root done (c :: rest) res) (pieces : List Resource) (start : Nat)
    (after : c.last < start) (within : res.start ≤ start ∧ start ≤ res.last)
    (linked : ∀ d ∈ pieces, d.start ≤ d.last ∧ d.last < start) :
    Walked root (done ++ (pieces ++ [c])) rest { res with start := start } := by
  obtain ⟨ok, before, region⟩ := w
  refine ⟨ok.tail, fun d mem => ?_, by dsimp only; omega⟩
  simp only [List.mem_append, List.mem_singleton] at mem
  rcases mem with mem | mem | rfl
  · have := before d mem
    exact ⟨this.1, Nat.lt_of_lt_of_le this.2 within.1⟩
  · exact linked d mem
  · exact ⟨(ok.range d (.head _)).2.1, after⟩

theorem Walked.splitLoop_eq (w : Walked root done rest res) (enough : 2 * rest.length < fuel) :
    splitLoop root fuel (done ++ rest) res none = some (done ++ fill res rest) := by
  induction rest generalizing done res fuel with
  | nil =>
    obtain ⟨fuel, rfl⟩ : ∃ n, fuel = n + 1 := ⟨fuel - 1, by omega⟩
    rw [splitLoop, w.request]
    rfl
  | cons c rest ih =>
    obtain ⟨fuel, rfl⟩ : ∃ n, fuel = n + 2 := ⟨fuel - 2, by simp at enough; omega⟩
    rw [List.length_cons] at enough
    have request := w.request
    have region := w.region
    have size := w.ok.range c (.head _)
    have word := w.ok.word
    rw [linkResource] at request
    rw [fill]
    by_cases ahead : res.last < c.start
    · rw [splitLoop, request, if_pos ahead, if_pos ahead]
      rfl
    by_cases behind : c.last < res.start
    · have left : 2 * rest.length < fuel + 2 := by omega
      have next := ih (w.pass [] res.start behind (by omega) (by simp)) left
      simpa [if_neg ahead, if_pos behind] using next
    rw [if_neg ahead, if_neg behind] at request ⊢
    rw [splitLoop, request]
    have wrap (tail : c.last < res.last) : (c.last + 1) % 2 ^ 64 = c.last + 1 :=
      Nat.mod_eq_of_lt (by omega)
    have apart (tail : c.last < res.last) : ¬ res.last ≤ c.last := Nat.not_le.mpr tail
    by_cases free : res.start < c.start
    · have piece : Walked root done (c :: rest) { res with last := c.start - 1 } :=
        ⟨w.ok, w.done, by dsimp only; omega⟩
      have linked := piece.request
      rw [linkResource, if_pos (by dsimp only; omega)] at linked
      by_cases tail : c.last < res.last
      · have next := ih (w.pass [{ res with last := c.start - 1 }] (c.last + 1) (by omega)
          (by omega) (by simp; omega)) (show 2 * rest.length < fuel by omega)
        simpa [-Nat.reducePow, splitLoop, linked, free, tail, wrap tail, apart tail] using next
      · simp [splitLoop, linked, free, tail]
    · by_cases tail : c.last < res.last
      · have next := ih (w.pass [] (c.last + 1) (by omega) (by omega) (by simp))
          (show 2 * rest.length < fuel + 1 by omega)
        simpa [-Nat.reducePow, free, tail, wrap tail, apart tail] using next
      · simp [tail, Nat.not_lt.mp tail, Nat.not_lt.mp free]

/-- The list `out` is the children `rest` with the free part of the region `res` filled. -/
structure Filled (root res : Resource) (rest out : List Resource) : Prop where
  ok : Siblings root out
  kept : rest.Sublist out
  new : ∀ r ∈ out, r ∈ rest ∨ r.flags = res.flags ∧ res.start ≤ r.start ∧ r.last ≤ res.last
  cover : ∀ a, res.start ≤ a → a ≤ res.last → ∃ r ∈ out, r.Contains a a

theorem Filled.empty (ok : Siblings root rest) (none : res.last < res.start) :
    Filled root res rest rest :=
  ⟨ok, .refl _, fun _ => .inl, fun a _ _ => absurd none (by omega)⟩

/-- A child, old or new, that covers the region up to `start`. -/
theorem Filled.cons (filled : Filled root { res with start := start } rest out)
    (old : children = c :: rest ∨ children = rest ∧ c.flags = res.flags ∧ res.start ≤ c.start ∧
      c.last ≤ res.last) (range : root.start ≤ c.start ∧ c.start ≤ c.last ∧ c.last ≤ root.last)
    (before : ∀ d ∈ rest, c.last < d.start) (after : c.last < start) (low : res.start ≤ start)
    (covered : ∀ a, res.start ≤ a → a < start → c.Contains a a) :
    Filled root res children (c :: out) := by
  have behind : ∀ d ∈ out, c.last < d.start := fun d mem =>
    (filled.new d mem).elim (before d) fun new => Nat.lt_of_lt_of_le after new.2.1
  refine ⟨⟨List.pairwise_cons.mpr ⟨behind, filled.ok.sorted⟩,
    List.forall_mem_cons.mpr ⟨range, filled.ok.range⟩, filled.ok.word⟩, ?_, fun r mem => ?_,
    fun a from_ upto => ?_⟩
  · rcases old with rfl | ⟨rfl, _⟩
    · exact filled.kept.cons_cons c
    · exact filled.kept.cons c
  · rcases List.mem_cons.mp mem with rfl | mem
    · rcases old with rfl | ⟨_, new⟩
      · exact .inl (.head _)
      · exact .inr new
    · refine (filled.new r mem).imp (fun there => ?_) fun ⟨flags, from_, upto⟩ =>
        ⟨flags, Nat.le_trans low from_, upto⟩
      rcases old with rfl | ⟨rfl, _⟩
      · exact .tail _ there
      · exact there
  · by_cases here : a < start
    · exact ⟨c, .head _, covered a from_ here⟩
    · obtain ⟨r, mem, at_⟩ := filled.cover a (Nat.le_of_not_lt here) upto
      exact ⟨r, .tail _ mem, at_⟩

/-- The free piece in front of everything that starts at `start` or later. -/
theorem Filled.front (filled : Filled root { res with start := start } rest out)
    (behind : ∀ c ∈ rest, start ≤ c.start) (low : root.start ≤ res.start) (free : res.start < start)
    (high : start ≤ res.last + 1) (within : res.last ≤ root.last) :
    Filled root res rest ({ res with last := start - 1 } :: out) := by
  refine filled.cons (.inr ⟨rfl, rfl, Nat.le_refl _, ?_⟩) ?_ (fun d mem => ?_) ?_
    (Nat.le_of_lt free) fun a from_ upto => ⟨from_, Nat.le_sub_one_of_lt upto⟩
  all_goals dsimp only
  · omega
  · omega
  · have := behind d mem
    omega
  · omega

theorem Filled.whole (ok : Siblings root rest) (behind : ∀ c ∈ rest, res.last < c.start)
    (region : root.start ≤ res.start ∧ res.start ≤ res.last ∧ res.last ≤ root.last) :
    Filled root res rest (res :: rest) := by
  have none : Filled root { res with start := res.last + 1 } rest rest :=
    .empty ok (Nat.lt_succ_self _)
  exact none.front behind region.1 (by omega) (Nat.le_refl _) region.2.2

theorem fill_filled (ok : Siblings root rest)
    (region : root.start ≤ res.start ∧ res.start ≤ res.last ∧ res.last ≤ root.last) :
    Filled root res rest (fill res rest) := by
  induction rest generalizing res with
  | nil => exact .whole ok (by simp) region
  | cons c rest ih =>
    have size := ok.range c (.head _)
    have behind := (List.pairwise_cons.mp ok.sorted).1
    have order : ∀ d ∈ c :: rest, c.start ≤ d.start := by
      refine List.forall_mem_cons.mpr ⟨Nat.le_refl _, fun d mem => ?_⟩
      have := behind d mem
      omega
    rw [fill]
    by_cases ahead : res.last < c.start
    · rw [if_pos ahead]
      exact .whole ok (fun d mem => Nat.lt_of_lt_of_le ahead (order d mem)) region
    rw [if_neg ahead]
    by_cases passed : c.last < res.start
    · rw [if_pos passed]
      exact (ih ok.tail region).cons (.inl rfl) size behind passed (Nat.le_refl _) (by omega)
    rw [if_neg passed]
    have inner : Filled root { res with start := c.last + 1 } rest
        (if c.last < res.last then fill { res with start := c.last + 1 } rest else rest) := by
      split
      · exact ih ok.tail (by dsimp only; omega)
      · exact .empty ok.tail (by dsimp only; omega)
    by_cases free : res.start < c.start
    · have here : Filled root { res with start := c.start } (c :: rest) _ :=
        .cons inner (.inl rfl) size behind (Nat.lt_succ_self _) (Nat.le_succ_of_le size.2.1)
          fun a low high => ⟨low, Nat.le_of_lt_succ high⟩
      rw [if_pos free]
      exact here.front order region.1 free (by omega) region.2.2
    · rw [if_neg free]
      exact inner.cons (.inl rfl) size behind (Nat.lt_succ_self _) (by omega) fun a low high =>
        ⟨by omega, by omega⟩

end Linux318.Source.Kernel
