import Linux318.Lib.StableSort

/-!
lib/list_sort.c, 17 to 86: the merges of `list_sort`, on lists that end with NULL.
-/
namespace Linux318.Source.ListSort
open List (mem_cons_of_mem ne_of_not_mem_cons)
open Lib
open Function (update update_of_ne update_self)

structure ListHeads where
  next : Nat → Nat
  prev : Nat → Nat

def getNext (s : ListHeads) (a : Nat) : Option Nat := if a = 0 then none else some (s.next a)

def setNext (s : ListHeads) (a value : Nat) : Option ListHeads :=
  if a = 0 then none else some { s with next := update s.next a value }

def setPrev (s : ListHeads) (a value : Nat) : Option ListHeads :=
  if a = 0 then none else some { s with prev := update s.prev a value }

/-- The loop of `merge`, and the store behind it. -/
def mergeLoop (cmp : Nat → Nat → Int) : Nat → ListHeads → Nat → Nat → Nat → Option ListHeads
  | 0, _, _, _, _ => none
  | rounds + 1, s, tail, a, b =>
    if a ≠ 0 ∧ b ≠ 0 then
      if cmp a b ≤ 0 then do
        let s ← setNext s tail a
        let a ← getNext s a
        let tail ← getNext s tail
        mergeLoop cmp rounds s tail a b
      else do
        let s ← setNext s tail b
        let b ← getNext s b
        let tail ← getNext s tail
        mergeLoop cmp rounds s tail a b
    else setNext s tail (if a ≠ 0 then a else b)

/-- `merge`. The local variable `head` is at an address of its own. -/
def merge (cmp : Nat → Nat → Int) (rounds : Nat) (s : ListHeads) (head a b : Nat) :
    Option (ListHeads × Nat) := do
  let s ← mergeLoop cmp rounds s head a b
  let list ← getNext s head
  some (s, list)

/-- The second loop of `merge_and_restore_back_links`, and the stores behind it. The calls of `cmp`
that only give the client time are left out. -/
def restoreLoop (head : Nat) : Nat → ListHeads → Nat → Option ListHeads
  | 0, _, _ => none
  | rounds + 1, s, tail => do
    let next ← getNext s tail
    let s ← setPrev s next tail
    let tail ← getNext s tail
    let next ← getNext s tail
    if next ≠ 0 then restoreLoop head rounds s tail
    else do
      let s ← setNext s tail head
      setPrev s head tail

/-- The first loop of `merge_and_restore_back_links`, and what is behind it. `bound` is for the
second loop. -/
def mergeRestoreLoop (cmp : Nat → Nat → Int) (bound head : Nat) :
    Nat → ListHeads → Nat → Nat → Nat → Option ListHeads
  | 0, _, _, _, _ => none
  | rounds + 1, s, tail, a, b =>
    if a ≠ 0 ∧ b ≠ 0 then
      if cmp a b ≤ 0 then do
        let s ← setNext s tail a
        let s ← setPrev s a tail
        let a ← getNext s a
        let tail ← getNext s tail
        mergeRestoreLoop cmp bound head rounds s tail a b
      else do
        let s ← setNext s tail b
        let s ← setPrev s b tail
        let b ← getNext s b
        let tail ← getNext s tail
        mergeRestoreLoop cmp bound head rounds s tail a b
    else do
      let s ← setNext s tail (if a ≠ 0 then a else b)
      restoreLoop head bound s tail

def mergeAndRestoreBackLinks (cmp : Nat → Nat → Int) (rounds : Nat) (s : ListHeads) (head a b : Nat) :
    Option ListHeads :=
  mergeRestoreLoop cmp rounds head rounds s head a b

variable {next : Nat → Nat} {s : ListHeads} {l : List Nat} {a : Nat}

theorem getNext_eq (some : a ≠ 0) : getNext s a = .some (s.next a) :=
  if_neg some

theorem setNext_eq {value : Nat} (some : a ≠ 0) :
    setNext s a value = .some { s with next := update s.next a value } := if_neg some

theorem setPrev_eq {value : Nat} (some : a ≠ 0) :
    setPrev s a value = .some { s with prev := update s.prev a value } := if_neg some

def Chain (next : Nat → Nat) : Nat → List Nat → Prop
  | a, [] => a = 0
  | a, x :: l => a = x ∧ x ≠ 0 ∧ Chain next (next x) l

theorem Chain.congr {next' : Nat → Nat} (chain : Chain next a l)
    (same : ∀ x ∈ l, next' x = next x) : Chain next' a l := by
  induction l generalizing a with
  | nil => exact chain
  | cons x l ih =>
    obtain ⟨first, some, rest⟩ := chain
    refine ⟨first, some, ih ?_ fun y mem => same y (mem_cons_of_mem x mem)⟩
    rw [same x List.mem_cons_self]
    exact rest

theorem Chain.eq_zero_iff (chain : Chain next a l) : a = 0 ↔ l = [] := by
  cases l with
  | nil => exact iff_of_true chain rfl
  | cons x l =>
    obtain ⟨rfl, some, _⟩ := chain
    exact iff_of_false some (List.cons_ne_nil _ _)

def cmpLe (cmp : Nat → Nat → Int) (a b : Nat) : Bool := decide (cmp a b ≤ 0)

variable {cmp : Nat → Nat → Int}

/-- Writing the next pointer of a node that is not in a list. -/
theorem Chain.update {next : Nat → Nat} {a tail value : Nat} {l : List Nat} (chain : Chain next a l)
    (out : tail ∉ l) : Chain (update next tail value) a l :=
  chain.congr fun _ mem => update_of_ne (ne_of_mem_of_not_mem mem out) ..

theorem Chain.store {tail : Nat} (chain : Chain next a l) (out : tail ∉ l) :
    Chain (Function.update next tail a) (Function.update next tail a tail) l := by
  rw [update_self]
  exact chain.update out

/-- A round of either loop: the lists are joined because one is empty, or the node `x` is taken. -/
theorem merge_round (cmp : Nat → Nat → Int) {b : Nat} {m : List Nat} (left : Chain next a l)
    (right : Chain next b m) : (¬ (a ≠ 0 ∧ b ≠ 0) ∧ Chain next (if a ≠ 0 then a else b) (l ++ m) ∧
        l.merge m (cmpLe cmp) = l ++ m) ∨
      ∃ x a' b' l' m', (a ≠ 0 ∧ b ≠ 0 ∧ x ≠ 0) ∧ (a ∈ l ++ m ∧ b ∈ l ++ m) ∧
        (cmp a b ≤ 0 ∧ x = a ∧ a' = next a ∧ b' = b ∨
          ¬ cmp a b ≤ 0 ∧ x = b ∧ a' = a ∧ b' = next b) ∧
        Chain next a' l' ∧ Chain next b' m' ∧ (x :: (l' ++ m')).Perm (l ++ m) ∧ l' ++ m' ≠ [] ∧
        l.merge m (cmpLe cmp) = x :: l'.merge m' (cmpLe cmp) := by
  rcases l with _ | ⟨x, l⟩
  · obtain rfl : a = 0 := left
    exact .inl ⟨by simp, right, List.nil_merge ..⟩
  rcases m with _ | ⟨y, m⟩
  · refine .inl ⟨fun both => both.2 right, ?_, ?_⟩
    · rwa [if_pos (left.1 ▸ left.2.1), List.append_nil]
    · rw [List.merge_right, List.append_nil]
  obtain ⟨rfl, someA, restA⟩ := left
  obtain ⟨rfl, someB, restB⟩ := right
  right
  rw [List.cons_merge_cons, cmpLe]
  by_cases first : cmp a b ≤ 0
  · exact ⟨a, _, _, l, b :: m, ⟨someA, someB, someA⟩, by simp, .inl ⟨first, rfl, rfl, rfl⟩, restA,
      ⟨rfl, someB, restB⟩, .refl _, by simp, if_pos (decide_eq_true first)⟩
  · exact ⟨b, _, _, a :: l, m, ⟨someA, someB, someB⟩, by simp, .inr ⟨first, rfl, rfl, rfl⟩,
      ⟨rfl, someA, restA⟩, restB, List.perm_middle.symm, by simp, if_neg (by simpa using first)⟩

theorem mergeLoop_chain {fuel : Nat} {s : ListHeads} {tail a b : Nat} {l m : List Nat}
    (left : Chain s.next a l) (right : Chain s.next b m) (some : tail ≠ 0)
    (nodup : (tail :: (l ++ m)).Nodup) (enough : l.length + m.length < fuel) :
    ∃ s', mergeLoop cmp fuel s tail a b = .some s' ∧
      Chain s'.next (s'.next tail) (l.merge m (cmpLe cmp)) ∧
      ∀ x, x ∉ tail :: (l ++ m) → s'.next x = s.next x := by
  induction fuel generalizing s tail a b l m with
  | zero => omega
  | succ fuel ih =>
    obtain ⟨fresh, apart⟩ := List.nodup_cons.mp nodup
    rw [mergeLoop]
    rcases merge_round cmp left right with ⟨exit, chain, all⟩ |
      ⟨x, a', b', l', m', ⟨someA, someB, someX⟩, ⟨inA, inB⟩, takes, left', right', perm, -, all⟩
    · rw [if_neg exit, setNext_eq some, all]
      exact ⟨_, rfl, chain.store fresh, fun x out => update_of_ne (ne_of_not_mem_cons out) ..⟩
    have notTail : tail ∉ x :: (l' ++ m') := fun mem => fresh (perm.mem_iff.mp mem)
    have lengths := perm.length_eq
    simp only [List.length_cons, List.length_append] at lengths
    obtain ⟨s', run, chain, same⟩ := @ih { s with next := update s.next tail x } x a' b' l' m'
      (left'.update fun mem => notTail (by simp [mem]))
      (right'.update fun mem => notTail (by simp [mem])) someX (perm.nodup_iff.mpr apart) (by omega)
    refine ⟨s', ?_, ?_, fun y out => ?_⟩
    · rw [← run, if_pos ⟨someA, someB⟩]
      simp only [setNext_eq some, getNext_eq some, getNext_eq someA, getNext_eq someB,
        Option.bind_eq_bind, Option.bind_some, update_self,
        update_of_ne (ne_of_mem_of_not_mem inA fresh), update_of_ne (ne_of_mem_of_not_mem inB fresh)]
      rcases takes with ⟨first, rfl, rfl, rfl⟩ | ⟨first, rfl, rfl, rfl⟩
      · rw [if_pos first]
      · rw [if_neg first]
    · rw [all]
      exact ⟨(same tail notTail).trans (update_self ..), someX, chain⟩
    · rw [same y fun mem => out (mem_cons_of_mem _ (perm.mem_iff.mp mem))]
      exact update_of_ne (ne_of_not_mem_cons out) ..

def Link (s : ListHeads) (a b : Nat) : Prop := s.next a = b ∧ s.prev b = a

/-- A circular list with its head and the other nodes. -/
def Circular (s : ListHeads) (head : Nat) (l : List Nat) : Prop :=
  List.IsChain (Link s) (head :: (l ++ [head]))

theorem restoreLoop_links {fuel : Nat} {s : ListHeads} {head tail x : Nat} {l : List Nat}
    (list : Chain s.next (s.next tail) (x :: l)) (some : tail ≠ 0) (someHead : head ≠ 0)
    (nodup : (tail :: x :: l).Nodup) (out : head ∉ x :: l) (enough : l.length < fuel) :
    ∃ s', restoreLoop head fuel s tail = .some s' ∧
      List.IsChain (Link s') (tail :: x :: (l ++ [head])) ∧
      (∀ y, y ∉ x :: l → s'.next y = s.next y) ∧
      ∀ y, y ∉ x :: l → y ≠ head → s'.prev y = s.prev y := by
  induction fuel generalizing s tail x l with
  | zero => omega
  | succ fuel ih =>
    obtain ⟨next, someX, rest⟩ := list
    obtain ⟨fresh, apart⟩ := List.nodup_cons.mp nodup
    simp only [restoreLoop, getNext_eq some, next, setPrev_eq someX, getNext_eq someX,
      Option.bind_eq_bind, Option.bind_some]
    have notTail : tail ≠ x := fun same => fresh (by simp [same])
    have notHead : x ≠ head := fun same => out (by simp [same])
    rcases l with _ | ⟨z, l⟩
    · have exit : ¬ s.next x ≠ 0 := not_not.mpr rest
      rw [if_neg exit, setNext_eq someX]
      simp only [setPrev_eq someHead]
      refine ⟨_, rfl, ?_, ?_, ?_⟩
      · simp [Link, notTail, notHead, next]
      · intro y other
        exact update_of_ne (ne_of_not_mem_cons other) ..
      · intro y other notHead
        simp [notHead, ne_of_not_mem_cons other]
    have more : s.next x ≠ 0 := rest.1 ▸ rest.2.1
    rw [if_pos more]
    obtain ⟨s', run, links, sameNext, samePrev⟩ := @ih
      { s with prev := update s.prev x tail } x z l rest someX apart
      (fun mem => out (mem_cons_of_mem _ mem)) (by simp at enough; omega)
    have notX : x ∉ z :: l := (List.nodup_cons.mp apart).1
    refine ⟨s', run, List.isChain_cons_cons.mpr ⟨⟨?_, ?_⟩, links⟩, ?_, ?_⟩
    · rw [sameNext tail fun mem => fresh (mem_cons_of_mem _ mem)]
      exact next
    · rw [samePrev x notX notHead]
      exact update_self ..
    · exact fun y other => sameNext y fun mem => other (mem_cons_of_mem _ mem)
    · intro y other notHead
      rw [samePrev y (fun mem => other (mem_cons_of_mem _ mem)) notHead]
      exact update_of_ne (ne_of_not_mem_cons other) ..

theorem mergeRestoreLoop_links {fuel bound : Nat} {s : ListHeads} {head tail a b : Nat}
    {l m : List Nat} (left : Chain s.next a l) (right : Chain s.next b m) (some : tail ≠ 0)
    (someHead : head ≠ 0) (nodup : (tail :: (l ++ m)).Nodup) (out : head ∉ l ++ m)
    (nonempty : l ++ m ≠ []) (enough : l.length + m.length < fuel)
    (enough' : l.length + m.length < bound) :
    ∃ s', mergeRestoreLoop cmp bound head fuel s tail a b = .some s' ∧
      List.IsChain (Link s') (tail :: (l.merge m (cmpLe cmp) ++ [head])) ∧
      (∀ y, y ∉ tail :: (l ++ m) → s'.next y = s.next y) ∧
      ∀ y, y ∉ l ++ m → y ≠ head → s'.prev y = s.prev y := by
  induction fuel generalizing s tail a b l m with
  | zero => omega
  | succ fuel ih =>
    obtain ⟨fresh, apart⟩ := List.nodup_cons.mp nodup
    rw [mergeRestoreLoop]
    rcases merge_round cmp left right with ⟨exit, chain, all⟩ |
      ⟨x, a', b', l', m', ⟨someA, someB, someX⟩, ⟨inA, inB⟩, takes, left', right', perm, more, all⟩
    · rw [if_neg exit, setNext_eq some, all]
      obtain ⟨x, k, rest⟩ := List.exists_cons_of_ne_nil nonempty
      have size : k.length < bound := by
        have := congrArg List.length rest
        simp at this
        omega
      rw [rest] at chain fresh nodup out ⊢
      obtain ⟨s', run, links, sameNext, samePrev⟩ := @restoreLoop_links bound
        { s with next := update s.next tail _ } head tail x k (chain.store fresh) some someHead
        nodup out size
      refine ⟨s', run, links, fun y other => ?_, samePrev⟩
      rw [sameNext y fun mem => other (mem_cons_of_mem _ mem)]
      exact update_of_ne (ne_of_not_mem_cons other) ..
    have notTail : tail ∉ x :: (l' ++ m') := fun mem => fresh (perm.mem_iff.mp mem)
    have notHead : head ∉ x :: (l' ++ m') := fun mem => out (perm.mem_iff.mp mem)
    have apart' : (x :: (l' ++ m')).Nodup := perm.nodup_iff.mpr apart
    have lengths := perm.length_eq
    simp only [List.length_cons, List.length_append] at lengths
    obtain ⟨s', run, links, sameNext, samePrev⟩ := @ih
      ⟨update s.next tail x, update s.prev x tail⟩ x a' b' l' m'
      (left'.update fun mem => notTail (by simp [mem]))
      (right'.update fun mem => notTail (by simp [mem])) someX apart'
      (fun mem => notHead (mem_cons_of_mem _ mem)) more (by omega) (by omega)
    rw [all]
    refine ⟨s', ?_, List.isChain_cons_cons.mpr ⟨⟨?_, ?_⟩, links⟩, fun y other => ?_,
      fun y other notHead => ?_⟩
    · rw [← run, if_pos ⟨someA, someB⟩]
      simp only [setNext_eq some, setPrev_eq someA, setPrev_eq someB, getNext_eq some,
        getNext_eq someA, getNext_eq someB, Option.bind_eq_bind, Option.bind_some, update_self,
        update_of_ne (ne_of_mem_of_not_mem inA fresh), update_of_ne (ne_of_mem_of_not_mem inB fresh)]
      rcases takes with ⟨first, rfl, rfl, rfl⟩ | ⟨first, rfl, rfl, rfl⟩
      · rw [if_pos first]
      · rw [if_neg first]
    · exact (sameNext tail notTail).trans (update_self ..)
    · rw [samePrev x (List.nodup_cons.mp apart').1 (Ne.symm (ne_of_not_mem_cons notHead))]
      exact update_self ..
    · rw [sameNext y fun mem => other (mem_cons_of_mem _ (perm.mem_iff.mp mem))]
      exact update_of_ne (ne_of_not_mem_cons other) ..
    · have other' : y ∉ x :: (l' ++ m') := fun mem => other (perm.mem_iff.mp mem)
      rw [samePrev y (fun mem => other' (mem_cons_of_mem _ mem)) notHead]
      exact update_of_ne (ne_of_not_mem_cons other') ..

end Linux318.Source.ListSort
