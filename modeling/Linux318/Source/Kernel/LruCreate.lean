import Mathlib.Algebra.Ring.Nat

/-!
`lc_create`, after `lib/lru_cache.c` 99-170: what it allocates, what it frees and which slots of
its element array it uses. `kfree` of NULL does nothing. The contents of the objects and of the
lru_cache are left out.
-/
namespace Linux318.Source.Kernel

inductive LcAlloc where
  | slot
  | element
  | cache
  | object (i : Nat)
  deriving DecidableEq, Repr

/-- What a run has allocated and freed, and the indices of `element` that it has used -/
structure LcTrace where
  allocated : List LcAlloc
  freed : List LcAlloc
  used : List Nat
  deriving DecidableEq, Repr

def lcMaxActive : Nat := 2 ^ 24

/-- The loop that allocates the objects: where it stopped -/
def objectLoop (fails : LcAlloc → Bool) : Nat → Nat → LcTrace → Nat × LcTrace
  | 0, i, t => (i, t)
  | left + 1, i, t =>
    if fails (.object i) then (i, t)
    else objectLoop fails left (i + 1)
      { t with allocated := t.allocated ++ [.object i], used := t.used ++ [i] }

/-- The loop `for (i--; i; i--)` after the first decrement. A slot behind the array holds no
object: there the run ends. -/
def unwindLoop (eCount : Nat) : Nat → LcTrace → Option LcTrace
  | 0, t => some t
  | i + 1, t =>
    if i + 1 < eCount then
      unwindLoop eCount i
        { t with freed := t.freed ++ [.object (i + 1)], used := t.used ++ [i + 1] }
    else none

/-- `lc_create`: whether it returns a cache, and the trace. `tooSmall` says that the objects of
the kmem_cache are smaller than `e_size`. -/
def lcCreate (tooSmall : Bool) (eCount : Nat) (fails : LcAlloc → Bool) : Option (Bool × LcTrace) :=
  if tooSmall then some (false, ⟨[], [], []⟩)
  else if lcMaxActive < eCount then some (false, ⟨[], [], []⟩)
  else if fails .slot then some (false, ⟨[], [], []⟩)
  else if fails .element then some (false, ⟨[.slot], [.slot], []⟩)
  else if fails .cache then some (false, ⟨[.slot, .element], [.element, .slot], []⟩)
  else
    let (i, t) := objectLoop fails eCount 0 ⟨[.slot, .element, .cache], [], []⟩
    if i = eCount then some (true, t)
    else
      (unwindLoop eCount ((i + (2 ^ 32 - 1)) % 2 ^ 32) t).map fun t =>
        (false, { t with freed := t.freed ++ [.cache, .element, .slot] })

theorem objectLoop_eq {i : Nat} (left start : Nat) (t : LcTrace) (le : start ≤ i)
    (lt : i < start + left) : objectLoop (· = .object i) left start t = (i, { t with
      allocated := t.allocated ++ (List.range' start (i - start)).map .object
      used := t.used ++ List.range' start (i - start) }) := by
  induction left generalizing start t with
  | zero => omega
  | succ left ih =>
    rw [objectLoop]
    by_cases here : start = i
    · simp [here]
    · have more : i - start = i - (start + 1) + 1 := by omega
      rw [if_neg (by simpa using here), ih _ _ (by omega) (by omega), more, List.range'_succ]
      simp

/-- The first object is never freed. -/
theorem unwindLoop_kept {eCount i : Nat} {t t' : LcTrace} (kept : .object 0 ∉ t.freed)
    (run : unwindLoop eCount i t = some t') :
    .object 0 ∉ t'.freed ∧ t'.allocated = t.allocated := by
  induction i generalizing t with
  | zero =>
    obtain rfl := Option.some.inj run
    exact ⟨kept, rfl⟩
  | succ i ih =>
    rw [unwindLoop] at run
    split at run
    · have later := ih (by simp [kept]) run
      exact later
    · cases run

end Linux318.Source.Kernel
