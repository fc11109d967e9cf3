import Linux318.Source.Kernel.LruCreate

/-!
# The clean-up of `lc_create`

Source: lib/lru_cache.c. A failing allocation is cleaned up unless it is that of an object.
-/
namespace Linux318.Guarantees
open Source.Kernel

/-- NULL is returned, what was allocated is freed once and nothing else is, and only slots of the
element array are used. -/
def CleansUp (eCount : Nat) (result : Option (Bool × LcTrace)) : Prop :=
  ∃ t, result = some (false, t) ∧ t.freed.Perm t.allocated ∧ t.freed.Nodup ∧ ∀ i ∈ t.used, i < eCount

/-- For every count and every allocation that fails -/
theorem lcCreate_cleansUp_iff (eCount : Nat) (failing : LcAlloc)
    (reached : ∀ i, failing = .object i → i < eCount) :
    CleansUp eCount (lcCreate false eCount (· = failing)) ↔
      lcMaxActive < eCount ∨ ∀ i, failing ≠ .object i := by
  by_cases large : lcMaxActive < eCount
  · rw [lcCreate, if_neg Bool.false_ne_true, if_pos large]
    exact iff_of_true ⟨_, rfl, .nil, .nil, by simp⟩ (.inl large)
  rw [or_iff_right large, lcCreate, if_neg Bool.false_ne_true, if_neg large]
  cases failing with
  | slot => simp [CleansUp]
  | element => simp [CleansUp]
  | cache => simp [CleansUp, List.Perm.swap]
  | object i =>
    refine iff_of_false ?_ (fun none => none i rfl)
    have lt := reached i rfl
    simp only [reduceCtorEq, decide_false, Bool.false_eq_true, if_false, if_neg (Nat.ne_of_lt lt),
      objectLoop_eq eCount 0 _ (Nat.zero_le i) (by simpa using lt)]
    rintro ⟨t, result, perm, -⟩
    obtain ⟨t', run, same⟩ := Option.map_eq_some_iff.mp result
    cases i with
    | zero =>
      -- the index has wrapped
      have behind : ¬ 2 ^ 32 - 2 + 1 < eCount := by
        unfold lcMaxActive at large
        omega
      rw [show (0 + (2 ^ 32 - 1)) % 2 ^ 32 = 2 ^ 32 - 2 + 1 from rfl, unwindLoop, if_neg behind] at run
      cases run
    | succ i =>
      obtain ⟨kept, allocated⟩ := unwindLoop_kept (by simp) run
      obtain rfl := (Prod.mk.inj same).2
      have first : .object 0 ∈ t'.allocated := by simp [allocated]
      have := perm.mem_iff.mpr first
      simp [kept] at this

theorem lcCreate_cleansUp_iff_element : CleansUp 3 (lcCreate false 3 (· = .element)) ↔
      lcMaxActive < 3 ∨ ∀ i, LcAlloc.element ≠ .object i :=
  lcCreate_cleansUp_iff 3 .element (by simp)

/-- Of two objects the first is not freed when the third fails, and a slot far behind the array is
read when the first one fails. -/
theorem lcCreate_leaks : lcCreate false 3 (· = .object 2) = some (false,
      ⟨[.slot, .element, .cache, .object 0, .object 1], [.object 1, .cache, .element, .slot],
        [0, 1, 1]⟩) ∧
      lcCreate false 3 (· = .object 0) = none := by
  refine ⟨by decide, ?_⟩
  decide

end Linux318.Guarantees
