import Linux318.Guarantees.VmaMerge

/-!
# `vma_merge` when it returns NULL

Source: mm/mmap.c; `anon_vma_clone` of mm/rmap.c may fail. The vmas keep their ranges and offsets,
unless the second pass of `vma_adjust` fails: then the first pass has removed a vma already.
-/
namespace Linux318.Guarantees.VmaMerge
open List Lib Source.Mmap

def outline (vma : Vma) : Nat × Nat × Nat := (vma.vmStart, vma.vmEnd, vma.vmPgoff)

/-- A call of `vma_adjust` over two vmas, of which only the second has an `anon_vma`. -/
def FailsLate (clone : Nat → Nat) (vma : Vma) (back : List Vma) (vmEnd : Nat) : Prop :=
  ∃ next last rest, back = next :: last :: rest ∧ next.vmEnd < vmEnd ∧ vma.anonVma = none ∧
    next.anonVma = none ∧ last.anonVma ≠ none ∧ clone 1 ≠ 0

/-- Case 6 of `vma_merge` in such a call: the vma in front grows over the range and the next vma. -/
def LastCloneFails (clone : Nat → Nat) (prev : Option Vma) (back : List Vma) (r : MergeRequest) :
    Prop :=
  r.vmFlags &&& vmSpecial = 0 ∧ ∃ p, mergesAfter prev r = some p ∧
    FailsLate clone p back ((((mergesBefore (mergeNext back r) r).filter fun next =>
      isMergeableAnonVma p.anonVma next.anonVma none).map Vma.vmEnd).getD r.reqEnd)

section Null
variable {clone : Nat → Nat} {front back rest : List Vma} {vma next : Vma}
  {start vmEnd pgoff : Nat} {adjusted : Adjusted}

theorem outline_importAnon (importer exporter : Vma) (err : Nat) :
    outline (importAnon importer exporter err).1 = outline importer := by
  have same := importAnon_alike importer exporter err
  rw [outline, same.start, same.ends, same.pgoff, outline]

theorem importAnon_fails {importer exporter : Vma} {err : Nat}
    (fails : (importAnon importer exporter err).2 ≠ 0) :
    exporter.anonVma ≠ none ∧ importer.anonVma = none ∧ err ≠ 0 := by
  grind [importAnon, Option.isNone_iff_eq_none]

/-- A vma that has imported is left without an `anon_vma` only if there was none. -/
theorem importAnon_none {importer exporter : Vma} {err : Nat}
    (done : (importAnon importer exporter err).2 = 0)
    (without : (importAnon importer exporter err).1.anonVma = none) :
    importer.anonVma = none ∧ exporter.anonVma = none := by
  grind [importAnon, Option.isNone_iff_eq_none, Option.isSome_iff_ne_none]

theorem removeNext_null (late : ¬ FailsLate clone vma (next :: rest) vmEnd)
    (sorted : (next :: rest).Pairwise fun a b => a.vmEnd ≤ b.vmEnd)
    (res : removeNext clone start pgoff front (next :: rest) vma vmEnd 0 = some adjusted)
    (fails : adjusted.err ≠ 0) :
    adjusted.vmas.map outline = (front ++ vma :: next :: rest).map outline := by
  rw [removeNext] at res
  have same := outline_importAnon vma next (clone 0)
  have without := @importAnon_none vma next (clone 0)
  generalize importAnon vma next (clone 0) = imported at *
  obtain ⟨vma', err⟩ := imported
  dsimp only at res same without
  split at res
  · obtain rfl := Option.some.inj res
    simp [same]
  rename_i done
  split at res
  · rename_i more
    cases rest with
    | nil => cases res
    | cons last rest =>
      have le := (pairwise_cons.mp sorted).1 last mem_cons_self
      rw [removeNext] at res
      generalize imports : importAnon _ last (clone 1) = imported at res
      obtain ⟨vma'', err'⟩ := imported
      dsimp only at res
      split at res
      · rename_i second
        have := importAnon_fails (by rw [imports]; exact second)
        obtain ⟨mine, its⟩ := without (not_not.mp done) this.2.1
        exact absurd ⟨next, last, rest, rfl, more, mine, its, this.1, this.2.2⟩ late
      rw [if_neg (by omega)] at res
      obtain rfl := Option.some.inj res
      exact absurd rfl fails
  · obtain rfl := Option.some.inj res
    exact absurd rfl fails

theorem vmaAdjust_null (late : ¬ FailsLate clone vma back vmEnd)
    (sorted : back.Pairwise fun a b => a.vmEnd ≤ b.vmEnd)
    (res : vmaAdjust clone front vma back start vmEnd pgoff none = some adjusted)
    (fails : adjusted.err ≠ 0) :
    adjusted.vmas.map outline = (front ++ vma :: back).map outline := by
  cases back with
  | nil =>
    obtain rfl := Option.some.inj res
    exact absurd rfl fails
  | cons next rest =>
    rw [vmaAdjust] at res
    split at res
    · exact removeNext_null late sorted res fails
    dsimp only at res
    split_ifs at res <;> obtain rfl := Option.some.inj res
    · simp [outline_importAnon]
    · exact absurd rfl fails
    · simp [outline_importAnon]
    · exact absurd rfl fails
    · exact absurd rfl fails

/-- The first pass has removed a vma when the second one fails. -/
theorem vmaAdjust_failsLate (late : FailsLate clone vma back vmEnd) :
    ∃ adjusted, vmaAdjust clone front vma back start vmEnd pgoff none = some adjusted ∧
      adjusted.err ≠ 0 ∧ adjusted.vmas.length < (front ++ vma :: back).length := by
  obtain ⟨next, last, rest, rfl, more, mine, its, there, fails⟩ := late
  obtain ⟨anon, there⟩ := Option.ne_none_iff_exists'.mp there
  have first : importAnon vma next (clone 0) = (vma, 0) := by simp [importAnon, its]
  let moved : Vma := { vma with vmStart := start, vmEnd := next.vmEnd, vmPgoff := pgoff }
  have second : importAnon moved last (clone 1) =
      ({ moved with anonVma := none, anonVmaChain := 0 }, clone 1) := by
    simp [importAnon, there, fails, show moved.anonVma = none from mine]
  refine ⟨⟨clone 1, front ++ { moved with anonVma := none, anonVmaChain := 0 } :: last :: rest⟩, ?_,
    fails, by simp⟩
  rw [vmaAdjust, if_pos more.le, removeNext, first]
  dsimp only
  rw [if_neg (not_not.mpr rfl), if_pos more, removeNext, second]
  exact if_pos fails

def NullKeeps (result : Option Merged) (vmas : List Vma) : Prop :=
  ∀ merged, result = some merged → merged.vma = none → merged.vmas.map outline = vmas.map outline

theorem nullKeeps_adjust (sorted : back.Pairwise fun a b => a.vmEnd ≤ b.vmEnd) (place : Nat) :
    NullKeeps ((vmaAdjust clone front vma back start vmEnd pgoff none).map (·.merged place))
      (front ++ vma :: back) ↔ ¬ FailsLate clone vma back vmEnd := by
  constructor
  · intro keeps late
    obtain ⟨adjusted, res, fails, lt⟩ := vmaAdjust_failsLate late
    have null : adjusted.merged place = ⟨none, adjusted.vmas⟩ := if_pos fails
    have same := keeps _ (by rw [res, Option.map_some, null]) rfl
    have same := congrArg length same
    rw [length_map, length_map] at same
    exact absurd same lt.ne
  · intro late merged res null
    obtain ⟨adjusted, found, rfl⟩ := Option.map_eq_some_iff.mp res
    by_cases fails : adjusted.err ≠ 0
    · rw [Adjusted.merged, if_pos fails]
      exact vmaAdjust_null late sorted found fails
    · rw [Adjusted.merged, if_neg fails] at null
      cases null

end Null

/-- For every address space and every call. -/
theorem vmaMerge_null_iff (clone : Nat → Nat) (front : List Vma) (prev : Option Vma)
    (back : List Vma) (r : MergeRequest) (ok : VmasOk (front ++ prev.toList ++ back)) :
    NullKeeps (vmaMerge clone front prev back r) (front ++ prev.toList ++ back) ↔
      ¬ LastCloneFails clone prev back r := by
  have trivially (vmas : List Vma) : NullKeeps (some ⟨none, vmas⟩) vmas := by
    rintro merged res -
    obtain rfl := Option.some.inj res
    rfl
  obtain ⟨-, behind, across⟩ := pairwise_append.mp ok.sorted
  have proper {a : Vma} (mem : a ∈ back) := (ok.proper (mem_append_right _ mem)).1
  have sorted : back.Pairwise fun a b => a.vmEnd ≤ b.vmEnd :=
    behind.imp_of_mem fun _ there le => le.trans (proper there).le
  rw [vmaMerge]
  split_ifs with special
  · exact iff_of_true (trivially _) fun late => special late.1
  have list (p : Vma) : front ++ (some p).toList ++ back = front ++ p :: back := by simp
  cases after : mergesAfter prev r with
  | some p =>
    obtain ⟨rfl, -⟩ := mergesAfter_spec after
    rw [LastCloneFails, and_iff_right (not_not.mp special), after, list]
    simp only [Option.some.injEq, exists_eq_left']
    generalize (mergesBefore (mergeNext back r) r).filter _ = joins
    cases joins <;> exact nullKeeps_adjust sorted _
  | none =>
    have never : ¬ LastCloneFails clone prev back r := by
      rintro ⟨-, p, some, -⟩
      rw [after] at some
      cases some
    rw [iff_true_right never]
    cases next : mergesBefore (mergeNext back r) r with
    | none => exact trivially _
    | some next =>
      obtain ⟨isNext, -⟩ := mergesBefore_spec next
      cases inside : prev.filter (fun prev => decide (r.addr < prev.vmEnd)) with
      | some p =>
        obtain ⟨rfl, lt⟩ := Option.filter_eq_some_iff.mp inside
        rw [list]
        refine (nullKeeps_adjust sorted _).mpr ?_
        rintro ⟨area, last, rest, rfl, more, -⟩
        have := of_decide_eq_true lt
        have := across p (by simp) area mem_cons_self
        have := proper mem_cons_self
        omega
      | none =>
        cases back with
        | nil => simp [mergeNext] at isNext
        | cons area rest =>
          refine (nullKeeps_adjust (pairwise_cons.mp sorted).2 _).mpr ?_
          rintro ⟨n, last, later, rfl, more, -⟩
          have := (pairwise_cons.mp sorted).1 n mem_cons_self
          rcases mergeNext_spec isNext with ⟨_, eq⟩ | ⟨_, _, eq, _⟩
          · obtain ⟨rfl, -⟩ := cons.inj eq
            omega
          · obtain ⟨-, eq⟩ := cons.inj eq
            obtain ⟨rfl, -⟩ := cons.inj eq
            omega

/-- Three vmas of one file, of which the second is writable and the third has an `anon_vma`. -/
def threeVmas : List Vma :=
  [⟨0x1000, 0x2000, 0, 1, some 1, 0, 0, false, none, 0⟩,
    ⟨0x2000, 0x3000, 1, 3, some 1, 0, 0, false, none, 0⟩,
    ⟨0x3000, 0x4000, 2, 1, some 1, 0, 0, false, some 7, 1⟩]

def makeReadOnly : MergeRequest := ⟨0x2000, 0x3000, 1, none, some 1, 1, 0, 0⟩

/-- NULL is returned with two vmas left of the three. -/
theorem vmaMerge_null_loses : VmasOk threeVmas ∧ RequestOk makeReadOnly ∧
      Placed threeVmas.head? threeVmas.tail makeReadOnly ∧
      vmaMerge (fun _ => 12) [] threeVmas.head? threeVmas.tail makeReadOnly =
        some ⟨none, [⟨0x1000, 0x3000, 0, 1, some 1, 0, 0, false, none, 0⟩,
          ⟨0x3000, 0x4000, 2, 1, some 1, 0, 0, false, some 7, 1⟩]⟩ :=
  ⟨by decide, ⟨by decide, by decide, by decide, by decide, by decide⟩,
    .inNext rfl (by simp [threeVmas, makeReadOnly]) rfl (by decide) rfl, by decide⟩

/-- The upper vma after a fault on a private page -/
def upperAnon : Vma := { upper with anonVma := some 7, anonVmaChain := 1 }

/-- The clone fails in the only pass, so NULL is returned, and both vmas are as before. -/
theorem vmaMerge_null_iff_between :
    vmaMerge (fun _ => 12) [] (some lower) [upperAnon] between = some ⟨none, [lower, upperAnon]⟩ ∧
      (NullKeeps (vmaMerge (fun _ => 12) [] (some lower) [upperAnon] between)
        ([] ++ (some lower).toList ++ [upperAnon]) ↔
          ¬ LastCloneFails (fun _ => 12) (some lower) [upperAnon] between) :=
  ⟨by decide, vmaMerge_null_iff _ [] _ _ _ (by decide)⟩

end Linux318.Guarantees.VmaMerge
