import Mathlib.Data.List.Chain

/-!
Relations without cycles, when one edge is added.
-/
namespace Linux318.Lib

variable {α : Type} {r r' : α → α → Prop}

def Acyclic (r : α → α → Prop) : Prop := ∀ a, ¬ Relation.TransGen r a a

theorem Acyclic.mono (acyclic : Acyclic r) (sub : ∀ a b, r' a b → r a b) : Acyclic r' :=
  fun a cycle => acyclic a (Relation.TransGen.mono sub _ _ cycle)

/-- A path over one more edge either does not use it, or gets to its source and goes on from
its target. -/
theorem transGen_insert {c b : α} (edges : ∀ x y, r' x y → r x y ∨ (x = c ∧ y = b))
    (free : ¬ Relation.ReflTransGen r b c) {x y : α} (path : Relation.TransGen r' x y) :
    Relation.TransGen r x y ∨ (Relation.ReflTransGen r x c ∧ Relation.ReflTransGen r b y) := by
  induction path with
  | single edge =>
    rcases edges _ _ edge with h | ⟨rfl, rfl⟩
    · exact .inl (.single h)
    · exact .inr ⟨.refl, .refl⟩
  | tail _ edge ih =>
    rcases ih with ih | ⟨hc, hb⟩ <;> rcases edges _ _ edge with h | ⟨rfl, rfl⟩
    · exact .inl (ih.tail h)
    · exact .inr ⟨ih.to_reflTransGen, .refl⟩
    · exact .inr ⟨hc, hb.tail h⟩
    · exact absurd hb free

/-- An edge closes a cycle only if its target already reaches its source. -/
theorem Acyclic.insert (acyclic : Acyclic r) {c b : α}
    (edges : ∀ x y, r' x y → r x y ∨ (x = c ∧ y = b))
    (free : ¬ Relation.ReflTransGen r b c) : Acyclic r' := by
  intro a cycle
  rcases transGen_insert edges free cycle with h | ⟨hc, hb⟩
  · exact acyclic a h
  · exact free (hb.trans hc)

/-- A path of an acyclic relation visits nothing twice. -/
theorem Acyclic.exists_chain (acyclic : Acyclic r) {a b : α} (path : Relation.ReflTransGen r a b) :
    ∃ l, List.IsChain r (a :: l) ∧ (a :: l).getLast (List.cons_ne_nil a l) = b ∧ (a :: l).Nodup := by
  obtain ⟨l, chain, last⟩ := List.exists_isChain_cons_of_relationReflTransGen path
  refine ⟨l, chain, last, ?_⟩
  have ordered : (a :: l).Pairwise (Relation.TransGen r) :=
    List.isChain_iff_pairwise.mp (chain.imp fun _ _ => Relation.TransGen.single)
  refine ordered.imp ?_
  rintro x y path rfl
  exact acyclic x path

end Linux318.Lib
