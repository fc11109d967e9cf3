import Linux318.Source.Ext4.LeafCheck

/-!
# Extent leaves that are accepted

Source: fs/ext4/extents.c. A leaf that passes the check is in order, unless its second extent begins
at block 0.
-/
namespace Linux318.Guarantees
open List Source.Ext4

structure LeafOk (leaf : List Extent) : Prop where
  nonempty : ∀ ext ∈ leaf, 0 < actualLen ext
  bounded : ∀ ext ∈ leaf, ext.blockEnd ≤ 2 ^ 32
  increasing : leaf.Pairwise (·.eeBlock < ·.eeBlock)
  disjoint : leaf.Pairwise (·.blockEnd ≤ ·.eeBlock)

/-- An accepted leaf is in order unless its second extent begins at block 0. -/
theorem validExtentEntries_sound_iff (dataBlockValid : Nat → Nat → Bool) (lastError : Nat)
    (leaf : List Extent) (raw : ∀ ext ∈ leaf, RawExtent ext)
    (accepted : (validExtentEntries dataBlockValid lastError (.leaf leaf)).1 = true) :
    LeafOk leaf ↔ ∀ first second rest, leaf = first :: second :: rest → second.eeBlock ≠ 0 := by
  constructor
  · rintro ok first second rest rfl
    have := (pairwise_cons.mp ok.increasing).1 second mem_cons_self
    omega
  intro starts
  have fits := (validLeafEntries_spec raw accepted).1
  have apart : leaf.Pairwise (·.blockEnd ≤ ·.eeBlock) := by
    cases leaf with
    | nil => exact .nil
    | cons first rest =>
      obtain ⟨rawFirst, rawRest⟩ := forall_mem_cons.mp raw
      obtain ⟨⟨_, _, last⟩, _, later⟩ := validLeafEntries_cons rawFirst accepted
      obtain ⟨above, apart⟩ := (validLeafEntries_spec rawRest later).2 (.inr fun second head => by
        obtain ⟨others, rfl⟩ := head?_eq_some_iff.mp head
        exact starts first second others rfl)
      refine pairwise_cons.mpr ⟨fun e mem => ?_, apart⟩
      have := above e mem
      omega
  refine ⟨fun e mem => (fits e mem).1, fun e mem => (fits e mem).2, ?_, apart⟩
  refine apart.imp_of_mem fun {a b} mem _ le => ?_
  have := (fits a mem).1
  unfold Extent.blockEnd at le
  omega

def zeroAnd (block : Nat) : List Extent := [⟨0, 1, 100⟩, ⟨block, 1, 200⟩]

theorem validExtentEntries_sound_iff_zeroAnd : LeafOk (zeroAnd 1) ↔
    ∀ first second rest, zeroAnd 1 = first :: second :: rest → second.eeBlock ≠ 0 :=
  validExtentEntries_sound_iff (fun _ _ => true) 0 _ (by simp [zeroAnd, RawExtent]) (by decide)

/-- Two extents of block 0 are accepted. -/
theorem validExtentEntries_zeroTwice :
    (validExtentEntries (fun _ _ => true) 0 (.leaf (zeroAnd 0))).1 = true ∧
      ¬ LeafOk (zeroAnd 0) :=
  ⟨by decide, fun ok => by simpa [zeroAnd] using ok.increasing⟩

end Linux318.Guarantees
