import Linux318.Source.Ext4.Extents

/-!
The check of the entries of an extent node, after `fs/ext4/extents.c` 373-437. What
`ext4_data_block_valid` knows of the super block is a parameter.
-/
namespace Linux318.Source.Ext4
open List

def lastBlock (ext : Extent) : Nat := (ext.eeBlock + actualLen ext + (2 ^ 32 - 1)) % 2 ^ 32

def validExtent (dataBlockValid : Nat → Nat → Bool) (ext : Extent) : Bool :=
  if actualLen ext = 0 ∨ ext.eeBlock > lastBlock ext then false
  else dataBlockValid ext.pblock (actualLen ext)

/-- The loop over the entries of a leaf, with `s_last_error_block` -/
def validLeafEntries (dataBlockValid : Nat → Nat → Bool) (lastError : Nat) :
    List Extent → Nat → Bool × Nat
  | [], _ => (true, lastError)
  | ext :: rest, prev =>
    if validExtent dataBlockValid ext = false then (false, lastError)
    else if ext.eeBlock ≤ prev ∧ prev ≠ 0 then (false, ext.pblock)
    else validLeafEntries dataBlockValid lastError rest (lastBlock ext)

/-- The entries behind a header: the extents of a leaf, or the blocks of an index node -/
inductive NodeEntries where
  | leaf (extents : List Extent)
  | index (blocks : List Nat)

def validExtentEntries (dataBlockValid : Nat → Nat → Bool) (lastError : Nat) :
    NodeEntries → Bool × Nat
  | .leaf extents => validLeafEntries dataBlockValid lastError extents 0
  | .index blocks => (blocks.all (dataBlockValid · 1), lastError)

def RawExtent (ext : Extent) : Prop := ext.eeBlock < 2 ^ 32 ∧ ext.eeLen < 2 ^ 16

variable {dataBlockValid : Nat → Nat → Bool} {lastError prev : Nat} {ext : Extent}
  {rest leaf : List Extent}

theorem validExtent_spec (raw : RawExtent ext) (valid : validExtent dataBlockValid ext = true) :
    0 < actualLen ext ∧ ext.blockEnd ≤ 2 ^ 32 ∧ lastBlock ext + 1 = ext.blockEnd := by
  have short : actualLen ext < 2 ^ 16 := by
    have := raw.2
    unfold actualLen
    split <;> omega
  have bound := raw.1
  rw [validExtent] at valid
  split_ifs at valid with wrong
  unfold lastBlock at wrong ⊢
  unfold Extent.blockEnd
  omega

/-- What the loop has checked of an entry -/
theorem validLeafEntries_cons (raw : RawExtent ext)
    (accepted : (validLeafEntries dataBlockValid lastError (ext :: rest) prev).1 = true) :
    (0 < actualLen ext ∧ ext.blockEnd ≤ 2 ^ 32 ∧ lastBlock ext + 1 = ext.blockEnd) ∧
      (prev < ext.eeBlock ∨ prev = 0) ∧
      (validLeafEntries dataBlockValid lastError rest (lastBlock ext)).1 = true := by
  rw [validLeafEntries] at accepted
  split_ifs at accepted with invalid overlaps
  refine ⟨validExtent_spec raw (by simpa using invalid), ?_, accepted⟩
  omega

/-- The check for overlaps is complete, unless `prev` is 0 and the next extent begins there. -/
theorem validLeafEntries_spec (raw : ∀ ext ∈ leaf, RawExtent ext)
    (accepted : (validLeafEntries dataBlockValid lastError leaf prev).1 = true) :
    (∀ ext ∈ leaf, 0 < actualLen ext ∧ ext.blockEnd ≤ 2 ^ 32) ∧
      ((prev ≠ 0 ∨ ∀ ext ∈ leaf.head?, ext.eeBlock ≠ 0) →
        (∀ ext ∈ leaf, prev < ext.eeBlock) ∧ leaf.Pairwise (·.blockEnd ≤ ·.eeBlock)) := by
  induction leaf generalizing prev with
  | nil => simp
  | cons ext rest ih =>
    obtain ⟨rawExt, rawRest⟩ := forall_mem_cons.mp raw
    obtain ⟨⟨pos, bound, last⟩, behind, later⟩ := validLeafEntries_cons rawExt accepted
    obtain ⟨fits, order⟩ := ih rawRest later
    refine ⟨forall_mem_cons.mpr ⟨⟨pos, bound⟩, fits⟩, fun starts => ?_⟩
    have some : prev ≠ 0 ∨ ext.eeBlock ≠ 0 := starts.imp_right (· ext rfl)
    have start : ext.eeBlock ≤ lastBlock ext := by unfold Extent.blockEnd at last; omega
    obtain ⟨above, apart⟩ := order (.inl (by omega))
    refine ⟨forall_mem_cons.mpr ⟨by omega, fun e mem => ?_⟩,
      pairwise_cons.mpr ⟨fun e mem => ?_, apart⟩⟩
    all_goals
      have := above e mem
      omega

end Linux318.Source.Ext4
