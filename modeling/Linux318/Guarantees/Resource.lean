import Linux318.Source.Kernel.Resource

/-!
# Resources

Source: kernel/resource.c. Which resource `region_is_ram` finds, and what
`__reserve_region_with_split` adds to the tree.
-/
namespace Linux318.Guarantees
open Source.Kernel

variable {root : Resource} {children : List Resource}

def IsRam (p : Resource) : Prop :=
  p.name = "System RAM" ∧ p.flags = ioresourceMem ||| ioresourceBusy

/-- The answer tells what the top-level resource is that contains the region, if there is one. -/
structure Classified (children : List Resource) (start last : Nat) (verdict : Int) : Prop where
  ram : verdict = 1 ↔ ∃ p ∈ children, p.Contains start last ∧ IsRam p
  other : verdict = 0 ↔ ∃ p ∈ children, p.Contains start last ∧ ¬ IsRam p
  none : verdict = -1 ↔ ∀ p ∈ children, ¬ p.Contains start last

/-- The resource that contains the region is found if none ends in front of the region, and is told
right unless it is RAM by its name and has the flags of RAM, or these with the sign extended. -/
theorem regionIsRam_classified_iff (ok : Siblings root children) {start size : Nat}
    (region : 1 ≤ size) (word : start + size ≤ 2 ^ 64) :
    Classified children start (start + size - 1) (regionIsRam children start size) ↔
      ∀ q ∈ children, q.Contains start (start + size - 1) →
        (∀ p ∈ children, start ≤ p.last) ∧
        ¬ (q.name = "System RAM" ∧
          (q.flags = ioresourceMem ||| ioresourceBusy ∨ q.flags = ramFlags)) := by
  have last : (start + size + (2 ^ 64 - 1)) % 2 ^ 64 = start + size - 1 := by omega
  rw [regionIsRam, last]
  by_cases none : ∀ p ∈ children, ¬ p.Contains start (start + size - 1)
  · rw [regionScan_of_none none]
    refine ⟨fun _ q mem inside => absurd inside (none q mem), fun _ => ⟨?_, ?_, by simpa using none⟩⟩
    all_goals simpa using fun p mem inside => absurd inside (none p mem)
  push Not at none
  obtain ⟨q, mem, inside⟩ := none
  have same {p : Resource} (at_ : p ∈ children) (inp : p.Contains start (start + size - 1)) : p = q :=
    ok.unique at_ mem (by omega) inp inside
  have only (P : Resource → Prop) :
      (∃ p ∈ children, p.Contains start (start + size - 1) ∧ P p) ↔ P q :=
    ⟨fun ⟨p, at_, inp, holds⟩ => same at_ inp ▸ holds, fun holds => ⟨q, mem, inside, holds⟩⟩
  have found : ¬ ∀ p ∈ children, ¬ p.Contains start (start + size - 1) :=
    fun none => none q mem inside
  rw [regionScan_of_contains ok mem inside (by omega)]
  have differ : ramFlags ≠ ioresourceMem ||| ioresourceBusy := by decide
  refine ⟨fun told p at_ inp => same at_ inp ▸ ?_, fun right => ?_⟩
  · obtain ⟨ram, _, nothing⟩ := told
    have ahead : ¬ ∃ p ∈ children, p.last < start := by
      intro ahead
      rw [if_pos ahead] at nothing
      exact found (nothing.mp rfl)
    rw [if_neg ahead, only, IsRam, Resource.ramVerdict] at ram
    refine ⟨fun p at_ => Nat.le_of_not_lt fun before => ahead ⟨p, at_, before⟩, ?_⟩
    rintro ⟨name, flags | flags⟩
    · simp [name, flags, differ.symm] at ram
    · simp [name, flags, differ] at ram
  · obtain ⟨front, sign⟩ := right q mem inside
    have ahead : ¬ ∃ p ∈ children, p.last < start :=
      fun ⟨p, at_, before⟩ => absurd before (Nat.not_lt.mpr (front p at_))
    have other : ¬ IsRam q := fun ram => sign ⟨ram.1, .inl ram.2⟩
    have zero : q.ramVerdict = 0 := if_pos (by grind)
    rw [if_neg ahead, zero]
    exact ⟨by simp [only, other], by simp [only, other], by simpa using found⟩

theorem regionIsRam_classified_iff_video :
    Classified [⟨0xa0000, 0xbffff, "Video RAM", 0x200⟩] 0xa0000 0xa0fff
      (regionIsRam [⟨0xa0000, 0xbffff, "Video RAM", 0x200⟩] 0xa0000 0x1000) := by
  have ok : Siblings ⟨0, 2 ^ 64 - 1, "PCI mem", 0x200⟩ [⟨0xa0000, 0xbffff, "Video RAM", 0x200⟩] :=
    ⟨by simp, by simp, by decide⟩
  refine (regionIsRam_classified_iff ok (show 1 ≤ 0x1000 by decide)
    (show 0xa0000 + 0x1000 ≤ 2 ^ 64 by decide)).mpr ?_
  simp

/-- Both defects alone: RAM that is the first resource is not told from other memory, and a
resource behind another one is not found. -/
theorem regionIsRam_misses : regionIsRam [⟨0, 0xfff, "System RAM", 0x80000200⟩] 0 0x1000 = 0 ∧
    regionIsRam [⟨0, 0xfff, "System RAM", 0x80000200⟩, ⟨0x2000, 0x2fff, "Video RAM", 0x200⟩]
      0x2000 0x1000 = -1 := by
  decide

/-- The region is covered exactly by what was there and by busy resources on its free part. The list
is again ordered and disjoint, so that no resource is in it twice. -/
structure Reserved (root : Resource) (children out : List Resource) (start last : Nat) : Prop where
  ok : Siblings root out
  once : ∀ a, start ≤ a → a ≤ last → ∃! r, r ∈ out ∧ r.Contains a a
  kept : children.Sublist out
  busy : ∀ r ∈ out, r ∉ children → r.flags = ioresourceBusy
  exact : ∀ a, (∃ r ∈ out, r ∉ children ∧ r.Contains a a) ↔
    start ≤ a ∧ a ≤ last ∧ ∀ c ∈ children, ¬ c.Contains a a

theorem Filled.reserved {res : Resource} {out : List Resource} (filled : Filled root res children out)
    (busy : res.flags = ioresourceBusy) : Reserved root children out res.start res.last := by
  refine ⟨filled.ok, fun a low high => ?_, filled.kept, fun r mem new => ?_, fun a => ⟨?_, ?_⟩⟩
  · obtain ⟨r, mem, at_⟩ := filled.cover a low high
    exact ⟨r, ⟨mem, at_⟩, fun q ⟨there, inq⟩ => filled.ok.unique there mem (Nat.le_refl a) inq at_⟩
  · exact (((filled.new r mem).resolve_left new).1).trans busy
  · rintro ⟨r, mem, new, at_⟩
    obtain ⟨_, low, high⟩ := (filled.new r mem).resolve_left new
    refine ⟨Nat.le_trans low at_.1, Nat.le_trans at_.2 high, fun c old inc => new ?_⟩
    rwa [filled.ok.unique mem (filled.kept.subset old) (Nat.le_refl a) at_ inc]
  · rintro ⟨low, high, free⟩
    obtain ⟨r, mem, at_⟩ := filled.cover a low high
    exact ⟨r, mem, fun old => free r old at_, at_⟩

/-- The free part of every region is reserved, and the loop ends. -/
theorem reserveRegionWithSplit_reserved (ok : Siblings root children) {start last : Nat}
    (inside : root.Contains start last) (name : String) : ∃ out, (∀ fuel > 2 * children.length,
        reserveRegionWithSplit fuel root children start last name = some out) ∧
      Reserved root children out start last := by
  by_cases region : start ≤ last
  · let res : Resource := ⟨start, last, name, ioresourceBusy⟩
    have walked : Walked root [] children res := ⟨ok, by simp, inside.1, region, inside.2⟩
    exact ⟨fill res children, fun fuel enough => walked.splitLoop_eq enough,
      Filled.reserved (fill_filled ok walked.region) rfl⟩
  refine ⟨children, fun fuel enough => ?_, ⟨ok, by omega, .refl _, fun r mem new => absurd mem new, ?_⟩⟩
  · obtain ⟨fuel, rfl⟩ : ∃ n, fuel = n + 1 := ⟨fuel - 1, by omega⟩
    rw [reserveRegionWithSplit, splitLoop, requestResource, if_pos (Nat.lt_of_not_le region)]
    exact if_pos inside
  · intro a
    constructor
    · rintro ⟨r, mem, new, _⟩
      exact absurd mem new
    · omega

theorem reserveRegionWithSplit_reserved_timer : ∃ out,
    (∀ fuel > 2, reserveRegionWithSplit fuel ⟨0, 0xffff, "PCI IO", 0x100⟩
      [⟨0x40, 0x43, "timer0", ioresourceBusy⟩] 0x10 0x5f "reserved" = some out) ∧
    Reserved ⟨0, 0xffff, "PCI IO", 0x100⟩ [⟨0x40, 0x43, "timer0", ioresourceBusy⟩] out 0x10 0x5f := by
  have ok : Siblings ⟨0, 0xffff, "PCI IO", 0x100⟩ [⟨0x40, 0x43, "timer0", ioresourceBusy⟩] :=
    ⟨by simp, by simp, by decide⟩
  exact reserveRegionWithSplit_reserved ok ⟨by decide, by decide⟩ "reserved"

end Linux318.Guarantees
