import Linux318.Lib.Run
import Linux318.Source.Mm.MemblockCalls

/-!
# memblock: the regions are the memory that the calls have left

Source: mm/memblock.c. Every call changes the covered addresses and their attributes as its name
says. The array of the reserved type is kept in reserved memory, so that its resizing shows in the
type itself; it is there that a call may meet a `BUG_ON`.
-/
namespace Linux318.Guarantees
open Lib Lib.Block Source.Mm List

variable {n : Nat} {mb : Memblock} {event : MemblockEvent}

/-- A call, with the answers of the environment to the searches for memory, or a step of booting. -/
inductive MemblockEvent where
  | addRange (searches : List Search) (ty : Which) (base size : Nat) (attr : RegionAttr)
  | removeRange (searches : List Search) (ty : Which) (base size : Nat)
  | markHotplug (searches : List Search) (base size : Nat)
  | clearHotplug (searches : List Search) (base size : Nat)
  | setNode (searches : List Search) (ty : Which) (base size : Nat) (nid : Int)
  | allowResize
  | slabAvailable
  | setCurrentLimit (limit : Nat)
  deriving DecidableEq, Repr

def memblockCall (mb : Memblock) : MemblockEvent → Outcome
  | .addRange searches ty base size attr => memblockAddRange mb searches ty base size attr
  | .removeRange searches ty base size => memblockRemoveRange mb searches ty base size
  | .markHotplug searches base size => memblockMarkHotplug mb searches base size
  | .clearHotplug searches base size => memblockClearHotplug mb searches base size
  | .setNode searches ty base size nid => memblockSetNode mb searches ty base size nid
  | .allowResize => .ok (.zero, { mb with canResize := true }, [])
  | .slabAvailable => .ok (.zero, { mb with slab := true }, [])
  | .setCurrentLimit limit => .ok (.zero, { mb with currentLimit := limit }, [])

def memblockNext (state : Except MemblockBug Memblock) (event : MemblockEvent) :
    Except MemblockBug Memblock :=
  match state with
  | .error bug => .error bug
  | .ok mb =>
    match memblockCall mb event with
    | .error bug => .error bug
    | .ok (_, after, _) => .ok after

def memblockRun (events : List MemblockEvent) : Except MemblockBug Memblock :=
  runFrom memblockNext (.ok initMemblock) events

/-- Every event of the run meets the condition in the state that it finds. -/
def Admits (condition : Memblock → MemblockEvent → Prop) (events : List MemblockEvent) : Prop :=
  StepsMeet memblockNext (fun state event => ∀ mb, state = .ok mb → condition mb event)
    (.ok initMemblock) events

theorem memOk_init : MemOk initMemblock := by
  have ok : TypeOk initType :=
    ⟨.inl ⟨_, rfl⟩, pairwise_singleton _ _, by simp [initType, top], rfl, by decide, by decide⟩
  intro ty
  cases ty <;> exact ok

/-- The comb: a region of 8 bytes in each 64 KiB. -/
def tooth (k : Nat) : MemblockRegion := ⟨0x10000 * k + 0x10, 8, noAttr⟩

def teeth (n : Nat) : List MemblockRegion := (List.range n).map fun i => tooth (128 - n + i)

/-- Memory up to the end of the last tooth, of which the last `n` teeth are reserved. -/
def combed (n : Nat) : Memblock :=
  { initMemblock with
    memory := withRegions initType [⟨0, 0x7f0018, ⟨0, 0⟩⟩]
    reserved := withRegions initType (teeth n) }

def combEvents (n : Nat) : List MemblockEvent :=
  .addRange [] .memory 0 0x7f0018 ⟨0, 0⟩ ::
    (List.range n).map fun i => .addRange [] .reserved (tooth (127 - i)).base 8 noAttr

theorem memblockRun_comb : memblockRun (combEvents 127) = .ok (combed 127) := by
  decide +kernel

/-- All 128 entries of the static array are used, and the array may be resized. -/
def fillArray : List MemblockEvent :=
  combEvents 127 ++ [.addRange [] .reserved 0 8 noAttr, .allowResize]

theorem memblockRun_fillArray (events : List MemblockEvent) :
    memblockRun (fillArray ++ events) = runFrom memblockNext (.ok (combed 127))
      (.addRange [] .reserved 0 8 noAttr :: .allowResize :: events) := by
  have comb := memblockRun_comb
  rw [memblockRun, runFrom] at comb ⊢
  rw [fillArray, append_assoc, foldl_append, comb]
  rfl

namespace MemblockEvent

def ty : MemblockEvent → Which
  | addRange _ ty _ _ _ => ty
  | removeRange _ ty _ _ => ty
  | setNode _ ty _ _ _ => ty
  | _ => .memory

def searches : MemblockEvent → List Search
  | addRange searches _ _ _ _ => searches
  | removeRange searches _ _ _ => searches
  | markHotplug searches _ _ => searches
  | clearHotplug searches _ _ => searches
  | setNode searches _ _ _ _ => searches
  | _ => []

def need (mb : Memblock) : MemblockEvent → Nat
  | addRange _ ty base size _ => missing mb ty base size
  | _ => 2

/-- What a call is for. The range ends at the last address at most. -/
def op (map : AttrMap) : MemblockEvent → AttrMap
  | addRange _ _ base size attr => map.add base (base + min size (2 ^ 64 - 1 - base)) attr
  | removeRange _ _ base size => map.drop base (base + min size (2 ^ 64 - 1 - base))
  | markHotplug _ base size => map.change base (base + min size (2 ^ 64 - 1 - base)) fun attr =>
      { attr with flags := attr.flags ||| memblockHotplug }
  | clearHotplug _ base size => map.change base (base + min size (2 ^ 64 - 1 - base)) fun attr =>
      { attr with flags := attr.flags &&& 0xfffffffffffffffe }
  | setNode _ _ base size nid => map.change base (base + min size (2 ^ 64 - 1 - base)) fun attr =>
      { attr with nid := nid }
  | _ => map

end MemblockEvent

/-- The effect of a call that returned 0. A call that finds no room in its array resizes that first,
which shows in the reserved type. -/
structure Follows (mb : Memblock) (event : MemblockEvent) (after : Memblock) : Prop where
  memory : after.memory.map = if event.ty = .memory then event.op mb.memory.map else mb.memory.map
  reserved : ∃ mid, Resizes event.ty mb mid ∧ (HasRoom mb event.ty (event.need mb) → mid = mb) ∧
    after.reserved.map =
      if event.ty = .reserved then event.op mid.reserved.map else mid.reserved.map

/-- The array has room for the regions to add, or freeing it would not empty the type. -/
def KeepsFilled (mb : Memblock) : MemblockEvent → Prop
  | .addRange _ ty base size _ => HasRoom mb ty (missing mb ty base size) ∨ Steady mb ty
  | _ => True

theorem follows_of_acts {after : Memblock}
    (acts : Acts mb event.ty (event.need mb) (fun map => event.op map) .zero after) :
    Follows mb event after := by
  obtain ⟨mid, resizes, same, ⟨failed, _⟩ | ⟨_, regions, rfl, map⟩⟩ := acts
  · cases failed
  have memory : mid.memory.map = mb.memory.map := by
    simp only [MemblockType.map, resizes.kept.1]
  refine ⟨?_, mid, resizes, same, ?_⟩ <;> cases which : event.ty <;> rw [which] at map
  · rw [if_pos rfl, ← memory]
    exact map
  · exact memory
  · rfl
  · exact map

/-- A call comes back with well-formed types, and has done what it is for. -/
theorem memblockCall_spec {after : Memblock} (ok : MemOk mb)
    (filled : KeepsFilled mb event) {err : MemblockErr} {rest : List Search}
    (res : memblockCall mb event = .ok (err, after, rest)) :
    MemOk after ∧ (err = .zero → Follows mb event after) := by
  -- the steps of booting keep all regions
  have booted (memory : after.memory = mb.memory) (reserved : after.reserved = mb.reserved)
      (here : event.ty = .memory) (idle : ∀ map, event.op map = map) :
      MemOk after ∧ (err = .zero → Follows mb event after) := by
    refine ⟨fun ty => ?_, fun _ => ⟨?_, mb, .refl mb, fun _ => rfl, ?_⟩⟩
    · cases ty
      · rw [type_memory, memory]
        exact ok .memory
      · rw [type_reserved, reserved]
        exact ok .reserved
    · rw [if_pos here, idle, memory]
    · rw [if_neg (by simp [here]), reserved]
  have roomOk := roomOk_makeRoom event.searches.length
  cases event with
  | addRange searches ty base size attr =>
    obtain ⟨ok', acts⟩ := addRangeWith_spec roomOk ok filled res
    exact ⟨ok', fun zero => follows_of_acts (zero ▸ acts)⟩
  | removeRange searches ty base size =>
    obtain ⟨ok', acts⟩ := isolateRangeWith_spec actOk_remove roomOk ok res
    exact ⟨ok', fun zero => follows_of_acts (zero ▸ acts)⟩
  | markHotplug | clearHotplug | setNode =>
    obtain ⟨ok', acts⟩ := isolateRangeWith_spec (actOk_change _) roomOk ok res
    exact ⟨ok', fun zero => follows_of_acts (zero ▸ acts)⟩
  | allowResize | slabAvailable | setCurrentLimit =>
    obtain ⟨_, rfl, _⟩ := outcome_inj rfl res
    exact booted rfl rfl rfl fun _ => rfl

/-- Every call keeps both arrays in order. -/
theorem memOk_next {condition : Memblock → MemblockEvent → Prop}
    (keeps : ∀ mb event, condition mb event → KeepsFilled mb event)
    (state : Except MemblockBug Memblock) (event : MemblockEvent)
    (before : ∀ mb, state = .ok mb → MemOk mb) (meets : ∀ mb, state = .ok mb → condition mb event) :
    ∀ mb, memblockNext state event = .ok mb → MemOk mb := by
  intro mb' next
  cases state with
  | error bug => cases next
  | ok mb =>
    simp only [memblockNext] at next
    split at next
    · cases next
    rename_i err after rest res
    obtain rfl : after = mb' := Except.ok.inj next
    exact (memblockCall_spec (before mb rfl) (keeps mb event (meets mb rfl)) res).1

/-- A region is reserved in empty memory, and then a part of it is freed. -/
def reserveFree : List MemblockEvent :=
  [.addRange [] .memory 0 0x10000 ⟨0, 0⟩, .addRange [] .reserved 0x1000 0x1000 noAttr]

/-- The call finds the entries that it needs, also when it has to resize an array. -/
def HasEntries (mb : Memblock) : MemblockEvent → Prop
  | .addRange _ .memory base size _ =>
    HasRoom mb .memory (missing mb .memory base size) ∨ HasRoom mb .reserved 6
  | .addRange _ .reserved base size _ =>
    HasRoom mb .reserved (missing mb .reserved base size) ∨
      (missing mb .reserved base size + 5 ≤ mb.reserved.max ∧ Steady mb .reserved)
  | .removeRange _ .reserved base size =>
    mb.slab = false → AvoidsArrays mb base size ∧ (HasRoom mb .reserved 2 ∨ base ≠ 0)
  | .setNode _ .reserved _ _ _ => True
  | .removeRange _ .memory _ _ => HasRoom mb .memory 2 ∨ HasRoom mb .reserved 3
  | .markHotplug _ _ _ => HasRoom mb .memory 2 ∨ HasRoom mb .reserved 3
  | .clearHotplug _ _ _ => HasRoom mb .memory 2 ∨ HasRoom mb .reserved 3
  | .setNode _ .memory _ _ _ => HasRoom mb .memory 2 ∨ HasRoom mb .reserved 3
  | .allowResize => True
  | .slabAvailable => True
  | .setCurrentLimit _ => True

theorem memblockCall_total (inv : MemblockOk mb) (entries : HasEntries mb event) :
    Returns (memblockCall mb event) := by
  cases event with
  | addRange searches ty base size attr =>
    cases ty with
    | memory => exact entries.elim (addRange_fits inv) (addRange_memory inv)
    | reserved =>
      exact entries.elim (addRange_fits inv) fun spare => addRange_reserved inv spare.2 spare.1
  | removeRange searches ty base size =>
    cases ty with
    | memory => exact isolateRange_memory actOk_remove inv entries
    | reserved => exact removeRange_reserved inv entries
  | markHotplug | clearHotplug => exact isolateRange_memory (actOk_change _) inv entries
  | setNode searches ty base size nid =>
    cases ty with
    | memory => exact isolateRange_memory (actOk_change _) inv entries
    | reserved => exact changeRange_reserved _ inv
  | allowResize | setCurrentLimit => exact ⟨_, _, _, rfl, inv.congr rfl rfl id⟩
  | slabAvailable => exact ⟨_, _, _, rfl, inv.congr rfl rfl fun none => by cases none⟩

theorem memblockOk_init : MemblockOk initMemblock := by
  have none (ty : Which) (a : Nat) : ¬InStorage (initMemblock.type ty) a := by
    rintro ⟨lo, hi, found, _⟩
    cases ty <;> cases found
  refine ⟨memOk_init, fun _ => ⟨fun ty => ?_, fun ty a inside => absurd inside (none ty a), ?_⟩⟩
  · cases ty <;> rfl
  · exact fun a inside => absurd inside (none .memory a)

/-- In every run in which the calls find the entries that they need, every call comes back, and
both types are well formed: the regions are not empty, in order and disjoint, they do not wrap,
neighbours that touch have other attributes, the total is exact and the array holds them. -/
theorem memblockRun_ok (events : List MemblockEvent) (entries : Admits HasEntries events) :
    ∃ mb, memblockRun events = .ok mb ∧ TypeOk mb.memory ∧ TypeOk mb.reserved := by
  have kept (state : Except MemblockBug Memblock) (event : MemblockEvent)
      (before : ∃ mb, state = .ok mb ∧ MemblockOk mb)
      (meets : ∀ mb, state = .ok mb → HasEntries mb event) :
      ∃ mb, memblockNext state event = .ok mb ∧ MemblockOk mb := by
    obtain ⟨mb, rfl, inv⟩ := before
    obtain ⟨err, after, rest, result, inv'⟩ := memblockCall_total inv (meets mb rfl)
    exact ⟨after, by simp only [memblockNext, result], inv'⟩
  obtain ⟨mb, reached, inv⟩ := runFrom_invariant memblockNext kept events _
    ⟨initMemblock, rfl, memblockOk_init⟩ entries
  exact ⟨mb, reached, inv.types .memory, inv.types .reserved⟩

/-- Regions are split and merged, and a part of a reserved one is freed. -/
theorem memblockRun_ok_hotplug : ∃ mb, memblockRun
    [.addRange [] .memory 0 0x10000 ⟨0, 0⟩, .markHotplug [] 0x1000 0x1000,
      .addRange [] .reserved 0x1000 0x1000 noAttr, .removeRange [] .reserved 0x1800 0x100] = .ok mb ∧
    TypeOk mb.memory ∧ TypeOk mb.reserved := by
  refine memblockRun_ok _ ⟨fun mb here => ?_, fun mb here => ?_, fun mb here => ?_, fun mb here => ?_,
    trivial⟩ <;> cases here
  · exact .inl (by decide)
  · exact .inl (by decide)
  · exact .inl (by decide)
  · refine fun _ => ⟨fun ty a inside => ?_, .inl (by decide)⟩
    obtain ⟨lo, hi, found, _⟩ := inside
    cases ty <;> cases found

/-- The whole memory is reserved when the array is full. The new array lies in a gap of the area,
which makes one more gap than was counted. -/
theorem reserve_all_insertRegion :
    memblockRun (fillArray ++ [.addRange [⟨0, 0x7ee000, 0⟩] .reserved 0 0x7f0018 noAttr]) =
      .error .insertRegion := by
  rw [memblockRun_fillArray]
  decide +kernel

end Linux318.Guarantees
