import Linux318.Lib.Word64
import Mathlib.Data.List.Basic

/-!
The vmas of an address space and the operations that move their bounds, after `mm/mmap.c`
732-928, 934-1120, 2428-2521 and 2541-2628. An address space is the sequence of its vmas; a
pointer to a vma is its place in the sequence, and `vm_prev` and `vm_next` are its neighbours.
`find_vma` is the first vma that ends above an address. A result is missing after a NULL
dereference or a `BUG`. The file and anon_vma interval trees, uprobes, the `locked_vm` count,
the unlocking of vmas on their way out and the page tables are left out, and so are huge pages.
-/
namespace Linux318.Source.Mmap
open Lib

def pageSize : Nat := 4096

structure Vma where
  vmStart : Nat
  vmEnd : Nat
  vmPgoff : Nat
  vmFlags : Nat
  vmFile : Option Nat
  /-- `shared.anon_name` -/
  sharedName : Nat
  /-- The policy, up to `mpol_equal` -/
  vmPolicy : Nat
  /-- `vm_ops` has a `close`. -/
  hasClose : Bool
  anonVma : Option Nat
  /-- The length of `anon_vma_chain` -/
  anonVmaChain : Nat
  deriving DecidableEq, Repr

def vmaGetAnonName (vma : Vma) : Nat :=
  match vma.vmFile with
  | some _ => 0
  | none => vma.sharedName

def vmaPages (vma : Vma) : Nat := (vma.vmEnd - vma.vmStart) / pageSize

/-- The vmas that end at or below the address, and the others: `find_vma` is the first of
them. -/
def findVma (addr : Nat) (vmas : List Vma) : List Vma × List Vma :=
  vmas.span fun vma => vma.vmEnd ≤ addr

/-- `__insert_vm_struct`, at the place of `find_vma_links` -/
def insertVmStruct (new : Vma) : List Vma → Option (List Vma)
  | [] => some [new]
  | vma :: rest =>
    if new.vmStart < vma.vmEnd then
      if vma.vmStart < new.vmEnd then none else some (new :: vma :: rest)
    else (insertVmStruct new rest).map (vma :: ·)

structure Adjusted where
  err : Nat
  vmas : List Vma
  deriving DecidableEq, Repr

/-- The expanding vma takes the `anon_vma` of the other one; `err` is what `anon_vma_clone`
returns. On a failure it leaves the importer without an `anon_vma` and without a chain. -/
def importAnon (importer exporter : Vma) (err : Nat) : Vma × Nat :=
  if exporter.anonVma.isSome ∧ importer.anonVma.isNone then
    if err = 0 then
      ({ importer with
          anonVma := exporter.anonVma
          anonVmaChain := importer.anonVmaChain + exporter.anonVmaChain }, 0)
    else ({ importer with anonVma := none, anonVmaChain := 0 }, err)
  else (importer, 0)

/-- The label `again`: `clone` has the result of `anon_vma_clone` in each pass. -/
def removeNext (clone : Nat → Nat) (start pgoff : Nat) (front : List Vma) :
    List Vma → Vma → Nat → Nat → Option Adjusted
  | [], _, _, _ => none
  | next :: rest, vma, vmEnd, pass =>
    let (vma, err) := importAnon vma next (clone pass)
    if err ≠ 0 then some ⟨err, front ++ vma :: next :: rest⟩
    else
      let vma := { vma with vmStart := start, vmEnd := next.vmEnd, vmPgoff := pgoff }
      if next.vmEnd < vmEnd then
        removeNext clone start pgoff front rest vma next.vmEnd (pass + 1)
      else some ⟨0, front ++ vma :: rest⟩

def addPages (x : Nat) (pages : Int) : Nat := ((x + pages) % 2 ^ 64).toNat

def moveStart (next : Vma) (adjustNext : Int) : Vma :=
  { next with
    vmStart := addPages next.vmStart (adjustNext * pageSize)
    vmPgoff := addPages next.vmPgoff adjustNext }

/-- `vma_adjust`, for the vma between the two lists -/
def vmaAdjust (clone : Nat → Nat) (front : List Vma) (vma : Vma) (back : List Vma)
    (start vmEnd pgoff : Nat) (insert : Option Vma) : Option Adjusted :=
  let moved (vma : Vma) : Vma := { vma with vmStart := start, vmEnd, vmPgoff := pgoff }
  match insert, back with
  | some new, back =>
    (insertVmStruct new (front ++ moved vma :: back)).map fun vmas => ⟨0, vmas⟩
  | none, [] => some ⟨0, front ++ [moved vma]⟩
  | none, next :: rest =>
    if next.vmEnd ≤ vmEnd then removeNext clone start pgoff front (next :: rest) vma vmEnd 0
    else if next.vmStart < vmEnd then
      let adjustNext : Int := ((vmEnd - next.vmStart) / pageSize : Nat)
      let (vma, err) := importAnon vma next (clone 0)
      if err ≠ 0 then some ⟨err, front ++ vma :: next :: rest⟩
      else some ⟨0, front ++ moved vma :: moveStart next adjustNext :: rest⟩
    else if vmEnd < vma.vmEnd then
      let adjustNext : Int := -((vma.vmEnd - vmEnd) / pageSize : Nat)
      let (next, err) := importAnon next vma (clone 0)
      if err ≠ 0 then some ⟨err, front ++ vma :: next :: rest⟩
      else some ⟨0, front ++ moved vma :: moveStart next adjustNext :: rest⟩
    else some ⟨0, front ++ moved vma :: next :: rest⟩

def vmSoftdirty : Nat := 0x08000000

/-- `VM_IO`, `VM_DONTEXPAND`, `VM_PFNMAP` and `VM_MIXEDMAP` -/
def vmSpecial : Nat := 0x00004000 ||| 0x00040000 ||| 0x00000400 ||| 0x10000000

def hardFlags (flags : Nat) : Nat := flags &&& (2 ^ 64 - 1 - vmSoftdirty)

structure MergeRequest where
  addr : Nat
  reqEnd : Nat
  vmFlags : Nat
  anonVma : Option Nat
  file : Option Nat
  pgoff : Nat
  policy : Nat
  anonName : Nat
  deriving DecidableEq, Repr

def isMergeableVma (vma : Vma) (file : Option Nat) (vmFlags anonName : Nat) : Bool :=
  if (vma.vmFlags ^^^ vmFlags) &&& (2 ^ 64 - 1 - vmSoftdirty) ≠ 0 then false
  else if vma.vmFile ≠ file then false
  else if vma.hasClose then false
  else if vmaGetAnonName vma ≠ anonName then false
  else true

/-- The chain is that of the vma, where one is given. -/
def isMergeableAnonVma (anonVma1 anonVma2 : Option Nat) (chain : Option Nat) : Bool :=
  if (anonVma1.isNone ∨ anonVma2.isNone) ∧ (chain.isNone ∨ chain = some 1) then true
  else anonVma1 = anonVma2

def canVmaMergeBefore (vma : Vma) (r : MergeRequest) (vmPgoff : Nat) : Bool :=
  isMergeableVma vma r.file r.vmFlags r.anonName &&
    isMergeableAnonVma r.anonVma vma.anonVma (some vma.anonVmaChain) && vma.vmPgoff = vmPgoff

def canVmaMergeAfter (vma : Vma) (r : MergeRequest) (vmPgoff : Nat) : Bool :=
  isMergeableVma vma r.file r.vmFlags r.anonName &&
    isMergeableAnonVma r.anonVma vma.anonVma (some vma.anonVmaChain) &&
      add64 vma.vmPgoff (vmaPages vma) = vmPgoff

/-- The place of the vma that is returned, none for NULL -/
structure Merged where
  vma : Option Nat
  vmas : List Vma
  deriving DecidableEq, Repr

def Adjusted.merged (adjusted : Adjusted) (place : Nat) : Merged :=
  if adjusted.err ≠ 0 then ⟨none, adjusted.vmas⟩ else ⟨some place, adjusted.vmas⟩

/-- The vma that the end of the request can be merged in front of: in cases 6, 7 and 8 it is
the one after the next. -/
def mergeNext (back : List Vma) (r : MergeRequest) : Option Vma :=
  match back with
  | [] => none
  | area :: rest => if area.vmEnd = r.reqEnd then rest.head? else some area

def mergesAfter (prev : Option Vma) (r : MergeRequest) : Option Vma :=
  prev.filter fun prev =>
    prev.vmEnd = r.addr && prev.vmPolicy = r.policy && canVmaMergeAfter prev r r.pgoff

def mergesBefore (next : Option Vma) (r : MergeRequest) : Option Vma :=
  next.filter fun next =>
    r.reqEnd = next.vmStart && r.policy = next.vmPolicy &&
      canVmaMergeBefore next r (add64 r.pgoff ((r.reqEnd - r.addr) / pageSize))

/-- `vma_merge` with the vmas up to `prev` and those after it -/
def vmaMerge (clone : Nat → Nat) (front : List Vma) (prev : Option Vma) (back : List Vma)
    (r : MergeRequest) : Option Merged :=
  let vmas := front ++ prev.toList ++ back
  if r.vmFlags &&& vmSpecial ≠ 0 then some ⟨none, vmas⟩
  else
    match mergesAfter prev r, mergesBefore (mergeNext back r) r with
    | some prev, next =>
      let joins := next.filter fun next => isMergeableAnonVma prev.anonVma next.anonVma none
      let vmEnd := match joins with
        | some next => next.vmEnd
        | none => r.reqEnd
      (vmaAdjust clone front prev back prev.vmStart vmEnd prev.vmPgoff none).map
        (·.merged front.length)
    | none, none => some ⟨none, vmas⟩
    | none, some next =>
      match prev.filter fun prev => r.addr < prev.vmEnd with
      | some prev =>
        (vmaAdjust clone front prev back prev.vmStart r.addr prev.vmPgoff none).map
          (·.merged (front.length + 1))
      | none =>
        match back with
        | [] => none
        | area :: rest =>
          (vmaAdjust clone (front ++ prev.toList) area rest r.addr next.vmEnd
            (sub64 next.vmPgoff ((r.reqEnd - r.addr) / pageSize)) none).map
              (·.merged (front ++ prev.toList).length)

/-- `__split_vma`; `fault` is the error of an allocation or of a copy that fails. -/
def splitVma (clone : Nat → Nat) (fault : Nat) (front : List Vma) (vma : Vma) (back : List Vma)
    (addr : Nat) (newBelow : Bool) : Option Adjusted :=
  if fault ≠ 0 then some ⟨fault, front ++ vma :: back⟩
  else if newBelow then
    let new := { vma with vmEnd := addr }
    vmaAdjust clone front vma back addr vma.vmEnd
      (add64 vma.vmPgoff ((addr - new.vmStart) / pageSize)) (some new)
  else
    let new := { vma with
      vmStart := addr
      vmPgoff := add64 vma.vmPgoff ((addr - vma.vmStart) / pageSize) }
    vmaAdjust clone front vma back vma.vmStart addr vma.vmPgoff (some new)

structure Mm where
  vmas : List Vma
  mapCount : Nat
  /-- `sysctl_max_map_count` -/
  maxMapCount : Nat
  /-- `TASK_SIZE` of the process -/
  taskSize : Nat
  deriving DecidableEq, Repr

def einval : Nat := 22

def errNomem : Nat := 12

def pageAlign (len : Nat) : Nat := add64 len (pageSize - 1) / pageSize * pageSize

/-- The vmas after a split, with one more of them when it succeeds -/
def Mm.afterSplit (mm : Mm) (split : Adjusted) : Nat × Mm :=
  if split.err ≠ 0 then (split.err, { mm with vmas := split.vmas })
  else (0, { mm with vmas := split.vmas, mapCount := mm.mapCount + 1 })

/-- `detach_vmas_to_be_unmapped`, where the vmas up to `prev` are the first `kept` ones -/
def detachVmasToBeUnmapped (mm : Mm) (kept unmapEnd : Nat) : Option Mm :=
  match mm.vmas.drop kept with
  | [] => none
  | _ :: rest =>
    let left := rest.dropWhile fun vma => vma.vmStart < unmapEnd
    some { mm with
      vmas := mm.vmas.take kept ++ left
      mapCount := mm.mapCount - (rest.length + 1 - left.length) }

def splitLast (clone : Nat → Nat) (fault : Nat) (mm : Mm) (unmapEnd : Nat) : Option (Nat × Mm) :=
  match findVma unmapEnd mm.vmas with
  | (_, []) => some (0, mm)
  | (front, last :: back) =>
    if last.vmStart < unmapEnd then
      (splitVma clone fault front last back unmapEnd true).map mm.afterSplit
    else some (0, mm)

/-- The part of `do_munmap` behind the first split -/
def unmapFrom (clone : Nat → Nat) (fault : Nat) (mm : Mm) (kept unmapEnd : Nat) :
    Option (Nat × Mm) :=
  (splitLast clone fault mm unmapEnd).bind fun (err, mm) =>
    if err ≠ 0 then some (err, mm)
    else (detachVmasToBeUnmapped mm kept unmapEnd).map fun mm => (0, mm)

/-- `do_munmap`; the faults are those of the first and of the second split. -/
def doMunmap (clone : Nat → Nat) (fault1 fault2 : Nat) (mm : Mm) (start len : Nat) :
    Option (Nat × Mm) :=
  if start % pageSize ≠ 0 ∨ mm.taskSize < start ∨ mm.taskSize - start < len then some (einval, mm)
  else if pageAlign len = 0 then some (einval, mm)
  else
    let unmapEnd := add64 start (pageAlign len)
    match findVma start mm.vmas with
    | (_, []) => some (0, mm)
    | (front, vma :: back) =>
      if unmapEnd ≤ vma.vmStart then some (0, mm)
      else if vma.vmStart < start then
        if unmapEnd < vma.vmEnd ∧ mm.maxMapCount ≤ mm.mapCount then some (errNomem, mm)
        else
          (splitVma clone fault1 front vma back start false).bind fun split =>
            match mm.afterSplit split with
            | (err, mm) =>
              if err ≠ 0 then some (err, mm)
              else unmapFrom clone fault2 mm (front.length + 1) unmapEnd
      else unmapFrom clone fault2 mm front.length unmapEnd

structure PageAttr where
  flags : Nat
  file : Option Nat
  pgoff : Nat
  anonName : Nat
  policy : Nat
  deriving DecidableEq, Repr

def Vma.Covers (vma : Vma) (page : Nat) : Prop := vma.vmStart ≤ page ∧ page < vma.vmEnd

instance (vma : Vma) (page : Nat) : Decidable (vma.Covers page) :=
  inferInstanceAs (Decidable (_ ∧ _))

def Vma.attr (vma : Vma) (page : Nat) : PageAttr where
  flags := vma.vmFlags
  file := vma.vmFile
  pgoff := add64 vma.vmPgoff ((page - vma.vmStart) / pageSize)
  anonName := vmaGetAnonName vma
  policy := vma.vmPolicy

def Maps (vmas : List Vma) (page : Nat) (attr : PageAttr) : Prop :=
  ∃ vma ∈ vmas, vma.Covers page ∧ vma.attr page = attr

structure VmasOk (vmas : List Vma) : Prop where
  sorted : vmas.Pairwise fun a b => a.vmEnd ≤ b.vmStart
  proper {vma : Vma} : vma ∈ vmas → vma.vmStart < vma.vmEnd ∧ vma.vmEnd < 2 ^ 64
  aligned {vma : Vma} : vma ∈ vmas → pageSize ∣ vma.vmStart ∧ pageSize ∣ vma.vmEnd

instance decidableVmasOk (vmas : List Vma) : Decidable (VmasOk vmas) :=
  decidable_of_iff (vmas.Pairwise (fun a b => a.vmEnd ≤ b.vmStart) ∧ ∀ vma ∈ vmas,
      (vma.vmStart < vma.vmEnd ∧ vma.vmEnd < 2 ^ 64) ∧ pageSize ∣ vma.vmStart ∧ pageSize ∣ vma.vmEnd)
    ⟨fun ⟨sorted, all⟩ => ⟨sorted, fun mem => (all _ mem).1, fun mem => (all _ mem).2⟩,
      fun ok => ⟨ok.sorted, fun _ mem => ⟨ok.proper mem, ok.aligned mem⟩⟩⟩

end Linux318.Source.Mmap
