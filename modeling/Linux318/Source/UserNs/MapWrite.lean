import Linux318.Source.UserNs.IdMap
import Mathlib.Data.Option.Basic

/-!
kernel/user_namespace.c, 556 to 760: the text that is written to a map file is read into extents,
which are checked and translated through the map of the parent.
-/
namespace Linux318.Source.UserNs
open List

variable {newMap accepted : UidGidMap} {e d : UidGidExtent}

/-- `isspace`, from the table of lib/ctype.c. -/
def isspace (c : UInt8) : Bool := (9 ≤ c && c ≤ 13) || c == 32 || c == 160

def skipSpaces (s : List UInt8) : List UInt8 := s.dropWhile isspace

/-- The loop of `_parse_integer` for base 10, with a 64-bit result. An overflow is not reported. -/
def parseInteger (res : Nat) : List UInt8 → Nat × List UInt8
  | [] => (res, [])
  | c :: s =>
    if 48 ≤ c ∧ c ≤ 57 then parseInteger ((res * 10 + (c.toNat - 48)) % 2 ^ 64) s
    else (res, c :: s)

def simpleStrtoul (s : List UInt8) : Nat × List UInt8 := parseInteger 0 s

def parseExtent (line : List UInt8) : Option UidGidExtent := do
  let (first, pos) := simpleStrtoul (skipSpaces line)
  guard (pos.head?.any isspace)
  let (lowerFirst, pos) := simpleStrtoul (skipSpaces pos)
  guard (pos.head?.any isspace)
  let (count, pos) := simpleStrtoul (skipSpaces pos)
  guard (pos.head?.all isspace)
  guard (skipSpaces pos = [])
  some ⟨u32 first, u32 lowerFirst, u32 count⟩

def mappingsOverlap (newMap : UidGidMap) (extent : UidGidExtent) : Bool :=
  newMap.any fun prev =>
    (prev.first ≤ lastId extent.first extent.count ∧ extent.first ≤ lastId prev.first prev.count) ∨
    (prev.lowerFirst ≤ lastId extent.lowerFirst extent.count ∧
      extent.lowerFirst ≤ lastId prev.lowerFirst prev.count)

def uidGidMapMaxExtents : Nat := 5

def nextLine (pos : List UInt8) : Option (List UInt8) :=
  match (pos.dropWhile (· ≠ 10)).tail with
  | [] => none
  | c :: rest => some (c :: rest)

def Acceptable (newMap : UidGidMap) (extent : UidGidExtent) : Prop :=
  extent.first ≠ invalidId ∧ extent.lowerFirst ≠ invalidId ∧
    extent.first < u32 (extent.first + extent.count) ∧
    extent.lowerFirst < u32 (extent.lowerFirst + extent.count) ∧
    mappingsOverlap newMap extent = false

instance (newMap : UidGidMap) (extent : UidGidExtent) : Decidable (Acceptable newMap extent) :=
  inferInstanceAs (Decidable (_ ∧ _))

/-- The loop of `map_write` over the lines, with the number of extents that are free. -/
def parseLines : Nat → List UInt8 → UidGidMap → Option UidGidMap
  | 0, _, _ => none
  | free + 1, pos, newMap => do
    let extent ← parseExtent (pos.takeWhile (· ≠ 10))
    guard (Acceptable newMap extent)
    let newMap := newMap ++ [extent]
    match nextLine pos with
    | none => some newMap
    | some pos => do
      guard (newMap.length ≠ uidGidMapMaxExtents)
      parseLines free pos newMap

/-- The extents of a text, which ends at the first NUL. -/
def parseMap (text : List UInt8) : Option UidGidMap :=
  parseLines uidGidMapMaxExtents (text.takeWhile (· ≠ 0)) []

inductive Errno where
  | EPERM
  | ENOMEM
  | EINVAL
  | EFAULT
  deriving DecidableEq, Repr

inductive IdKind where
  | uid
  | gid
  | projid
  deriving DecidableEq, Repr

structure MapWriteCall where
  text : List UInt8
  ppos : Nat
  /-- `file_ns_capable(file, ns, CAP_SYS_ADMIN)` -/
  adminCapable : Bool
  /-- `cap_setid` over the parent, of the writer and of the opener of the file -/
  parentCapable : Bool
  /-- `uid_eq(ns->owner, cred->euid)` -/
  ownerOpened : Bool
  euid : Nat
  egid : Nat
  /-- `ns->flags & USERNS_SETGROUPS_ALLOWED` -/
  setgroupsAllowed : Bool
  /-- `__get_free_page` gives a page -/
  page : Bool
  /-- `copy_from_user` copies all -/
  copied : Bool

def pageSize : Nat := 4096

/-- `new_idmap_permitted`. Project ids need no capability. -/
def newIdmapPermitted (kind : IdKind) (call : MapWriteCall) (parentMap newMap : UidGidMap) : Bool :=
  (match newMap with
    | [e] => e.count == 1 && call.ownerOpened &&
      match kind with
      | .uid => mapIdDown parentMap e.lowerFirst == call.euid
      | .gid => !call.setgroupsAllowed && mapIdDown parentMap e.lowerFirst == call.egid
      | .projid => false
    | _ => false) ||
  kind == .projid || call.parentCapable

/-- The loop of `map_write` that maps the lower ids to kernel ids. -/
def translate (parentMap : UidGidMap) : UidGidMap → Option UidGidMap
  | [] => some []
  | e :: rest =>
    let lowerFirst := mapIdRangeDown parentMap e.lowerFirst e.count
    if lowerFirst = invalidId then none
    else do
      let rest ← translate parentMap rest
      some ({ e with lowerFirst := lowerFirst } :: rest)

def mapWrite (kind : IdKind) (call : MapWriteCall) (map parentMap : UidGidMap) :
    Except Errno UidGidMap :=
  if map ≠ [] then .error .EPERM
  else if kind ≠ .projid ∧ !call.adminCapable then .error .EPERM
  else if !call.page then .error .ENOMEM
  else if call.ppos ≠ 0 ∨ pageSize ≤ call.text.length then .error .EINVAL
  else if !call.copied then .error .EFAULT
  else
    match parseMap call.text with
    | none => .error .EINVAL
    | some newMap =>
      if newMap = [] then .error .EINVAL
      else if !newIdmapPermitted kind call parentMap newMap then .error .EPERM
      else
        match translate parentMap newMap with
        | none => .error .EPERM
        | some newMap => .ok newMap

/-- A `struct user_namespace`, with its parent in the table of all of them. -/
structure UserNamespace where
  parent : Option Nat
  maps : IdKind → UidGidMap

def initUserNs : UserNamespace := ⟨none, fun _ => [⟨0, 0, 4294967295⟩]⟩

def createUserNs (s : List UserNamespace) (parent : Nat) : List UserNamespace :=
  if parent < s.length then s ++ [⟨some parent, fun _ => []⟩] else s

/-- `proc_uid_map_write`, `proc_gid_map_write` and `proc_projid_map_write`, of the namespace `ns`
by a file that was opened in `seqNs`. -/
def procMapWrite (kind : IdKind) (s : List UserNamespace) (ns seqNs : Nat) (call : MapWriteCall) :
    Except Errno (List UserNamespace) := do
  let some n := s[ns]? | .error .EPERM
  let some parent := n.parent | .error .EPERM
  if seqNs ≠ ns ∧ seqNs ≠ parent then .error .EPERM
  else
    let some p := s[parent]? | .error .EPERM
    let map ← mapWrite kind call (n.maps kind) (p.maps kind)
    .ok (s.set ns { n with maps := Function.update n.maps kind map })

theorem u32_lt (n : Nat) : u32 n < 2 ^ 32 := Nat.mod_lt _ (by decide)

theorem parseExtent_lt {line : List UInt8} (parsed : parseExtent line = some e) :
    e.first < 2 ^ 32 ∧ e.lowerFirst < 2 ^ 32 ∧ e.count < 2 ^ 32 := by
  simp only [parseExtent, Option.bind_eq_bind, Option.bind_eq_some_iff, Option.some.injEq] at parsed
  obtain ⟨_, _, _, _, _, _, _, _, rfl⟩ := parsed
  exact ⟨u32_lt _, u32_lt _, u32_lt _⟩

theorem Acceptable.extentOk (ok : Acceptable newMap e)
    (bounds : e.first < 2 ^ 32 ∧ e.lowerFirst < 2 ^ 32 ∧ e.count < 2 ^ 32) : ExtentOk e := by
  obtain ⟨_, _, upper, lower, _⟩ := ok
  rw [u32] at upper lower
  exact ⟨by omega, by omega, by omega⟩

theorem Acceptable.apart (ok : Acceptable newMap e) (here : ExtentOk e) (there : ExtentOk d)
    (mem : d ∈ newMap) : Apart UidGidExtent.first d e ∧ Apart UidGidExtent.lowerFirst d e := by
  have nodup := any_eq_false.mp ok.2.2.2.2 d mem
  rw [lastId_eq here.nonempty here.upper, lastId_eq here.nonempty here.lower,
    lastId_eq there.nonempty there.upper, lastId_eq there.nonempty there.lower,
    decide_eq_true_iff, not_or] at nodup
  unfold Apart
  omega

theorem MapOk.add (ok : MapOk newMap)
    (accepted : Acceptable newMap e) (here : ExtentOk e) : MapOk (newMap ++ [e]) := by
  refine ⟨?_, ?_, ?_⟩
  · intro d mem
    rcases mem_append.mp mem with mem | mem
    · exact ok.extents d mem
    · obtain rfl := mem_singleton.mp mem
      exact here
  · refine pairwise_append.mpr ⟨ok.upper, pairwise_singleton _ _, fun d mem e' last => ?_⟩
    obtain rfl := mem_singleton.mp last
    exact (accepted.apart here (ok.extents d mem) mem).1
  · refine pairwise_append.mpr ⟨ok.lower, pairwise_singleton _ _, fun d mem e' last => ?_⟩
    obtain rfl := mem_singleton.mp last
    exact (accepted.apart here (ok.extents d mem) mem).2

theorem parseLines_ok {free : Nat} {pos : List UInt8} (ok : MapOk newMap)
    (parsed : parseLines free pos newMap = some accepted) : MapOk accepted := by
  induction free generalizing pos newMap with
  | zero => cases parsed
  | succ free ih =>
    simp only [parseLines, Option.bind_eq_bind, Option.bind_eq_some_iff] at parsed
    obtain ⟨e, read, _, checked, rest⟩ := parsed
    have checked := (Option.guard_eq_some' ..).mp checked
    have ok' := ok.add checked (checked.extentOk (parseExtent_lt read))
    cases next : nextLine pos with
    | none =>
      simp only [next, Option.some.injEq] at rest
      exact rest ▸ ok'
    | some pos' =>
      simp only [next, Option.bind_eq_some_iff] at rest
      obtain ⟨_, _, rest⟩ := rest
      exact ih ok' rest

theorem parseMap_ok {text : List UInt8} (parsed : parseMap text = some accepted) : MapOk accepted :=
  parseLines_ok ⟨fun _ mem => absurd mem not_mem_nil, .nil, .nil⟩ parsed

def translateExtent (parentMap : UidGidMap) (e : UidGidExtent) : UidGidExtent :=
  { e with lowerFirst := mapIdRangeDown parentMap e.lowerFirst e.count }

variable {map : UidGidMap}

theorem translate_eq {parentMap : UidGidMap} (done : translate parentMap newMap = some map) :
    map = newMap.map (translateExtent parentMap) ∧
      ∀ e ∈ newMap, mapIdRangeDown parentMap e.lowerFirst e.count ≠ invalidId := by
  induction newMap generalizing map with
  | nil =>
    cases done
    exact ⟨rfl, fun e mem => absurd mem not_mem_nil⟩
  | cons e newMap ih =>
    rw [translate] at done
    split at done
    · cases done
    rename_i mapped
    simp only [Option.bind_eq_bind, Option.bind_eq_some_iff, Option.some.injEq] at done
    obtain ⟨rest, more, rfl⟩ := done
    obtain ⟨rfl, all⟩ := ih more
    exact ⟨rfl, forall_mem_cons.mpr ⟨mapped, all⟩⟩

/-- The kernel ids of an extent are those of a part of one extent of the parent. -/
def Within (parentMap : UidGidMap) (e : UidGidExtent) : Prop :=
  ∃ d ∈ parentMap, ∃ i, i + e.count ≤ d.count ∧ e.lowerFirst = d.first + i ∧
    (translateExtent parentMap e).lowerFirst = d.lowerFirst + i

section Translate

variable {parentMap : UidGidMap} (parent : MapOk parentMap)
include parent

theorem Within.extentOk (within : Within parentMap e) (ok : ExtentOk e) :
    ExtentOk (translateExtent parentMap e) := by
  obtain ⟨d, mem, i, fits, inner, outer⟩ := within
  have := (parent.extents d mem).lower
  refine ⟨ok.nonempty, ok.upper, ?_⟩
  rw [outer]
  show d.lowerFirst + i + e.count < _
  omega

/-- Separate ranges stay separate: two parts of one extent of the parent because they were, and
parts of two extents because those are separate below. -/
theorem Within.apart (left : Within parentMap d) (right : Within parentMap e)
    (apart : Apart UidGidExtent.lowerFirst d e) :
    Apart UidGidExtent.lowerFirst (translateExtent parentMap d) (translateExtent parentMap e) := by
  obtain ⟨p, mem, i, fits, inner, outer⟩ := left
  obtain ⟨q, member', j, fits', inner', outer'⟩ := right
  unfold Apart at apart ⊢
  show _ + d.count ≤ _ ∨ _ + e.count ≤ _
  by_cases same : p = q
  · subst same
    omega
  · rcases parent.lower.forall mem member' same with before | before <;> omega

theorem mapOk_translate (ok : MapOk newMap)
    (within : ∀ e ∈ newMap, Within parentMap e) : MapOk (newMap.map (translateExtent parentMap)) := by
  refine ⟨?_, ?_, ?_⟩
  · intro e mem
    obtain ⟨e, inside, rfl⟩ := mem_map.mp mem
    exact (within e inside).extentOk parent (ok.extents e inside)
  · exact pairwise_map.mpr (ok.upper.imp id)
  · refine pairwise_map.mpr (ok.lower.imp_of_mem fun left right apart => ?_)
    exact (within _ left).apart parent (within _ right) apart

end Translate

/-- The kernel ids of a map are kernel ids of the map of the parent. -/
def MapsInto (map parentMap : UidGidMap) : Prop :=
  ∀ id, mapIdDown map id ≠ invalidId → ∃ id', mapIdDown parentMap id' = mapIdDown map id

def Follows (accepted map parentMap : UidGidMap) : Prop :=
  ∀ e ∈ accepted, ∀ i < e.count,
    mapIdDown map (e.first + i) = mapIdDown parentMap (e.lowerFirst + i)

variable {kind : IdKind} {call : MapWriteCall}

theorem mapWrite_cases {old parentMap : UidGidMap}
    (written : mapWrite kind call old parentMap = .ok map) :
    old = [] ∧ ∃ accepted, parseMap call.text = some accepted ∧ accepted ≠ [] ∧
      translate parentMap accepted = some map := by
  unfold mapWrite at written
  split_ifs at written with used
  split at written
  · cases written
  rename_i accepted parsed
  split_ifs at written with empty
  split at written
  · cases written
  rename_i done
  cases written
  exact ⟨not_not.mp used, accepted, parsed, empty, done⟩

theorem mapWrite_ok {old parentMap : UidGidMap}
    (parent : MapOk parentMap) (written : mapWrite kind call old parentMap = .ok map) :
    old = [] ∧ map ≠ [] ∧ parentMap ≠ [] ∧ MapOk map ∧ MapsInto map parentMap ∧
      ∃ accepted, parseMap call.text = some accepted ∧ Follows accepted map parentMap := by
  obtain ⟨unused, accepted, parsed, nonempty, done⟩ := mapWrite_cases written
  obtain ⟨rfl, mapped⟩ := translate_eq done
  have ok := parseMap_ok parsed
  have within : ∀ e ∈ accepted, Within parentMap e := fun e mem =>
    parent.mapIdRangeDown_ne_invalid (ok.extents e mem).nonempty (ok.extents e mem).lower
      (mapped e mem)
  have ok' := mapOk_translate parent ok within
  have follows : Follows accepted (accepted.map (translateExtent parentMap)) parentMap := by
    intro e mem i inside
    obtain ⟨d, member', j, fits, inner, outer⟩ := within e mem
    have down : mapIdDown _ ((translateExtent parentMap e).first + i) = _ :=
      ok'.mapIdDown_of_mem (mem_map_of_mem mem) inside
    refine down.trans ?_
    rw [outer, inner, Nat.add_assoc, Nat.add_assoc]
    exact (parent.mapIdDown_of_mem member' (by omega)).symm
  refine ⟨unused, by simpa using nonempty, ?_, ok', ?_, accepted, parsed, follows⟩
  · obtain ⟨e, _, same⟩ := exists_cons_of_ne_nil nonempty
    obtain ⟨d, member', _⟩ := within e (same ▸ mem_cons_self)
    exact ne_nil_of_mem member'
  intro id valid
  obtain ⟨e, mem, i, inside, rfl⟩ := ok'.mapIdDown_ne_invalid valid
  obtain ⟨e, member', rfl⟩ := mem_map.mp mem
  exact ⟨e.lowerFirst + i, (follows e member' i inside).symm⟩

theorem procMapWrite_cases {s s' : List UserNamespace} {ns seqNs : Nat}
    (written : procMapWrite kind s ns seqNs call = .ok s') :
    ∃ n parent p map, s[ns]? = some n ∧ n.parent = some parent ∧ s[parent]? = some p ∧
      mapWrite kind call (n.maps kind) (p.maps kind) = .ok map ∧
      s' = s.set ns { n with maps := Function.update n.maps kind map } := by
  unfold procMapWrite at written
  split at written
  case h_2 => cases written
  rename_i n here
  split at written
  case h_2 => cases written
  rename_i parent up
  split_ifs at written
  split at written
  case h_2 => cases written
  rename_i p there
  cases res : mapWrite kind call (n.maps kind) (p.maps kind) with
  | error e =>
    rw [res] at written
    cases written
  | ok map =>
    rw [res] at written
    cases written
    exact ⟨n, parent, p, map, here, up, there, res, rfl⟩

end Linux318.Source.UserNs
