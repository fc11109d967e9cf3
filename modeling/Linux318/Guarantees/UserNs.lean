import Linux318.Lib.Run
import Linux318.Source.UserNs.MapWrite

/-!
# User namespaces

Source: kernel/user_namespace.c. The id maps of a tree of namespaces are partial bijections, at
every depth, whatever is written to the map files.
-/
namespace Linux318.Guarantees
open Lib Source.UserNs List

inductive UserNsOp where
  | create (parent : Nat)
  | write (kind : IdKind) (ns seqNs : Nat) (call : MapWriteCall)

/-- A write that fails changes nothing. -/
def UserNsOp.step (s : List UserNamespace) : UserNsOp → List UserNamespace
  | create parent => createUserNs s parent
  | write kind ns seqNs call =>
    match procMapWrite kind s ns seqNs call with
    | .ok s' => s'
    | .error _ => s

/-- All namespaces, in the order of their creation. -/
def userNsRun (ops : List UserNsOp) : List UserNamespace :=
  runFrom UserNsOp.step [initUserNs] ops

/-- Namespaces stay, and a map that is in use does not change any more. -/
def Grows (s s' : List UserNamespace) : Prop :=
  ∀ (i : Nat) (n : UserNamespace), s[i]? = some n → ∃ n' : UserNamespace, s'[i]? = some n' ∧
    n'.parent = n.parent ∧ ∀ kind, n.maps kind ≠ [] → n'.maps kind = n.maps kind

variable {s : List UserNamespace} {kind : IdKind} {call : MapWriteCall}

theorem Grows.refl (s : List UserNamespace) : Grows s s := fun _ n here =>
  ⟨n, here, rfl, fun _ _ => rfl⟩

theorem Grows.trans {s1 s2 s3 : List UserNamespace} (first : Grows s1 s2) (second : Grows s2 s3) :
    Grows s1 s3 := by
  intro i n here
  obtain ⟨n', here', parent', maps'⟩ := first i n here
  obtain ⟨n'', here'', parent'', maps''⟩ := second i n' here'
  refine ⟨n'', here'', parent''.trans parent', fun kind used => ?_⟩
  rw [maps'' kind (by rwa [maps' kind used]), maps' kind used]

theorem createUserNs_grows (s : List UserNamespace) (parent : Nat) :
    Grows s (createUserNs s parent) := by
  intro i n here
  refine ⟨n, ?_, rfl, fun _ _ => rfl⟩
  unfold createUserNs
  split
  · rw [List.getElem?_append_left (List.getElem?_eq_some_iff.mp here).1, here]
  · exact here

/-- A write fills an empty map and changes no other. -/
theorem procMapWrite_grows {s' : List UserNamespace} {ns seqNs : Nat}
    (written : procMapWrite kind s ns seqNs call = .ok s') : Grows s s' := by
  obtain ⟨n, parent, p, map, here, up, there, res, rfl⟩ := procMapWrite_cases written
  intro i m at_
  by_cases same : i = ns
  · subst same
    obtain rfl : n = m := Option.some.inj (here.symm.trans at_)
    refine ⟨{ n with maps := Function.update n.maps kind map }, ?_, rfl, fun kind' used => ?_⟩
    · rw [List.getElem?_set_self (List.getElem?_eq_some_iff.mp here).1]
    refine Function.update_of_ne (fun same => used ?_) ..
    rw [same]
    exact (mapWrite_cases res).1
  · exact ⟨m, by rw [List.getElem?_set_ne (Ne.symm same), at_], rfl, fun _ _ => rfl⟩

/-- No operation changes a map that is in use. -/
theorem UserNsOp.step_grows (s : List UserNamespace) (op : UserNsOp) : Grows s (op.step s) := by
  cases op with
  | create parent => exact createUserNs_grows s parent
  | write kind ns seqNs call =>
    rw [UserNsOp.step]
    split
    · exact procMapWrite_grows ‹_›
    · exact Grows.refl s

/-- A map without common ids, and if it is in use, its kernel ids are those of the parent. -/
def MapPlaced (s : List UserNamespace) (parent : Option Nat) (kind : IdKind) (map : UidGidMap) : Prop :=
  MapOk map ∧ ∀ p, parent = some p → ∃ pn : UserNamespace, s[p]? = some pn ∧
    (map ≠ [] → pn.maps kind ≠ [] ∧ MapsInto map (pn.maps kind))

def NamespacesOk (s : List UserNamespace) : Prop :=
  ∀ (i : Nat) (n : UserNamespace), s[i]? = some n → ∀ kind, MapPlaced s n.parent kind (n.maps kind)

/-- A map stays valid while other maps are filled. -/
theorem MapPlaced.grow {s' : List UserNamespace} (grows : Grows s s') {parent : Option Nat}
    {map : UidGidMap} (placed : MapPlaced s parent kind map) : MapPlaced s' parent kind map := by
  refine ⟨placed.1, fun p up => ?_⟩
  obtain ⟨pn, there, below⟩ := placed.2 p up
  obtain ⟨pn', there', _, same⟩ := grows p pn there
  refine ⟨pn', there', fun used => ?_⟩
  obtain ⟨usedP, into⟩ := below used
  rw [same kind usedP]
  exact ⟨usedP, into⟩

theorem createUserNs_ok (ok : NamespacesOk s) (parent : Nat) :
    NamespacesOk (createUserNs s parent) := by
  have grows := createUserNs_grows s parent
  intro i n here kind
  unfold createUserNs at here grows ⊢
  split_ifs at here grows ⊢ with exists_
  · rcases Nat.lt_or_ge i s.length with old | new
    · rw [List.getElem?_append_left old] at here
      exact (ok i n here kind).grow grows
    rw [List.getElem?_append_right new, List.getElem?_singleton] at here
    split_ifs at here
    cases here
    refine ⟨⟨fun _ mem => absurd mem not_mem_nil, .nil, .nil⟩, fun p up => ?_⟩
    cases up
    exact ⟨s[parent], by rw [List.getElem?_append_left exists_, List.getElem?_eq_getElem exists_],
      fun used => absurd rfl used⟩
  · exact ok i n here kind

/-- A new map was checked against its parent's. -/
theorem procMapWrite_ok {s' : List UserNamespace} {ns seqNs : Nat} (ok : NamespacesOk s)
    (written : procMapWrite kind s ns seqNs call = .ok s') : NamespacesOk s' := by
  have grows := procMapWrite_grows written
  obtain ⟨n, parent, p, map, here, up, there, res, rfl⟩ := procMapWrite_cases written
  obtain ⟨_, _, usedP, ok', into, _⟩ := mapWrite_ok (ok parent p there kind).1 res
  intro i m at_ kind'
  by_cases same : i = ns
  · subst same
    rw [List.getElem?_set_self (List.getElem?_eq_some_iff.mp here).1] at at_
    cases at_
    by_cases this : kind' = kind
    · subst this
      refine MapPlaced.grow grows ⟨by simpa using ok', fun q upQ => ?_⟩
      obtain rfl : parent = q := Option.some.inj (up.symm.trans upQ)
      exact ⟨p, there, fun _ => ⟨usedP, by simpa using into⟩⟩
    · have other := (ok i n here kind').grow grows
      simpa [this] using other
  · rw [List.getElem?_set_ne (Ne.symm same)] at at_
    exact (ok i m at_ kind').grow grows

theorem UserNsOp.step_ok (s : List UserNamespace) (op : UserNsOp) (ok : NamespacesOk s) :
    NamespacesOk (op.step s) := by
  cases op with
  | create parent => exact createUserNs_ok ok parent
  | write kind ns seqNs call =>
    rw [UserNsOp.step]
    split
    · exact procMapWrite_ok ok ‹_›
    · exact ok

/-- The invariant holds after every run. -/
theorem userNsRun_ok (ops : List UserNsOp) : NamespacesOk (userNsRun ops) := by
  refine runFrom_invariant_always _ UserNsOp.step_ok ops _ fun i n here kind => ?_
  rw [List.getElem?_singleton] at here
  split_ifs at here
  cases here
  refine ⟨⟨fun e mem => ?_, pairwise_singleton _ _, pairwise_singleton _ _⟩, fun p up => ?_⟩
  · obtain rfl := mem_singleton.mp mem
    exact ⟨by decide, by decide, by decide⟩
  · cases up

/-- In every tree of namespaces, each map and its inverse are inverse on the ids that are mapped,
(u32)-1 is in no extent and not mapped, and the kernel ids of a map are kernel ids of the map of
the parent. An extent that was accepted gives its ids the kernel ids that the parent has for them,
from then on. -/
theorem userNsRun_bijections (ops : List UserNsOp) :
    (∀ (i : Nat) (n : UserNamespace), (userNsRun ops)[i]? = some n → ∀ kind,
      (∀ id, mapIdDown (n.maps kind) id ≠ invalidId →
        mapIdUp (n.maps kind) (mapIdDown (n.maps kind) id) = id) ∧
      (∀ id, mapIdUp (n.maps kind) id ≠ invalidId →
        mapIdDown (n.maps kind) (mapIdUp (n.maps kind) id) = id) ∧
      (∀ e ∈ n.maps kind, ExtentOk e) ∧
      mapIdDown (n.maps kind) invalidId = invalidId ∧ mapIdUp (n.maps kind) invalidId = invalidId ∧
      ∀ p, n.parent = some p → ∃ pn : UserNamespace, (userNsRun ops)[p]? = some pn ∧
        ∀ id, mapIdDown (n.maps kind) id ≠ invalidId →
          ∃ id', mapIdDown (pn.maps kind) id' = mapIdDown (n.maps kind) id) ∧
    ∀ before after kind ns seqNs call s', ops = before ++ .write kind ns seqNs call :: after →
      procMapWrite kind (userNsRun before) ns seqNs call = .ok s' →
      ∃ accepted n p pn, parseMap call.text = some accepted ∧ (userNsRun ops)[ns]? = some n ∧
        n.parent = some p ∧ (userNsRun ops)[p]? = some pn ∧
        ∀ e ∈ accepted, ∀ i < e.count,
          mapIdDown (n.maps kind) (e.first + i) = mapIdDown (pn.maps kind) (e.lowerFirst + i) := by
  constructor
  · intro i n here kind
    obtain ⟨ok, above⟩ := userNsRun_ok ops i n here kind
    refine ⟨fun id => ok.mapIdUp_mapIdDown, fun id => ok.mapIdDown_mapIdUp, ok.extents,
      ok.mapIdDown_invalid, ok.mapIdUp_invalid, fun p up => ?_⟩
    obtain ⟨pn, there, below⟩ := above p up
    refine ⟨pn, there, fun id mapped => ?_⟩
    obtain ⟨e, member, _⟩ := ok.mapIdDown_ne_invalid mapped
    exact (below (ne_nil_of_mem member)).2 id mapped
  intro before after kind ns seqNs call s' split written
  have later : Grows s' (userNsRun ops) := by
    have step : UserNsOp.step (userNsRun before) (.write kind ns seqNs call) = s' := by
      rw [UserNsOp.step, written]
    rw [split, userNsRun, runFrom, foldl_append, foldl_cons]
    rw [userNsRun, runFrom] at step
    rw [step]
    exact runFrom_invariant_always _ (fun s op grows => grows.trans (op.step_grows s)) after s'
      (Grows.refl s')
  have grows := (procMapWrite_grows written).trans later
  obtain ⟨n, parent, p, map, here, up, there, result, rfl⟩ := procMapWrite_cases written
  obtain ⟨_, used, usedP, _, _, accepted, parsed, follows⟩ :=
    mapWrite_ok (userNsRun_ok before parent p there kind).1 result
  obtain ⟨pn, thereP, _, sameP⟩ := grows parent p there
  obtain ⟨n', hereN, parentN, sameN⟩ := later ns _
    (List.getElem?_set_self (List.getElem?_eq_some_iff.mp here).1)
  refine ⟨accepted, n', parent, pn, parsed, hereN, parentN.trans up, thereP,
    fun e member i inside => ?_⟩
  have sameN : n'.maps kind = map :=
    (sameN kind (by simpa using used)).trans (Function.update_self ..)
  rw [sameN, sameP kind usedP]
  exact follows e member i inside

/-- The text "0 1000 10" for the uids of a first child. -/
def tenIds : MapWriteCall where
  text := [48, 32, 49, 48, 48, 48, 32, 49, 48, 10]
  ppos := 0
  adminCapable := true
  parentCapable := true
  ownerOpened := false
  euid := 0
  egid := 0
  setgroupsAllowed := true
  page := true
  copied := true

theorem userNsRun_bijections_ten : ∃ accepted n p pn, parseMap tenIds.text = some accepted ∧
      (userNsRun [.create 0, .write .uid 1 0 tenIds])[1]? = some n ∧ n.parent = some p ∧
      (userNsRun [.create 0, .write .uid 1 0 tenIds])[p]? = some pn ∧
      ∀ e ∈ accepted, ∀ i < e.count,
        mapIdDown (n.maps .uid) (e.first + i) = mapIdDown (pn.maps .uid) (e.lowerFirst + i) :=
  (userNsRun_bijections _).2 [.create 0] [] .uid 1 0 tenIds _ rfl rfl

end Linux318.Guarantees
