import Mathlib.Data.List.Basic
import Mathlib.Data.List.TakeWhile

/-!
Lists whose elements of one key stand next to each other.
-/
namespace Linux318.Lib
open List

variable {α κ : Type} {key : α → κ}

/-- No element of another key stands between two elements of one key. -/
def Grouped (key : α → κ) (l : List α) : Prop :=
  ∀ a b c, [a, b, c].Sublist l → key a = key c → key b = key a

theorem Grouped.nil : Grouped key [] := by
  intro a b c sub
  cases sub

/-- The elements `y` of one key, between elements `x` and `z` of other keys. -/
structure KeySplit (key : α → κ) (k : κ) (x y z : List α) : Prop where
  before : ∀ r ∈ x, key r ≠ k
  own : ∀ r ∈ y, key r = k
  after : ∀ r ∈ z, key r ≠ k

theorem sublist_of_head_not_mem {b : α} {t x r : List α} (absent : b ∉ x)
    (sub : (b :: t).Sublist (x ++ r)) : (b :: t).Sublist r := by
  induction x with
  | nil => exact sub
  | cons a x ih =>
    refine ih (fun h => absent (mem_cons_of_mem _ h)) ?_
    cases sub with
    | cons _ sub => exact sub
    | cons_cons _ sub => exact absurd mem_cons_self absent

theorem sublist_of_last_not_mem {c : α} {t r z : List α} (absent : c ∉ z)
    (sub : (t ++ [c]).Sublist (r ++ z)) : (t ++ [c]).Sublist r := by
  have hrev := sub.reverse
  rw [reverse_append, reverse_append] at hrev
  have := (sublist_of_head_not_mem (by simpa using absent) hrev).reverse
  simpa using this

theorem while_congr {p q : α → Bool} {l : List α} (same : ∀ r ∈ l, p r = q r) :
    l.takeWhile p = l.takeWhile q ∧ l.dropWhile p = l.dropWhile q := by
  induction l with
  | nil => exact ⟨rfl, rfl⟩
  | cons a l ih =>
    obtain ⟨taken, dropped⟩ := ih fun r hr => same r (mem_cons_of_mem _ hr)
    simp only [takeWhile_cons, dropWhile_cons, same a mem_cons_self, taken, dropped, and_self]

theorem head_dropWhile {p : α → Bool} {l rest : List α} {a : α}
    (h : l.dropWhile p = a :: rest) : p a = false := by
  have hne : l.dropWhile p ≠ [] := by simp [h]
  have := head_dropWhile_not p hne
  simpa only [h, head_cons] using this

/-- A grouped list, cut before the first element of a key and after its group. -/
theorem Grouped.split [DecidableEq κ] {l : List α} (grouped : Grouped key l) (k : κ) :
    ∃ y z, l.dropWhile (fun r => key r ≠ k) = y ++ z ∧ (y = [] → z = []) ∧
      KeySplit key k (l.takeWhile fun r => key r ≠ k) y z := by
  let tail := l.dropWhile fun r => key r ≠ k
  have closed : tail.takeWhile (fun r => key r = k) = [] →
      tail.dropWhile (fun r => key r = k) = [] := by
    intro hnil
    cases htail : tail with
    | nil => rfl
    | cons a rest =>
      have ha := head_dropWhile htail
      simp_all
  refine ⟨tail.takeWhile (fun r => key r = k), tail.dropWhile (fun r => key r = k),
    takeWhile_append_dropWhile.symm, closed, ?_, ?_, ?_⟩
  · intro r hr
    simpa using mem_takeWhile_imp hr
  · intro r hr
    simpa using mem_takeWhile_imp hr
  intro r hr hkey
  cases hz : tail.dropWhile (fun r => key r = k) with
  | nil => simp [hz] at hr
  | cons h t =>
    have hh : key h ≠ k := by simpa using head_dropWhile hz
    obtain ⟨a, ha⟩ := exists_mem_of_ne_nil (tail.takeWhile fun r => key r = k)
      fun hy => by simp [closed hy] at hz
    have hak : key a = k := by simpa using mem_takeWhile_imp ha
    have hrt : r ∈ t := by
      rcases mem_cons.mp (hz ▸ hr) with rfl | hrt
      · exact absurd hkey hh
      · exact hrt
    have hsub : [a, h, r].Sublist tail := by
      rw [← takeWhile_append_dropWhile (l := tail), hz]
      have htail : [h, r].Sublist (h :: t) := (singleton_sublist.mpr hrt).cons_cons h
      exact (singleton_sublist.mpr ha).append htail
    exact hh ((grouped a h r (hsub.trans (dropWhile_sublist _)) (hak.trans hkey.symm)).trans hak)

/-- Another group of the same key may take the place of a group. -/
theorem Grouped.replace {k : κ} {x y z y' : List α} (grouped : Grouped key (x ++ y ++ z))
    (split : KeySplit key k x y z) (closed : y = [] → z = []) (own : ∀ r ∈ y', key r = k) :
    Grouped key (x ++ y' ++ z) := by
  classical
  intro a b c sub hac
  have hx : ∀ r, key r = k → r ∉ x := fun r hr mem => split.before r mem hr
  have hz : ∀ r, key r = k → r ∉ z := fun r hr mem => split.after r mem hr
  by_cases ha : key a = k
  · have hyz : [a, b, c].Sublist (y' ++ z) :=
      sublist_of_head_not_mem (hx a ha) (by simpa only [append_assoc] using sub)
    have hy : ([a, b] ++ [c]).Sublist y' := sublist_of_last_not_mem (hz c (hac ▸ ha)) hyz
    rw [own b (hy.subset (by simp)), ha]
  by_cases hb : key b = k
  · exfalso
    have hcz : c ∈ z := by
      have hbc : [b, c].Sublist (y' ++ z) := sublist_of_head_not_mem (hx b hb)
        (by simpa only [append_assoc] using sublist_of_cons_sublist sub)
      have := hbc.subset (mem_cons_of_mem _ mem_cons_self)
      rcases mem_append.mp this with h | h
      · exact absurd (hac.trans (own c h)) ha
      · exact h
    have hax : a ∈ x := by
      have hab : ([a] ++ [b]).Sublist (x ++ y') := sublist_of_last_not_mem (hz b hb)
        (List.Sublist.trans (by simp) sub)
      rcases mem_append.mp (hab.subset (mem_cons_self)) with h | h
      · exact h
      · exact absurd (own a h) ha
    cases y with
    | nil => simp [closed rfl] at hcz
    | cons b' y =>
      have hhead : [b'].Sublist (b' :: y) := singleton_sublist.mpr mem_cons_self
      have hsub : ([a] ++ [b'] ++ [c]).Sublist (x ++ b' :: y ++ z) :=
        ((singleton_sublist.mpr hax).append hhead).append (singleton_sublist.mpr hcz)
      exact ha ((grouped a b' c hsub hac).symm.trans (split.own b' mem_cons_self))
  · have hfilter := sub.filter (fun r => decide (key r ≠ k))
    have hc : ¬ key c = k := hac ▸ ha
    have hx' : x.filter (fun r => decide (key r ≠ k)) = x :=
      filter_eq_self.mpr fun r hr => by simpa using split.before r hr
    have hz' : z.filter (fun r => decide (key r ≠ k)) = z :=
      filter_eq_self.mpr fun r hr => by simpa using split.after r hr
    have hy' : y'.filter (fun r => decide (key r ≠ k)) = [] :=
      filter_eq_nil_iff.mpr fun r hr => by simpa using own r hr
    simp only [filter_append, hx', hz', hy', append_nil] at hfilter
    rw [filter_eq_self.mpr (by simp [ha, hb, hc])] at hfilter
    refine grouped a b c (hfilter.trans ?_) hac
    rw [append_assoc]
    exact (List.Sublist.refl x).append (sublist_append_right y z)

end Linux318.Lib
