import Mathlib.Algebra.BigOperators.Group.List.Basic
import Mathlib.Data.List.Nodup
import Mathlib.Tactic.Abel
import Mathlib.Data.List.Forall2
import Mathlib.Data.List.Induction
import Agentihooks.Library.KeyTable

-- Sums over lists that are filtered, put together or grouped, and over tables that are added to.

namespace Sums

variable {α β κ M : Type} [AddCommMonoid M] {l chosen : List α} {m : List β} {keys : List κ} {f g : α → M}

theorem map_filter (p : α → Bool) : ((l.filter p).map f).sum = (l.map fun x => if p x then f x else 0).sum := by
  induction l
  case nil => rfl
  case cons x l hi => cases hp : p x <;> simp [hp, hi]

theorem map_flatMap {h : β → M} (k : α → List β) :
    ((l.flatMap k).map h).sum = (l.map fun x => ((k x).map h).sum).sum := by
  induction l
  case nil          => rfl
  case cons x l hi  => rw [List.flatMap_cons, List.map_append, List.sum_append, hi, List.map_cons, List.sum_cons]

theorem map_comm (h : α → β → M) :
    (l.map fun x => (m.map fun y => h x y).sum).sum = (m.map fun y => (l.map fun x => h x y).sum).sum := by
  induction l
  case nil => simp
  case cons x l hi =>
    rw [List.map_cons, List.sum_cons, hi, ← List.sum_map_add]
    simp

theorem map_congr (h : ∀ x ∈ l, f x = g x) : (l.map f).sum = (l.map g).sum := by
  rw [List.map_congr_left h]

theorem map_eq_zero (h : ∀ x ∈ l, f x = 0) : (l.map f).sum = 0 := by
  refine List.sum_eq_zero fun y hy => ?_
  obtain ⟨x, hx, rfl⟩ := List.mem_map.mp hy
  exact h x hx

-- Of distinct keys only one meets the element.
theorem map_key [DecidableEq κ] {k : κ} {a : M} (hn : keys.Nodup) (hk : k ∈ keys) :
    (keys.map fun j => if k = j then a else 0).sum = a := by
  induction keys
  case nil => cases hk
  case cons j keys hi =>
    obtain ⟨hj, hn⟩ := List.nodup_cons.mp hn
    rw [List.map_cons, List.sum_cons]
    by_cases he : k = j
    case neg => rw [if_neg he, zero_add, hi hn ((List.mem_cons.mp hk).resolve_left he)]
    case pos =>
      subst he
      rw [if_pos rfl, map_eq_zero fun i hi => if_neg fun he : k = i => hj (he ▸ hi), add_zero]

-- A sum may be taken group by group.
theorem map_groups [DecidableEq κ] (key : α → κ) (hn : keys.Nodup) (h : ∀ x ∈ l, key x ∈ keys) :
    (keys.map fun k => ((l.filter (key · = k)).map f).sum).sum = (l.map f).sum := by
  simp only [map_filter, decide_eq_true_eq]
  rw [map_comm fun k x => if key x = k then f x else 0]
  exact map_congr fun x hx => map_key hn (h x hx)

-- Distinct elements chosen from distinct ones.
theorem map_chosen [DecidableEq α] (hc : chosen.Nodup) (hl : l.Nodup) (h : chosen ⊆ l) :
    (chosen.map f).sum = (l.map fun x => if x ∈ chosen then f x else 0).sum := by
  have hp : chosen.Perm (l.filter (· ∈ chosen)) := by
    refine (List.perm_ext_iff_of_nodup hc (hl.filter _)).mpr fun x => ?_
    simpa using fun hx => h hx
  rw [(hp.map f).sum_eq, map_filter]
  simp

-- The elements of a list at one index.
theorem map_zipIdx {i n : ℕ} :
    ((l.zipIdx n).map fun x => if x.2 = i then f x.1 else 0).sum =
      if n ≤ i then (l[i - n]?.map f).getD 0 else 0 := by
  induction l generalizing n
  case nil => simp
  case cons a l hi =>
    rw [List.zipIdx_cons, List.map_cons, List.sum_cons, hi]
    obtain h | h | h := Nat.lt_trichotomy n i
    · have hs : i - n = i - (n + 1) + 1 := by omega
      simp [h.ne, h.le, Nat.succ_le_of_lt h, hs]
    · subst h
      simp [Nat.not_succ_le_self]
    · simp [h.ne', Nat.not_le.mpr h, Nat.not_le.mpr (Nat.lt_succ_of_lt h)]

end Sums

namespace KeyTable

variable {κ M : Type} [DecidableEq κ] [AddCommMonoid M] {t : KeyTable κ M} {k : κ} {v : M}

def total (t : KeyTable κ M) : M :=
  (t.toList.map (·.2)).sum

theorem sum_kerase {l : List (Sigma fun _ : κ => M)} :
    ((l.kerase k).map (·.2)).sum + (l.dlookup k).getD 0 = (l.map (·.2)).sum := by
  induction l
  case nil => simp
  case cons e l hi =>
    obtain ⟨j, x⟩ := e
    by_cases h : k = j
    case pos =>
      subst h
      simp [add_comm]
    case neg =>
      rw [List.kerase_cons_ne h, List.dlookup_cons_ne l ⟨j, x⟩ h, List.map_cons, List.sum_cons, List.map_cons,
        List.sum_cons, add_assoc, hi]

theorem total_eq : total t = (t.entries.map (·.2)).sum := by
  rw [total, toList, List.map_map]
  rfl

theorem total_add : total (t.insert k ((t.lookup k).getD 0 + v)) = total t + v := by
  have hk := sum_kerase (l := t.entries) (k := k)
  rw [total_eq, total_eq, ← hk, AList.entries_insert, List.map_cons, List.sum_cons]
  change (t.lookup k).getD 0 + v + _ = _ + (t.lookup k).getD 0 + v
  abel

end KeyTable

-- Lists computed from lists by a function that may fail.

namespace List

variable {α β : Type} {f : α → Option β} {xs : List α} {ys : List β}

theorem forall₂_of_mapM (h : xs.mapM f = some ys) : Forall₂ (fun x y => f x = some y) xs ys := by
  induction xs generalizing ys
  case nil =>
    cases h
    exact .nil
  case cons x xs hi =>
    rw [mapM_cons] at h
    obtain ⟨y, hy, h⟩ := Option.bind_eq_some_iff.mp h
    obtain ⟨rest, hr, h⟩ := Option.bind_eq_some_iff.mp h
    cases h
    exact .cons hy (hi hr)

theorem mem_of_forall₂ {R : α → β → Prop} (h : Forall₂ R xs ys) : ∀ x ∈ xs, ∃ y ∈ ys, R x y := by
  induction h
  case nil => simp
  case cons hy _ hi =>
    rw [forall_mem_cons]
    refine ⟨⟨_, mem_cons_self, hy⟩, fun z hz => ?_⟩
    obtain ⟨w, hw, he⟩ := hi z hz
    exact ⟨w, mem_cons_of_mem _ hw, he⟩

theorem mem_of_mapM (h : xs.mapM f = some ys) : ∀ x ∈ xs, ∃ y ∈ ys, f x = some y :=
  mem_of_forall₂ (forall₂_of_mapM h)

theorem mapM_range {f : ℕ → Option α} (h : ∀ i x, xs[i]? = some x → f i = some x) :
    (range xs.length).mapM f = some xs := by
  induction xs using List.reverseRecOn
  case nil            => rfl
  case append_singleton xs x hi =>
    have hs := hi fun i y hy => h i y (by rw [getElem?_append_left (getElem?_eq_some_iff.mp hy).choose, hy])
    have hx := h xs.length x (by simp)
    rw [length_append, length_singleton, range_succ, mapM_append, hs]
    simp [hx]

end List
