import Mathlib.Algebra.BigOperators.Group.List.Basic
import Mathlib.Data.Finset.Sort
import Mathlib.Tactic.Abel

-- Half-open spans of a line that is cut at points, and quantities of spans that add up where spans adjoin: the length,
-- or whether an instant lies in the span.

structure Quantity (T M : Type) [LinearOrder T] [AddCommMonoid M] where
  of   : T → T → M
  self : ∀ a, of a a = 0
  add  : ∀ a b c, a ≤ b → b ≤ c → of a b + of b c = of a c

namespace Quantity

variable {T M : Type} [LinearOrder T] [AddCommMonoid M]

def total (w : Quantity T M) (spans : List (T × T)) : M :=
  (spans.map fun p => w.of p.1 p.2).sum

-- Whether the instant lies in the span.
def instant (t : T) : Quantity T ℕ where
  of a b := if a ≤ t ∧ t < b then 1 else 0
  self a := by
    rw [if_neg]
    exact fun h => absurd h.right (not_lt_of_ge h.left)
  add a b c hab hbc := by
    by_cases hb : b ≤ t
    case pos =>
      have ha : a ≤ t := hab.trans hb
      simp [hb, ha, not_lt_of_ge hb]
    case neg =>
      have ht : t < b := lt_of_not_ge hb
      have hc : t < c := ht.trans_le hbc
      simp [hb, ht, hc]

end Quantity

namespace Cuts

variable {T M : Type} [LinearOrder T] [AddCommMonoid M] {w : Quantity T M} {l spans : List T} {a b c t : T}
variable {p q : T × T} {taken : List (T × T)}

def points (l : List T) : List T :=
  l.toFinset.sort (· ≤ ·)

-- The spans between neighbours.
def pairs (l : List T) : List (T × T) :=
  l.zip l.tail

theorem mem_points : a ∈ points l ↔ a ∈ l := by
  simp [points]

theorem points_sorted : (points l).Pairwise (· < ·) :=
  (Finset.sortedLT_sort _).pairwise

@[simp]
theorem pairs_cons_cons : pairs (a :: b :: l) = (a, b) :: pairs (b :: l) :=
  rfl

theorem mem_of_pairs (h : p ∈ pairs l) : p.1 ∈ l ∧ p.2 ∈ l :=
  ⟨(List.of_mem_zip h).left, List.mem_of_mem_tail (List.of_mem_zip h).right⟩

theorem pairs_head_le (hs : (a :: l).Pairwise (· < ·)) (h : p ∈ pairs (a :: l)) : a ≤ p.1 := by
  obtain hp | hp := List.mem_cons.mp (mem_of_pairs h).left
  case inl => exact hp.ge
  case inr => exact ((List.pairwise_cons.mp hs).left _ hp).le

theorem lt_of_pairs (hs : l.Pairwise (· < ·)) (h : p ∈ pairs l) : p.1 < p.2 := by
  induction l
  case nil => cases h
  case cons a l hi =>
    cases l with
    | nil      => cases h
    | cons b l =>
      obtain ⟨ha, ht⟩ := List.pairwise_cons.mp hs
      obtain rfl | h := List.mem_cons.mp h
      case inl => exact ha b List.mem_cons_self
      case inr => exact hi ht h

-- Neighbouring spans do not overlap.
theorem pairs_apart (hs : l.Pairwise (· < ·)) : (pairs l).Pairwise fun p q => p.2 ≤ q.1 := by
  induction l
  case nil => exact .nil
  case cons a l hi =>
    cases l with
    | nil      => exact .nil
    | cons b l =>
      have ht := (List.pairwise_cons.mp hs).right
      exact .cons (fun _ hq => pairs_head_le ht hq) (hi ht)

-- The spans that a point bounds from above make up the one up to it.
theorem total_head (hs : (a :: l).Pairwise (· < ·)) (hb : b ∈ a :: l) :
    w.total ((pairs (a :: l)).filter fun p => p.2 ≤ b) = w.of a b := by
  induction l generalizing a
  case nil =>
    rw [List.mem_singleton.mp hb, w.self]
    rfl
  case cons c l hi =>
    have hac := (List.pairwise_cons.mp hs).left c List.mem_cons_self
    have ht := (List.pairwise_cons.mp hs).right
    obtain rfl | hb := List.mem_cons.mp hb
    case inl =>
      have hn : (pairs (b :: c :: l)).filter (fun p => p.2 ≤ b) = [] := by
        rw [List.filter_eq_nil_iff]
        intro p hp
        have hl : b < p.2 := (pairs_head_le hs hp).trans_lt (lt_of_pairs hs hp)
        simpa using hl
      rw [hn, w.self]
      rfl
    case inr =>
      have hcb : c ≤ b := by
        obtain rfl | hm := List.mem_cons.mp hb
        case inl => exact le_refl b
        case inr => exact ((List.pairwise_cons.mp ht).left b hm).le
      rw [pairs_cons_cons, List.filter_cons_of_pos (by simpa using hcb), Quantity.total, List.map_cons, List.sum_cons,
        ← Quantity.total, hi ht hb, w.add a c b hac.le hcb]

-- The spans between two points make up the one from the first to the second.
theorem total_between (hs : l.Pairwise (· < ·)) (ha : a ∈ l) (hb : b ∈ l) (hab : a ≤ b) :
    w.total ((pairs l).filter fun p => a ≤ p.1 ∧ p.2 ≤ b) = w.of a b := by
  induction l
  case nil => cases ha
  case cons x l hi =>
    obtain rfl | ha := List.mem_cons.mp ha
    case inl =>
      rw [← total_head hs hb]
      congr 1
      refine List.filter_congr fun p hp => ?_
      simp [pairs_head_le hs hp]
    case inr =>
      have ht := (List.pairwise_cons.mp hs).right
      have hxa := (List.pairwise_cons.mp hs).left a ha
      have hb : b ∈ l := (List.mem_cons.mp hb).resolve_left (hxa.trans_le hab).ne'
      cases l with
      | nil => cases ha
      | cons y l =>
        rw [pairs_cons_cons, List.filter_cons_of_neg (by simp [hxa])]
        exact hi ht ha hb

-- All the spans make up the one from the first point to the last.
theorem total_pairs (hs : l.Pairwise (· < ·)) (ha : a ∈ l) (hb : b ∈ l) (hl : ∀ x ∈ l, a ≤ x ∧ x ≤ b) :
    w.total (pairs l) = w.of a b := by
  have hf : (pairs l).filter (fun p => a ≤ p.1 ∧ p.2 ≤ b) = pairs l := by
    rw [List.filter_eq_self]
    intro p hp
    have hm := mem_of_pairs hp
    simpa using ⟨(hl _ hm.left).left, (hl _ hm.right).right⟩
  rw [← hf, total_between hs ha hb (hl a ha).right]

-- An instant between two points lies in one of the spans.
theorem exists_pair (hs : l.Pairwise (· < ·)) (ha : a ∈ l) (hb : b ∈ l) (hat : a ≤ t) (htb : t < b) :
    ∃ p ∈ pairs l, p.1 ≤ t ∧ t < p.2 := by
  by_contra hn
  have hz : (Quantity.instant t).total ((pairs l).filter fun p => a ≤ p.1 ∧ p.2 ≤ b) = 0 := by
    refine List.sum_eq_zero fun x hx => ?_
    obtain ⟨p, hp, rfl⟩ := List.mem_map.mp hx
    exact if_neg fun ht => hn ⟨p, (List.mem_filter.mp hp).left, ht⟩
  rw [total_between hs ha hb (hat.trans htb.le)] at hz
  have ho : (Quantity.instant t).of a b = 1 := if_pos ⟨hat, htb⟩
  exact absurd (ho.symm.trans hz) (by decide)

-- An instant lies in at most one of the spans.
theorem sum_at_le {n : T × T → ℕ} {bound : ℕ} (hs : l.Pairwise (· < ·)) (hn : ∀ p, n p ≤ bound) :
    ((pairs l).map fun p => if p.1 ≤ t ∧ t < p.2 then n p else 0).sum ≤ bound := by
  have ha := pairs_apart hs
  generalize pairs l = spans at ha
  induction spans
  case nil => exact Nat.zero_le _
  case cons p spans hi =>
    obtain ⟨hp, ha⟩ := List.pairwise_cons.mp ha
    rw [List.map_cons, List.sum_cons]
    by_cases ht : p.1 ≤ t ∧ t < p.2
    case neg =>
      rw [if_neg ht, Nat.zero_add]
      exact hi ha
    case pos =>
      have hz : (spans.map fun q => if q.1 ≤ t ∧ t < q.2 then n q else 0).sum = 0 := by
        refine List.sum_eq_zero fun x hx => ?_
        obtain ⟨q, hq, rfl⟩ := List.mem_map.mp hx
        rw [if_neg]
        exact fun h => absurd (hp q hq) (not_le_of_gt (h.left.trans_lt ht.right))
      rw [if_pos ht, hz, Nat.add_zero]
      exact hn p

-- What is left of a span between and after others that were taken out of it.
def rest : T → T → List (T × T) → List (T × T)
  | cursor, stop, []         => if cursor < stop then [(cursor, stop)] else []
  | cursor, stop, p :: taken =>
    (if cursor < p.1 then [(cursor, p.1)] else []) ++ rest (max cursor p.2) stop taken

theorem total_if (h : a ≤ b) : w.total (if a < b then [(a, b)] else []) = w.of a b := by
  by_cases hl : a < b
  case pos => simp [hl, Quantity.total]
  case neg =>
    rw [if_neg hl, h.antisymm (le_of_not_gt hl), w.self]
    rfl

theorem total_append {s u : List (T × T)} : w.total (s ++ u) = w.total s + w.total u := by
  simp [Quantity.total]

theorem lt_of_rest (h : p ∈ rest a b taken) : p.1 < p.2 := by
  have hi : ∀ {c d : T}, p ∈ (if c < d then [(c, d)] else []) → p.1 < p.2 := by
    intro c d hp
    by_cases hl : c < d
    case neg => simp [hl] at hp
    case pos =>
      rw [if_pos hl, List.mem_singleton] at hp
      rw [hp]
      exact hl
  induction taken generalizing a
  case nil => exact hi h
  case cons q taken ht =>
    obtain h | h := List.mem_append.mp h
    case inl => exact hi h
    case inr => exact ht h

-- What was taken and what is left make up the whole.
theorem total_rest (ht : taken.Pairwise fun p q => p.2 ≤ q.1) (hp : ∀ p ∈ taken, a ≤ p.1 ∧ p.1 ≤ p.2 ∧ p.2 ≤ b)
    (hab : a ≤ b) : w.total taken + w.total (rest a b taken) = w.of a b := by
  induction taken generalizing a
  case nil =>
    rw [rest, total_if hab]
    exact zero_add _
  case cons p taken hi =>
    obtain ⟨hap, hpp, hpb⟩ := hp p List.mem_cons_self
    obtain ⟨ha, ht⟩ := List.pairwise_cons.mp ht
    have hr := hi ht (fun q hq => ⟨ha q hq, (hp q (List.mem_cons_of_mem p hq)).right⟩) hpb
    have hw : w.total (p :: taken) = w.of p.1 p.2 + w.total taken := by simp [Quantity.total]
    calc w.total (p :: taken) + w.total (rest a b (p :: taken))
        = w.of a p.1 + (w.of p.1 p.2 + (w.total taken + w.total (rest p.2 b taken))) := by
          rw [rest, total_append, total_if hap, max_eq_right (hap.trans hpp), hw]
          abel
      _ = w.of a b := by rw [hr, w.add _ _ _ hpp hpb, w.add _ _ _ hap (hpp.trans hpb)]

end Cuts
