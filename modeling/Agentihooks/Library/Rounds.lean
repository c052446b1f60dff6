import Mathlib.Data.List.Dedup
import Mathlib.Data.List.Perm.Basic

-- Recursive queries: each round adds the rows that the newest ones lead to. A query that keeps repeated rows lists the
-- same rows as the walk that goes into every row before it comes to the next one.

namespace Rounds

variable {α β : Type} {next next' : α → List α} {a b c : α} {rows : List α} {n : ℕ}

-- `UNION ALL`
def all (next : α → List α) : ℕ → List α → List α
  | 0,     rows => rows
  | n + 1, rows => rows ++ all next n (rows.flatMap next)

-- `UNION`: a row that is there already is not added and leads to nothing more.
def union [DecidableEq α] (next : α → List α) : ℕ → List α → List α → List α
  | 0,     seen, _   => seen
  | n + 1, seen, new =>
    let more := (new.flatMap next).dedup.filter (· ∉ seen)
    union next n (seen ++ more) more

def visit (next : α → List α) : ℕ → α → List α
  | 0,     a => [a]
  | n + 1, a => a :: (next a).flatMap (visit next n)

-- `b` is `k` rounds after `a`.
def Steps (next : α → List α) : ℕ → α → α → Prop
  | 0,     a, b => a = b
  | k + 1, a, c => ∃ b ∈ next a, Steps next k b c

theorem Steps.snoc {k : ℕ} (h : Steps next k a b) (hc : c ∈ next b) : Steps next (k + 1) a c := by
  induction k generalizing a
  case zero =>
    cases h
    exact ⟨c, hc, rfl⟩
  case succ k hi =>
    obtain ⟨d, hd, hs⟩ := h
    exact ⟨d, hd, hi hs⟩

theorem all_perm (h : ∀ a, (next a).Perm (next' a)) : (all next n rows).Perm (rows.flatMap (visit next' n)) := by
  induction n generalizing rows
  case zero => simp [all, visit]
  case succ n hi =>
    have hv : (rows.flatMap fun a => [a] ++ (next' a).flatMap (visit next' n)).Perm (rows.flatMap (visit next' (n + 1))) :=
      .refl _
    refine .trans ?_ ((List.flatMap_append_perm rows (fun a => [a]) _).trans hv)
    rw [all, List.flatMap_singleton']
    refine List.Perm.append_left rows (hi.trans ?_)
    rw [List.flatMap_assoc]
    exact List.Perm.flatMap_left rows fun a _ => List.Perm.flatMap_right _ (h a)

theorem mem_visit : b ∈ visit next n a ↔ ∃ k ≤ n, Steps next k a b := by
  induction n generalizing a
  case zero => simp [visit, Steps, eq_comm]
  case succ n hi =>
    simp only [visit, List.mem_cons, List.mem_flatMap, hi]
    constructor
    case mp =>
      rintro (rfl | ⟨c, hc, k, hk, hs⟩)
      · exact ⟨0, Nat.zero_le _, rfl⟩
      · exact ⟨k + 1, Nat.succ_le_succ hk, c, hc, hs⟩
    case mpr =>
      rintro ⟨k, hk, hs⟩
      cases k
      case zero => exact .inl hs.symm
      case succ k =>
        obtain ⟨c, hc, hs⟩ := hs
        exact .inr ⟨c, hc, k, Nat.le_of_succ_le_succ hk, hs⟩

theorem mem_all : b ∈ all next n rows ↔ ∃ a ∈ rows, ∃ k ≤ n, Steps next k a b := by
  rw [(all_perm fun _ => .refl _).mem_iff, List.mem_flatMap]
  simp only [mem_visit]

-- `P n` is what holds of a row that is gone into for `n` more levels.
theorem map_visit {next₂ : β → List β} {f : α → β} {P : ℕ → α → Prop}
    (h : ∀ n a, P (n + 1) a → (next a).map f = next₂ (f a) ∧ ∀ b ∈ next a, P n b) (hp : P n a) :
    (visit next n a).map f = visit next₂ n (f a) := by
  induction n generalizing a
  case zero => rfl
  case succ n hi =>
    obtain ⟨he, hb⟩ := h n a hp
    rw [visit, visit, List.map_cons, List.map_flatMap, ← he, List.flatMap_map]
    exact congrArg (f a :: ·) (List.flatMap_congr fun b hm => hi (hb b hm))

-- `S a b` is that `b` is `a` or lies below it, and `R` is the order of the rows.
theorem visit_pairwise {R S : α → α → Prop} (self : ∀ a, S a a) (up : ∀ a, ∀ b ∈ next a, ∀ c, S b c → S a c ∧ R a c)
    (apart : ∀ a, (next a).Pairwise fun b c => ∀ x y, S b x → S c y → R x y) :
    (∀ b ∈ visit next n a, S a b) ∧ (visit next n a).Pairwise R := by
  induction n generalizing a
  case zero => simp [visit, self]
  case succ n hi =>
    have below : ∀ c ∈ (next a).flatMap (visit next n), S a c ∧ R a c := fun c hc => by
      obtain ⟨b, hb, hc⟩ := List.mem_flatMap.mp hc
      exact up a b hb c (hi.left c hc)
    refine ⟨fun b hb => ?_, List.pairwise_cons.mpr ⟨fun c hc => (below c hc).right, ?_⟩⟩
    · obtain rfl | hb := List.mem_cons.mp hb
      · exact self _
      · exact (below b hb).left
    · refine List.pairwise_flatMap.mpr ⟨fun b _ => hi.right, (apart a).imp fun h x hx y hy => ?_⟩
      exact h x y (hi.left x hx) (hi.left y hy)

section Union

variable [DecidableEq α] {seen new : List α}

-- A row that is not new has led to what it leads to.
def Expanded (next : α → List α) (seen new : List α) : Prop :=
  ∀ a ∈ seen, a ∉ new → ∀ b ∈ next a, b ∈ seen

theorem mem_union_of_steps (hs : Expanded next seen new) {k : ℕ} (hk : k ≤ n) (ha : a ∈ seen) (h : Steps next k a b) :
    b ∈ union next n seen new := by
  induction n generalizing seen new a k
  case zero =>
    cases Nat.le_zero.mp hk
    cases h
    exact ha
  case succ n hi =>
    have led : ∀ a ∈ seen, ∀ b ∈ next a, b ∈ seen ++ (new.flatMap next).dedup.filter (· ∉ seen) := fun a ha b hb => by
      by_cases hn : b ∈ seen
      case pos => exact List.mem_append_left _ hn
      case neg =>
        have hw : a ∈ new := Classical.byContradiction fun hw => hn (hs a ha hw b hb)
        refine List.mem_append_right _ (List.mem_filter.mpr ⟨?_, decide_eq_true hn⟩)
        exact List.mem_dedup.mpr (List.mem_flatMap.mpr ⟨a, hw, hb⟩)
    have he : Expanded next (seen ++ (new.flatMap next).dedup.filter (· ∉ seen))
        ((new.flatMap next).dedup.filter (· ∉ seen)) := fun a ha hw b hb =>
      led a ((List.mem_append.mp ha).resolve_right hw) b hb
    cases k
    case zero =>
      cases h
      exact hi he (Nat.zero_le n) (List.mem_append_left _ ha) rfl
    case succ k =>
      obtain ⟨c, hc, hs⟩ := h
      exact hi he (Nat.le_of_succ_le_succ hk) (led a ha c hc) hs

theorem steps_of_mem_union (hs : new ⊆ seen) (h : b ∈ union next n seen new) :
    ∃ a ∈ seen, ∃ k ≤ n, Steps next k a b := by
  induction n generalizing seen new
  case zero => exact ⟨b, h, 0, Nat.le_refl 0, rfl⟩
  case succ n hi =>
    obtain ⟨a, ha, k, hk, hst⟩ := hi (List.subset_append_right _ _) h
    obtain ha | ha := List.mem_append.mp ha
    · exact ⟨a, ha, k, Nat.le_succ_of_le hk, hst⟩
    · obtain ⟨c, hc, hm⟩ := List.mem_flatMap.mp (List.mem_dedup.mp (List.mem_filter.mp ha).left)
      exact ⟨c, hs hc, k + 1, Nat.succ_le_succ hk, a, hm, hst⟩

theorem mem_union : b ∈ union next n rows rows ↔ ∃ a ∈ rows, ∃ k ≤ n, Steps next k a b := by
  constructor
  case mp  => exact steps_of_mem_union (List.Subset.refl rows)
  case mpr =>
    rintro ⟨a, ha, k, hk, hs⟩
    exact mem_union_of_steps (fun a ha hn => absurd ha hn) hk ha hs

end Union

end Rounds
