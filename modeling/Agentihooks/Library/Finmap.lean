import Mathlib.Data.Finset.Max
import Mathlib.Data.Prod.Lex
import Mathlib.Data.Finmap
import Mathlib.Data.Finset.Union

namespace Finmap

variable {κ : Type} [DecidableEq κ] {β γ : κ → Type}

-- A finite map given by its values on a finite set of keys. Every derived map of the development
-- (a difference, a patch, a projection) is built this way and then only known by its lookups.
def build (keys : Finset κ) (f : (k : κ) → Option (β k)) : Finmap β :=
  keysLookupEquiv.symm
    ⟨(keys.filter fun k => (f k).isSome, fun k => if k ∈ keys then f k else none), by
      intro k
      by_cases h : k ∈ keys <;> simp [h]⟩

@[simp]
theorem lookup_build (keys : Finset κ) (f : (k : κ) → Option (β k)) (k : κ) :
    (build keys f).lookup k = if k ∈ keys then f k else none := by
  simp [build]

theorem lookup_build_of_support {keys : Finset κ} {f : (k : κ) → Option (β k)} {k : κ}
    (h : k ∉ keys → f k = none) : (build keys f).lookup k = f k := by
  by_cases hk : k ∈ keys <;> simp [hk, h]

theorem lookup_eq_none_of_notMem_keys {d : Finmap β} {k : κ} (h : k ∉ d.keys) : d.lookup k = none :=
  lookup_eq_none.mpr (mem_keys.not.mp h)

theorem lookup_singleton_of_ne {k j : κ} {v : β k} (h : j ≠ k) : (singleton k v).lookup j = none :=
  lookup_eq_none.mpr ((mem_singleton j k v).not.mpr h)

def mapValues (f : (k : κ) → β k → γ k) (d : Finmap β) : Finmap γ :=
  build d.keys fun k => (d.lookup k).map (f k)

@[simp]
theorem lookup_mapValues (f : (k : κ) → β k → γ k) (d : Finmap β) (k : κ) :
    (d.mapValues f).lookup k = (d.lookup k).map (f k) :=
  lookup_build_of_support fun h => by simp [lookup_eq_none_of_notMem_keys h]

def restrict (p : κ → Prop) [DecidablePred p] (d : Finmap β) : Finmap β :=
  build d.keys fun k => if p k then d.lookup k else none

@[simp]
theorem lookup_restrict (p : κ → Prop) [DecidablePred p] (d : Finmap β) (k : κ) :
    (d.restrict p).lookup k = if p k then d.lookup k else none :=
  lookup_build_of_support fun h => by simp [lookup_eq_none_of_notMem_keys h]

theorem lookup_restrict_eq_some {p : κ → Prop} [DecidablePred p] {d : Finmap β} {k : κ} {v : β k} :
    (d.restrict p).lookup k = some v ↔ p k ∧ d.lookup k = some v := by
  rw [lookup_restrict]
  split <;> simp [*]

-- The entries that satisfy `p`.
def select (p : (k : κ) → β k → Prop) [∀ k v, Decidable (p k v)] (d : Finmap β) : Finmap β :=
  build d.keys fun k => (d.lookup k).filter fun v => p k v

theorem lookup_select (p : (k : κ) → β k → Prop) [∀ k v, Decidable (p k v)] (d : Finmap β) (k : κ) :
    (d.select p).lookup k = (d.lookup k).filter fun v => p k v :=
  lookup_build_of_support fun h => by simp [lookup_eq_none_of_notMem_keys h]

theorem lookup_select_eq_some {p : (k : κ) → β k → Prop} [∀ k v, Decidable (p k v)] {d : Finmap β} {k : κ} {v : β k} :
    (d.select p).lookup k = some v ↔ d.lookup k = some v ∧ p k v := by
  simp [lookup_select, Option.filter_eq_some_iff]

theorem select_eq_self {p : (k : κ) → β k → Prop} [∀ k v, Decidable (p k v)] {d : Finmap β}
    (h : ∀ k v, d.lookup k = some v → p k v) : d.select p = d := by
  refine ext_lookup fun k => Option.ext fun v => ?_
  rw [lookup_select_eq_some]
  exact ⟨And.left, fun hv => ⟨hv, h k v hv⟩⟩

theorem lookup_union (d₁ d₂ : Finmap β) (k : κ) :
    (d₁ ∪ d₂).lookup k = (d₁.lookup k).or (d₂.lookup k) := by
  by_cases h : k ∈ d₁
  case pos =>
    obtain ⟨v, hv⟩ := mem_iff.mp h
    simp [lookup_union_left h, hv]
  case neg => simp [lookup_union_right h, lookup_eq_none.mpr h]

theorem lookup_insert_ite (d : Finmap β) (k : κ) (v : β k) (j : κ) :
    (d.insert k v).lookup j = if h : j = k then some (h ▸ v) else d.lookup j := by
  split
  case isTrue h => subst h; simp
  case isFalse h => exact lookup_insert_of_ne d h

theorem lookup_erase_ite (d : Finmap β) (k j : κ) :
    (d.erase k).lookup j = if j = k then none else d.lookup j := by
  split
  case isTrue h => subst h; simp
  case isFalse h => exact lookup_erase_ne h

theorem lookup_erase_eq_some {d : Finmap β} {k j : κ} {v : β j} :
    (d.erase k).lookup j = some v ↔ j ≠ k ∧ d.lookup j = some v := by
  rw [lookup_erase_ite]
  split <;> simp [*]

-- Some entry of the map satisfies `p`: what a scan with `any(... for row in section.values())` asks.
def Exists (d : Finmap β) (p : (k : κ) → β k → Prop) : Prop :=
  ∃ k, ∃ v, d.lookup k = some v ∧ p k v

theorem exists_iff_keys {d : Finmap β} {p : (k : κ) → β k → Prop} :
    d.Exists p ↔ ∃ k ∈ d.keys, ∃ v ∈ d.lookup k, p k v := by
  constructor
  case mp =>
    intro ⟨k, v, hk, hp⟩
    exact ⟨k, mem_keys.mpr (mem_of_lookup_eq_some hk), v, hk, hp⟩
  case mpr =>
    intro ⟨k, _, v, hk, hp⟩
    exact ⟨k, v, hk, hp⟩

instance (d : Finmap β) (p : (k : κ) → β k → Prop) [∀ k v, Decidable (p k v)] :
    Decidable (d.Exists p) :=
  decidable_of_iff _ exists_iff_keys.symm

section Entries

variable {d d₁ d₂ : Finmap β}

omit [DecidableEq κ] in
theorem card_keys : d.keys.card = d.entries.card := by
  simp [keys, Multiset.keys]

-- A map that is put together from two parts without a common key.
theorem entries_of_parts (h : ∀ k, d.lookup k = (d₁.lookup k).or (d₂.lookup k))
    (hd : ∀ k, d₁.lookup k = none ∨ d₂.lookup k = none) : d.entries = d₁.entries + d₂.entries := by
  have nodup : (d₁.entries + d₂.entries).Nodup := by
    refine (Multiset.Nodup.add_iff d₁.nodup_entries d₂.nodup_entries).mpr
      (Multiset.disjoint_left.mpr fun {x} h₁ h₂ => ?_)
    have h₁ := lookup_eq_some_iff.mpr h₁
    have h₂ := lookup_eq_some_iff.mpr h₂
    obtain hn | hn := hd x.1
    · exact absurd (hn.symm.trans h₁) (by simp)
    · exact absurd (hn.symm.trans h₂) (by simp)
  refine (Multiset.Nodup.ext d.nodup_entries nodup).mpr fun ⟨k, v⟩ => ?_
  rw [Multiset.mem_add, ← lookup_eq_some_iff, ← lookup_eq_some_iff, ← lookup_eq_some_iff, h]
  obtain hn | hn := hd k <;> simp [hn]

theorem entries_mapValues {f : (k : κ) → β k → γ k} :
    (d.mapValues f).entries = d.entries.map fun x => ⟨x.1, f x.1 x.2⟩ := by
  have nodup : (d.entries.map fun x => (⟨x.1, f x.1 x.2⟩ : Sigma γ)).Nodup := by
    refine Multiset.Nodup.map_on (fun ⟨k, v⟩ hx ⟨j, w⟩ hy he => ?_) d.nodup_entries
    obtain rfl : k = j := congrArg Sigma.fst he
    have hv := (lookup_eq_some_iff.mpr hx).symm.trans (lookup_eq_some_iff.mpr hy)
    exact congrArg (Sigma.mk k) (Option.some.inj hv)
  refine (Multiset.Nodup.ext (nodup_entries _) nodup).mpr fun ⟨k, w⟩ => ?_
  rw [← lookup_eq_some_iff, lookup_mapValues, Multiset.mem_map]
  constructor
  case mp =>
    intro hw
    obtain ⟨v, hv, rfl⟩ := Option.map_eq_some_iff.mp hw
    exact ⟨⟨k, v⟩, lookup_eq_some_iff.mp hv, rfl⟩
  case mpr =>
    rintro ⟨⟨j, v⟩, hv, he⟩
    obtain rfl : j = k := congrArg Sigma.fst he
    obtain rfl : f j v = w := by simpa using he
    rw [lookup_eq_some_iff.mpr hv, Option.map_some]

theorem entries_erase {k : κ} {v : β k} (h : d.lookup k = some v) : d.entries = ⟨k, v⟩ ::ₘ (d.erase k).entries := by
  have hd : (d.erase k).insert k v = d := by
    refine ext_lookup fun j => ?_
    by_cases hj : j = k
    case pos => subst hj; rw [lookup_insert, h]
    case neg => rw [lookup_insert_of_ne _ hj, lookup_erase_ne hj]
  rw [← entries_insert_of_notMem notMem_erase_self, hd]

end Entries

end Finmap

-- The newest row of a map among those with a property: the greatest generation wins, and the greater
-- key among equal generations.

namespace Finmap

variable {κ V : Type} [LinearOrder κ]

def candidates (d : Finmap fun _ : κ => V) (p : V → Prop) [DecidablePred p] (generation : V → ℕ) :
    Finset (ℕ ×ₗ κ) :=
  d.keys.biUnion fun k => ((d.lookup k).filter p).elim ∅ fun v => {toLex (generation v, k)}

def newest (d : Finmap fun _ : κ => V) (p : V → Prop) [DecidablePred p] (generation : V → ℕ) :
    Option κ :=
  (d.candidates p generation).max.recBotCoe none fun x => some (ofLex x).2

variable {d : Finmap fun _ : κ => V} {p : V → Prop} [DecidablePred p] {generation : V → ℕ} {k : κ}

theorem mem_candidates {n : ℕ} :
    toLex (n, k) ∈ d.candidates p generation ↔
      ∃ v, d.lookup k = some v ∧ p v ∧ generation v = n := by
  simp only [candidates, Finset.mem_biUnion]
  constructor
  case mp =>
    intro ⟨j, _, hx⟩
    cases hv : d.lookup j
    case none => simp [hv] at hx
    case some v =>
      by_cases hp : p v
      case pos =>
        simp [hv, Option.filter, hp] at hx
        obtain ⟨rfl, rfl⟩ := hx
        exact ⟨v, hv, hp, rfl⟩
      case neg => simp [hv, Option.filter, hp] at hx
  case mpr =>
    intro ⟨v, hv, hp, hn⟩
    refine ⟨k, mem_keys.mpr (mem_of_lookup_eq_some hv), ?_⟩
    simp [hv, Option.filter, hp, hn]

theorem newest_eq_some :
    d.newest p generation = some k ↔
      ∃ v, d.lookup k = some v ∧ p v ∧
        ∀ j w, d.lookup j = some w → p w → toLex (generation w, j) ≤ toLex (generation v, k) := by
  unfold newest
  constructor
  case mp =>
    intro h
    cases hm : (d.candidates p generation).max
    case bot => simp [hm] at h
    case coe x =>
      simp [hm] at h
      obtain ⟨n, j⟩ := x
      change j = k at h
      subst h
      obtain ⟨v, hv, hp, rfl⟩ := mem_candidates.mp (Finset.mem_of_max hm)
      refine ⟨v, hv, hp, fun i w hi hw => ?_⟩
      exact Finset.le_max_of_eq (mem_candidates.mpr ⟨w, hi, hw, rfl⟩) hm
  case mpr =>
    intro ⟨v, hv, hp, hmax⟩
    have hm : (d.candidates p generation).max = toLex (generation v, k) := by
      apply le_antisymm
      · apply Finset.max_le
        intro ⟨n, j⟩ hx
        obtain ⟨w, hw, hpw, rfl⟩ := mem_candidates.mp hx
        exact WithBot.coe_le_coe.mpr (hmax j w hw hpw)
      · exact Finset.le_max (mem_candidates.mpr ⟨v, hv, hp, rfl⟩)
    rw [hm]
    rfl

theorem newest_eq_none : d.newest p generation = none ↔ ∀ j w, d.lookup j = some w → ¬p w := by
  unfold newest
  constructor
  case mp =>
    intro h j w hj hw
    have hx : toLex (generation w, j) ∈ d.candidates p generation :=
      mem_candidates.mpr ⟨w, hj, hw, rfl⟩
    replace hx := Finset.le_max hx
    cases hm : (d.candidates p generation).max
    case bot => simp [hm] at hx
    case coe => simp [hm] at h
  case mpr =>
    intro h
    have he : d.candidates p generation = ∅ := by
      apply Finset.eq_empty_of_forall_notMem
      intro ⟨n, j⟩ hx
      obtain ⟨w, hw, hpw, _⟩ := mem_candidates.mp hx
      exact h j w hw hpw
    simp [he]

-- The newest row is found by the rows with the property alone.
theorem newest_congr {d' : Finmap fun _ : κ => V}
    (h : ∀ j, (d.lookup j).filter p = (d'.lookup j).filter p) :
    d.newest p generation = d'.newest p generation := by
  have hc : d.candidates p generation = d'.candidates p generation := by
    ext ⟨n, j⟩
    have hf (d : Finmap fun _ : κ => V) :
        toLex (n, j) ∈ d.candidates p generation ↔ ∃ v, (d.lookup j).filter p = some v ∧ generation v = n := by
      rw [mem_candidates]
      simp [Option.filter_eq_some_iff, and_assoc]
    exact (hf d).trans (h j ▸ (hf d').symm)
  rw [newest, newest, hc]

theorem newest_isSome {w : V} (hk : d.lookup k = some w) (hp : p w) :
    ∃ j, d.newest p generation = some j := by
  cases h : d.newest p generation
  case some j => exact ⟨j, rfl⟩
  case none   => exact absurd hp (newest_eq_none.mp h k w hk)

end Finmap
