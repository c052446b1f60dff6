import Mathlib.Data.List.Sort
import Mathlib.Data.Prod.Lex
import Mathlib.Data.List.Nodup

-- A sorted set: every member carries a score, and the members are listed by score and, where scores
-- are equal, by the member itself. An `Index` is a family of them, one under each key.

structure ZSet (ι : Type) [LinearOrder ι] where
  entries : List (ℤ ×ₗ ι)
  sorted  : entries.Pairwise (· ≤ ·)
  unique  : (entries.map fun e => (ofLex e).snd).Nodup

abbrev Index (κ ι : Type) [LinearOrder ι] :=
  κ → ZSet ι

namespace ZSet

variable {ι : Type} [LinearOrder ι] {z : ZSet ι} {i j : ι} {s t : ℤ}

instance : EmptyCollection (ZSet ι) where
  emptyCollection := ⟨[], .nil, .nil⟩

def range (z : ZSet ι) : List ι :=
  z.entries.map fun e => (ofLex e).snd

def card (z : ZSet ι) : ℕ :=
  z.entries.length

def head? (z : ZSet ι) : Option ι :=
  z.range.head?

instance : Membership ι (ZSet ι) where
  mem z i := i ∈ z.range

instance : Decidable (i ∈ z) :=
  inferInstanceAs (Decidable (i ∈ z.range))

-- `i` is in the set with the score `s`.
def Scored (z : ZSet ι) (i : ι) (s : ℤ) : Prop :=
  toLex (s, i) ∈ z.entries

def zrem (z : ZSet ι) (i : ι) : ZSet ι where
  entries := z.entries.filter fun e => (ofLex e).snd ≠ i
  sorted  := z.sorted.filter _
  unique  := z.unique.sublist (List.filter_sublist.map _)

@[simp]
theorem notMem_empty : i ∉ (∅ : ZSet ι) :=
  List.not_mem_nil

@[simp]
theorem mem_range : i ∈ z.range ↔ i ∈ z :=
  Iff.rfl

theorem mem_iff_scored : i ∈ z ↔ ∃ s, z.Scored i s := by
  constructor
  case mp =>
    intro h
    obtain ⟨e, he, rfl⟩ := List.mem_map.mp h
    exact ⟨(ofLex e).fst, he⟩
  case mpr =>
    intro ⟨s, h⟩
    exact List.mem_map.mpr ⟨toLex (s, i), h, rfl⟩

theorem scored_zrem : (z.zrem i).Scored j t ↔ j ≠ i ∧ z.Scored j t := by
  simp only [Scored, zrem, List.mem_filter, decide_eq_true_eq]
  exact and_comm

@[simp]
theorem mem_zrem : j ∈ z.zrem i ↔ j ≠ i ∧ j ∈ z := by
  simp [mem_iff_scored, scored_zrem]

def zadd (z : ZSet ι) (i : ι) (s : ℤ) : ZSet ι where
  entries := (z.zrem i).entries.orderedInsert (· ≤ ·) (toLex (s, i))
  sorted  := (z.zrem i).sorted.orderedInsert _ _
  unique  := by
    have hp := (List.perm_orderedInsert (· ≤ ·) (toLex (s, i)) (z.zrem i).entries).map
      fun e => (ofLex e).snd
    refine hp.nodup_iff.mpr (List.nodup_cons.mpr ⟨?_, (z.zrem i).unique⟩)
    intro h
    exact (mem_zrem.mp h).left rfl

theorem scored_zadd : (z.zadd i s).Scored j t ↔ j = i ∧ t = s ∨ j ≠ i ∧ z.Scored j t := by
  simp only [Scored, zadd, List.mem_orderedInsert]
  rw [← Scored, scored_zrem]
  simp [Scored, and_comm]

@[simp]
theorem mem_zadd : j ∈ z.zadd i s ↔ j = i ∨ j ∈ z := by
  by_cases h : j = i <;> simp [mem_iff_scored, scored_zadd, h]

theorem scored_unique (hs : z.Scored i s) (ht : z.Scored i t) : s = t := by
  have h := List.inj_on_of_nodup_map z.unique hs ht rfl
  simpa using h

theorem card_eq_zero : z.card = 0 ↔ ∀ i, i ∉ z := by
  simp only [card, List.length_eq_zero_iff, mem_iff_scored, Scored, not_exists]
  constructor
  case mp  => intro h; simp [h]
  case mpr => intro h; exact List.eq_nil_iff_forall_not_mem.mpr fun e => h (ofLex e).snd (ofLex e).fst

theorem card_zrem_of_notMem (h : i ∉ z) : (z.zrem i).card = z.card := by
  refine congrArg List.length (List.filter_eq_self.mpr fun e he => ?_)
  have hn : (ofLex e).snd ≠ i := fun hi => h (hi ▸ List.mem_map.mpr ⟨e, he, rfl⟩)
  simpa using hn

theorem card_zrem_of_mem (h : i ∈ z) : (z.zrem i).card + 1 = z.card := by
  have hc : z.range.count i = 1 := List.count_eq_one_of_mem z.unique h
  have hl := z.entries.length_eq_countP_add_countP (p := fun e => decide ((ofLex e).snd ≠ i))
  have hn : z.entries.countP (fun e => ¬decide ((ofLex e).snd ≠ i)) = z.range.count i := by
    rw [range, List.count_eq_countP, List.countP_map]
    congr 1
    funext e
    simp [beq_eq_decide]
  rw [hn, hc, List.countP_eq_length_filter] at hl
  exact hl.symm

theorem card_zadd_of_mem (h : i ∈ z) : (z.zadd i s).card = z.card := by
  rw [← card_zrem_of_mem h]
  exact List.orderedInsert_length ..

theorem card_zadd_of_notMem (h : i ∉ z) : (z.zadd i s).card = z.card + 1 := by
  rw [← card_zrem_of_notMem h]
  exact List.orderedInsert_length ..

theorem head?_isSome : z.head?.isSome ↔ z.card ≠ 0 := by
  simp only [head?, card, range]
  cases z.entries <;> simp

-- The first member has the least score.
theorem scored_head (h : z.head? = some i) : ∃ s, z.Scored i s ∧ ∀ j t, z.Scored j t → s ≤ t := by
  obtain ⟨es, hs, hu⟩ := z
  cases es
  case nil => simp [head?, range] at h
  case cons e es =>
    obtain rfl : (ofLex e).snd = i := by simpa [head?, range] using h
    refine ⟨(ofLex e).fst, List.mem_cons_self, fun j t ht => ?_⟩
    have hle : e ≤ toLex (t, j) := by
      cases List.mem_cons.mp ht
      case inl he => exact he.ge
      case inr he => exact List.rel_of_pairwise_cons hs he
    exact Prod.Lex.monotone_fst e _ hle

theorem mem_of_head (h : z.head? = some i) : i ∈ z :=
  List.mem_of_head? h

end ZSet

namespace Index

variable {κ ι : Type} [DecidableEq κ] [LinearOrder ι] {f : Index κ ι} {a b : κ} {i j : ι} {s t : ℤ}

def zadd (f : Index κ ι) (a : κ) (i : ι) (s : ℤ) : Index κ ι :=
  Function.update f a ((f a).zadd i s)

def zrem (f : Index κ ι) (a : κ) (i : ι) : Index κ ι :=
  Function.update f a ((f a).zrem i)

@[simp]
theorem mem_zadd : j ∈ f.zadd a i s b ↔ b = a ∧ j = i ∨ j ∈ f b := by
  by_cases h : b = a
  case pos => subst h; simp [zadd]
  case neg => simp [zadd, h]

@[simp]
theorem mem_zrem : j ∈ f.zrem a i b ↔ ¬(b = a ∧ j = i) ∧ j ∈ f b := by
  by_cases h : b = a
  case pos => subst h; simp [zrem]
  case neg => simp [zrem, h]

@[simp]
theorem zadd_other (h : b ≠ a) : f.zadd a i s b = f b :=
  Function.update_of_ne h ..

@[simp]
theorem zrem_other (h : b ≠ a) : f.zrem a i b = f b :=
  Function.update_of_ne h ..

@[simp]
theorem zadd_same : f.zadd a i s a = (f a).zadd i s :=
  Function.update_self ..

@[simp]
theorem zrem_same : f.zrem a i a = (f a).zrem i :=
  Function.update_self ..

end Index
