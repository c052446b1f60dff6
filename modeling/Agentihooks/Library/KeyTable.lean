import Mathlib.Data.List.AList
import Mathlib.Data.List.Induction
import Agentihooks.Library.JsonValue

-- Tables by key, known by their lookups, and a table that is brought to hold what a dictionary does by the changes
-- between the two.

abbrev KeyTable (α β : Type) := AList fun _ : α => β

namespace KeyTable

variable {α β : Type} [DecidableEq α]

def ofList (l : List (α × β)) : KeyTable α β :=
  l.foldl (fun t x => t.insert x.1 x.2) ∅

def toList (t : KeyTable α β) : List (α × β) :=
  t.entries.map fun e => (e.1, e.2)

-- The entries that stay when the others are deleted, in their order.
def filter (t : KeyTable α β) (p : α → β → Bool) : KeyTable α β :=
  ⟨t.entries.filter fun e => p e.1 e.2, t.nodupKeys.sublist List.filter_sublist⟩

-- Sets the value under a key, or deletes the key.
def change (t : KeyTable α β) (x : α × Option β) : KeyTable α β :=
  match x.2 with
  | none   => t.erase x.1
  | some v => t.insert x.1 v

-- The keys under which two dictionaries differ, each with its value afterwards.
def changes [DecidableEq β] (before after : KeyTable α β) : List (α × Option β) :=
  ((before.keys ∪ after.keys).filter fun k => before.lookup k ≠ after.lookup k).map fun k => (k, after.lookup k)

def sync [DecidableEq β] (before after : KeyTable α β) : KeyTable α β :=
  (changes before after).foldl change before

variable {t before after : KeyTable α β} {k : α} {v : β}

theorem mem_keys_iff : k ∈ t.keys ↔ t.lookup k ≠ none := by
  rw [← AList.mem_keys, Ne, AList.lookup_eq_none, not_not]

theorem lookup_change {x : α × Option β} : (change t x).lookup k = if k = x.1 then x.2 else t.lookup k := by
  obtain ⟨j, o⟩ := x
  by_cases h : k = j
  case pos =>
    subst h
    cases o <;> simp [change]
  case neg => cases o <;> simp [change, h]

theorem lookup_union {s : KeyTable α β} : (s ∪ t).lookup k = (s.lookup k).or (t.lookup k) := by
  ext v
  have h : v ∈ (s ∪ t).lookup k ↔ v ∈ s.lookup k ∨ k ∉ s ∧ v ∈ t.lookup k := AList.mem_lookup_union
  simp only [Option.mem_def, ← AList.lookup_eq_none] at h
  rw [h]
  cases s.lookup k <;> simp

theorem foldl_insert {l : List (α × β)} :
    l.foldl (fun t x => t.insert x.1 x.2) t = (l.map fun x => (x.1, some x.2)).foldl change t := by
  rw [List.foldl_map]
  rfl

theorem lookup_ofList_map {f : α → β} {l : List α} (h : k ∈ l) :
    (ofList (l.map fun k => (k, f k))).lookup k = some (f k) := by
  induction l using List.reverseRecOn
  case nil => cases h
  case append_singleton l j hi =>
    have hl : ofList ((l ++ [j]).map fun k => (k, f k)) = (ofList (l.map fun k => (k, f k))).insert j (f j) := by
      simp [ofList]
    rw [hl]
    by_cases hk : k = j
    case pos => rw [hk, AList.lookup_insert]
    case neg =>
      rw [AList.lookup_insert_ne hk]
      refine hi ?_
      simpa [hk] using h

omit [DecidableEq α] in
theorem nodup_toList : (t.toList.map Prod.fst).Nodup := by
  rw [toList, List.map_map]
  exact t.keys_nodup

theorem mem_toList : (k, v) ∈ t.toList ↔ t.lookup k = some v := by
  rw [← Option.mem_def, AList.mem_lookup_iff, toList, List.mem_map]
  constructor
  case mp =>
    rintro ⟨⟨_, _⟩, hm, he⟩
    cases he
    exact hm
  case mpr => exact fun hm => ⟨_, hm, rfl⟩

theorem lookup_filter {p : α → β → Bool} : (t.filter p).lookup k = some v ↔ t.lookup k = some v ∧ p k v := by
  rw [← Option.mem_def, ← Option.mem_def, AList.mem_lookup_iff, AList.mem_lookup_iff, filter, List.mem_filter]

omit [DecidableEq α] in
theorem filter_filter {p : α → β → Bool} : (t.filter p).filter p = t.filter p := by
  apply AList.ext
  simp [filter]

section Changes

variable [DecidableEq β]

theorem nodup_changes : ((changes before after).map Prod.fst).Nodup := by
  rw [changes, List.map_map]
  exact ((List.Nodup.union _ after.keys_nodup).filter _).map fun _ _ h => h

theorem mem_changes {o : Option β} :
    (k, o) ∈ changes before after ↔ before.lookup k ≠ after.lookup k ∧ o = after.lookup k := by
  simp only [changes, List.mem_map, List.mem_filter, decide_eq_true_eq, Prod.mk.injEq, List.mem_union_iff,
    mem_keys_iff]
  constructor
  case mp =>
    rintro ⟨j, ⟨_, hne⟩, rfl, rfl⟩
    exact ⟨hne, rfl⟩
  case mpr =>
    rintro ⟨hne, rfl⟩
    refine ⟨k, ⟨?_, hne⟩, rfl, rfl⟩
    by_contra hc
    rw [not_or, not_not, not_not] at hc
    exact hne (hc.left.trans hc.right.symm)

end Changes

section Lists

variable {γ : Type} [BEq γ] [LawfulBEq γ] {k : γ} {l : List (γ × β)}

theorem lookup_eq_none_of_not_mem (h : k ∉ l.map Prod.fst) : l.lookup k = none := by
  rw [List.lookup_eq_none_iff]
  intro x hx
  simpa using fun he : k = x.1 => h (he ▸ List.mem_map_of_mem (f := Prod.fst) hx)

omit [LawfulBEq γ] in
theorem lookup_map_snd {δ : Type} (f : β → δ) : (l.map fun x => (x.1, f x.2)).lookup k = (l.lookup k).map f := by
  induction l
  case nil => rfl
  case cons x l hi =>
    rw [List.map_cons, List.lookup_cons, List.lookup_cons, hi]
    cases k == x.1 <;> rfl

end Lists

-- A list is looked up in with the equality that its own type comes with.
variable [BEq α] [LawfulBEq α] {l : List (α × β)}

-- Of changes under different keys each one is the last word on its key.
theorem lookup_foldl_change {l : List (α × Option β)} (h : (l.map Prod.fst).Nodup) :
    (l.foldl change t).lookup k = (l.lookup k).getD (t.lookup k) := by
  induction l generalizing t
  case nil => rfl
  case cons x l hi =>
    obtain ⟨j, o⟩ := x
    rw [List.map_cons, List.nodup_cons] at h
    rw [List.foldl_cons, hi h.right, lookup_change, List.lookup_cons]
    by_cases he : k = j
    case pos =>
      subst he
      simp [lookup_eq_none_of_not_mem h.left]
    case neg =>
      have hb : (k == j) = false := by simpa using he
      simp [he, hb]

theorem lookup_ofList (h : (l.map Prod.fst).Nodup) : (ofList l).lookup k = l.lookup k := by
  have hm : ((l.map fun x => (x.1, some x.2)).map Prod.fst).Nodup := by simpa [List.map_map, Function.comp_def] using h
  rw [ofList, foldl_insert, lookup_foldl_change hm, lookup_map_snd]
  cases l.lookup k <;> rfl

theorem lookup_toList : t.toList.lookup k = t.lookup k := by
  ext v
  rw [JsonValue.lookup_eq_some_iff_mem nodup_toList, mem_toList]

-- A dictionary with the lookups of a list has its entries, in some order.
theorem perm_of_lookup (hn : (l.map Prod.fst).Nodup) (h : ∀ k, t.lookup k = l.lookup k) : t.toList.Perm l := by
  refine (List.perm_ext_iff_of_nodup (nodup_toList.of_map _) (hn.of_map _)).mpr fun x => ?_
  obtain ⟨k, v⟩ := x
  rw [mem_toList, h, JsonValue.lookup_eq_some_iff_mem hn]

variable [DecidableEq β]

theorem lookup_changes : (changes before after).lookup k =
    if before.lookup k ≠ after.lookup k then some (after.lookup k) else none := by
  ext o
  rw [JsonValue.lookup_eq_some_iff_mem nodup_changes, mem_changes]
  split_ifs with h
  case pos => simp [h, eq_comm]
  case neg => simp [h]

omit [BEq α] [LawfulBEq α] in
-- What the table held before makes no difference.
theorem lookup_sync : (sync before after).lookup k = after.lookup k := by
  rw [sync, lookup_foldl_change nodup_changes, lookup_changes]
  by_cases h : before.lookup k = after.lookup k
  case pos => simp [h]
  case neg => simp [h]

end KeyTable
