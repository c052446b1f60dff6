import Agentihooks.Ledger.Theorems.Diff
import Mathlib.Data.List.Perm.Basic

-- Reading stored rows gives the document that they store.

namespace Ledger

variable {v w x y c : JsonValue} {p : Part} {path q : Path} {key : Key} {position i : ℕ} {rows : Rows} {row : Row}

theorem mem_of_lookup {kids : List (Part × JsonValue)} (h : kids.lookup p = some c) : (p, c) ∈ kids := by
  obtain ⟨_, _, he, _⟩ := List.lookup_eq_some_iff.mp h
  simp [he]

theorem distinct_valueAt (h : v.distinct) (hy : valueAt v q = some y) : y.distinct := by
  induction q generalizing v
  case nil =>
    cases hy
    exact h
  case cons p q hi =>
    obtain ⟨c, hc, hy⟩ := Option.bind_eq_some_iff.mp hy
    exact hi (distinct_of_mem h (mem_of_lookup hc)) hy

theorem valueAt_append {r : Path} : valueAt v (q ++ r) = (valueAt v q).bind (valueAt · r) := by
  induction q generalizing v
  case nil => rfl
  case cons p q hi => cases h : (children v).lookup p <;> simp [valueAt, h, hi]

theorem valueAt_concat : valueAt v (q ++ [p]) = (valueAt v q).bind fun y => (children y).lookup p := by
  rw [valueAt_append]
  congr
  funext y
  cases h : (children y).lookup p <;> simp [valueAt, h]

theorem rowAt_concat : rowAt key position v (q ++ [p]) =
    (valueAt v q).bind fun y => (indexed 0 (children y) p).map fun x => ⟨p.key x.1, x.1, kind x.2, leaf x.2⟩ := by
  induction q generalizing v key position
  case nil =>
    rw [List.nil_append, rowAt, valueAt, Option.bind_some]
    cases indexed 0 (children v) p <;> rfl
  case cons p' q hi =>
    rw [List.cons_append, rowAt, valueAt, lookup_children (i := 0)]
    cases indexed 0 (children v) p'
    case none   => rfl
    case some x => exact hi

-- A row tells which kind of value there is, and which one if it is not a container.
theorem map_rowAt : (rowAt key position v q).map (fun row => (row.kind, row.value)) =
    (valueAt v q).map fun y => (kind y, leaf y) := by
  induction q generalizing v key position
  case nil => rfl
  case cons p q hi =>
    rw [rowAt, valueAt, lookup_children (i := 0)]
    cases indexed 0 (children v) p
    case none   => rfl
    case some x => exact hi

section Stored

theorem Stores.row_of_value (h : Stores rows w) (hy : valueAt w q = some y) :
    ∃ row, rows.lookup q = some row ∧ row.kind = kind y ∧ row.value.loose (leaf y) := by
  have hm := @map_rowAt w q .root 0
  rw [hy] at hm
  obtain ⟨row', hr, he⟩ := Option.map_eq_some_iff.mp hm
  have ha := h q
  rw [hr] at ha
  generalize hl : rows.lookup q = l at ha
  cases ha
  case some row ha =>
    have hk : row'.kind = kind y := congrArg Prod.fst he
    have hv : row'.value = leaf y := congrArg Prod.snd he
    exact ⟨row, rfl, ha.kind.trans hk, hv ▸ ha.value⟩

theorem Stores.value_of_row (h : Stores rows w) (hr : rows.lookup q = some row) :
    ∃ y, valueAt w q = some y ∧ row.kind = kind y ∧ row.value.loose (leaf y) := by
  have ha := h q
  rw [hr] at ha
  generalize hl : rowAt .root 0 w q = l at ha
  cases ha
  case some row' ha =>
    have hm := @map_rowAt w q .root 0
    rw [hl] at hm
    obtain ⟨y, hy, he⟩ := Option.map_eq_some_iff.mp hm.symm
    have hk : kind y = row'.kind := congrArg Prod.fst he
    have hv : leaf y = row'.value := congrArg Prod.snd he
    exact ⟨y, hy, ha.kind.trans hk.symm, hv ▸ ha.value⟩

theorem Stores.row_of_child (h : Stores rows w) (hd : w.distinct) (hy : valueAt w q = some y)
    (hc : (children y)[i]? = some (p, c)) : ∃ row, rows.lookup (q ++ [p]) = some row ∧
      row.Agrees ⟨p.key i, i, kind c, leaf c⟩ := by
  have ha := h (q ++ [p])
  have hi := (indexed_eq_some (j := i) (i := 0) (nodup_children (distinct_valueAt hd hy))).mpr ⟨i, by simp, hc⟩
  rw [rowAt_concat, hy, Option.bind_some, hi, Option.map_some] at ha
  generalize rows.lookup (q ++ [p]) = l at ha
  cases ha
  case some row ha => exact ⟨row, rfl, ha⟩

end Stored

theorem mem_childRows {child : Path} :
    (child, row) ∈ childRows rows q ↔ ∃ p, child = q ++ [p] ∧ rows.lookup child = some row := by
  simp only [childRows, List.mem_insertionSort, List.mem_map, List.mem_filter, decide_eq_true_iff, Prod.mk.injEq]
  constructor
  case mp =>
    rintro ⟨⟨_, _⟩, ⟨hm, hne, rfl⟩, rfl, rfl⟩
    exact ⟨_, (List.dropLast_append_getLast hne).symm, AList.mem_lookup_iff.mpr hm⟩
  case mpr =>
    rintro ⟨p, rfl, hr⟩
    exact ⟨⟨q ++ [p], row⟩, ⟨AList.mem_lookup_iff.mp hr, by simp, by simp⟩, rfl, rfl⟩

theorem nodup_childRows : (childRows rows q).Nodup := by
  rw [childRows, (List.perm_insertionSort _ _).nodup_iff]
  refine List.Nodup.map ?_ (rows.nodupKeys.nodup.filter _)
  rintro ⟨_, _⟩ ⟨_, _⟩ he
  cases he
  rfl

section Children

variable {kids : List (Part × JsonValue)}

-- A stored child of the container at `q`.
def IsChild (rows : Rows) (q : Path) (x : Path × Row) (kid : Part × JsonValue) : Prop :=
  x.1 = q ++ [kid.1] ∧ rows.lookup x.1 = some x.2

-- The stored children under the given parts, in the order of the parts.
def rowsOf (rows : Rows) (q : Path) (ps : List Part) : List (Path × Row) :=
  ps.filterMap fun p => (rows.lookup (q ++ [p])).map fun row => (q ++ [p], row)

theorem isChild_rowsOf (h : ∀ kid ∈ kids, (rows.lookup (q ++ [kid.1])).isSome) :
    List.Forall₂ (IsChild rows q) (rowsOf rows q (kids.map Prod.fst)) kids := by
  induction kids
  case nil => exact .nil
  case cons kid kids hi =>
    rw [List.forall_mem_cons] at h
    obtain ⟨row, hr⟩ := Option.isSome_iff_exists.mp h.left
    rw [rowsOf, List.map_cons, List.filterMap_cons, hr]
    exact .cons ⟨rfl, hr⟩ (hi h.right)

theorem mem_rowsOf {ps : List Part} {child : Path} : (child, row) ∈ rowsOf rows q ps ↔
    ∃ p ∈ ps, child = q ++ [p] ∧ rows.lookup child = some row := by
  simp only [rowsOf, List.mem_filterMap, Option.map_eq_some_iff, Prod.mk.injEq]
  constructor
  case mp =>
    rintro ⟨p, hp, row, hr, rfl, rfl⟩
    exact ⟨p, hp, rfl, hr⟩
  case mpr =>
    rintro ⟨p, hp, rfl, hr⟩
    exact ⟨p, hp, row, hr, rfl, rfl⟩

theorem nodup_rowsOf {ps : List Part} (hn : ps.Nodup) : (rowsOf rows q ps).Nodup := by
  refine hn.filterMap fun a b x ha hb => ?_
  obtain ⟨_, _, rfl⟩ := Option.map_eq_some_iff.mp ha
  obtain ⟨_, _, he⟩ := Option.map_eq_some_iff.mp hb
  simpa using (congrArg Prod.fst he).symm

theorem perm_childRows (h : Stores rows w) (hd : w.distinct) (hy : valueAt w q = some y) :
    (childRows rows q).Perm (rowsOf rows q ((children y).map Prod.fst)) := by
  rw [List.perm_ext_iff_of_nodup nodup_childRows (nodup_rowsOf (nodup_children (distinct_valueAt hd hy)))]
  rintro ⟨child, row⟩
  rw [mem_childRows, mem_rowsOf]
  constructor
  case mp =>
    rintro ⟨p, rfl, hr⟩
    obtain ⟨c, hc, _⟩ := h.value_of_row hr
    rw [valueAt_concat, hy] at hc
    exact ⟨p, List.mem_map_of_mem (f := Prod.fst) (mem_of_lookup hc), rfl, hr⟩
  case mpr =>
    rintro ⟨p, _, rfl, hr⟩
    exact ⟨p, rfl, hr⟩

theorem pairwise_rowsOf {R : Path × Row → Path × Row → Prop} {ps : List Part}
    (h : ∀ (i j : ℕ) p p' row row', i < j → ps[i]? = some p → ps[j]? = some p' → rows.lookup (q ++ [p]) = some row →
      rows.lookup (q ++ [p']) = some row' → R (q ++ [p], row) (q ++ [p'], row')) : (rowsOf rows q ps).Pairwise R := by
  rw [rowsOf, List.pairwise_filterMap, List.pairwise_iff_getElem]
  intro i j hi hj hij x hx y hy
  obtain ⟨row, hr, rfl⟩ := Option.map_eq_some_iff.mp hx
  obtain ⟨row', hr', rfl⟩ := Option.map_eq_some_iff.mp hy
  exact h i j _ _ row row' hij (List.getElem?_eq_getElem hi) (List.getElem?_eq_getElem hj) hr hr'

theorem position_of_part {items : List JsonValue} (h : Stores rows w) (hd : w.distinct)
    (hy : valueAt w q = some (.array items)) (hp : (parts items)[i]? = some p) (hr : rows.lookup (q ++ [p]) = some row) :
    row.position = i := by
  obtain ⟨⟨_, c⟩, hc, rfl⟩ := Option.map_eq_some_iff.mp (List.getElem?_map ▸ map_children_array ▸ hp)
  obtain ⟨row', hr', ha⟩ := h.row_of_child hd hy hc
  cases hr.symm.trans hr'
  have hk : _ = Key.index i := ha.key.trans (key_of_mem_parts _ (List.mem_of_getElem? hp) i)
  exact ha.position i hk

-- Children that are stored with their places for positions are read in their order.
theorem childRows_of_positions (h : Stores rows w) (hd : w.distinct) (hy : valueAt w q = some y)
    (hp : ∀ i p row, ((children y).map Prod.fst)[i]? = some p → rows.lookup (q ++ [p]) = some row → row.position = i) :
    childRows rows q = rowsOf rows q ((children y).map Prod.fst) := by
  have hperm := perm_childRows h hd hy
  have hm : ∀ x ∈ rowsOf rows q ((children y).map Prod.fst), ((children y).map Prod.fst)[x.2.position]? = x.1.getLast? := by
    rintro ⟨child, row⟩ hx
    obtain ⟨p, hm, rfl, hr⟩ := mem_rowsOf.mp hx
    obtain ⟨i, hi⟩ := List.mem_iff_getElem?.mp hm
    simp only [hp i p row hi hr, hi, List.getLast?_concat]
  refine hperm.eq_of_pairwise ?_ (List.pairwise_insertionSort _ _) ?_
  case refine_1 =>
    rintro ⟨child, row⟩ ⟨child', row'⟩ hx hx' hle hle'
    have he := hm _ (hperm.subset hx)
    have he' := hm _ hx'
    rw [show row.position = row'.position from le_antisymm hle hle', he'] at he
    obtain ⟨p, _, rfl, hr⟩ := mem_rowsOf.mp (hperm.subset hx)
    obtain ⟨p', _, rfl, hr'⟩ := mem_rowsOf.mp hx'
    simp at he
    subst he
    rw [hr] at hr'
    cases hr'
    rfl
  case refine_2 =>
    refine pairwise_rowsOf fun i j p p' row row' hij hi hj hr hr' => ?_
    rw [hp i p row hi hr, hp j p' row' hj hr']
    exact hij.le

-- What is read for a child: its key and a value like its own.
def Reads (pair : Key × JsonValue) (kid : Part × JsonValue) : Prop :=
  (∃ i, pair.1 = kid.1.key i) ∧ pair.2.alike JsonScalar.loose kid.2

end Children

theorem mapM_ok {ε α β γ : Type} {R : α → γ → Prop} {P : β → γ → Prop} {f : α → Except ε β} {xs : List α}
    {zs : List γ} (h : List.Forall₂ R xs zs) (hf : ∀ x z, R x z → z ∈ zs → ∃ y, f x = .ok y ∧ P y z) :
    ∃ ys, xs.mapM f = .ok ys ∧ List.Forall₂ P ys zs := by
  induction h
  case nil => exact ⟨[], rfl, .nil⟩
  case cons x z xs zs hx _ hi =>
    obtain ⟨y, hy, hp⟩ := hf x z hx (by simp)
    obtain ⟨ys, hys, hps⟩ := hi fun x z hr hz => hf x z hr (by simp [hz])
    refine ⟨y :: ys, ?_, .cons hp hps⟩
    rw [List.mapM_cons, hy, hys]
    rfl

theorem length_lt_depth (hr : rows.lookup q = some row) : q.length < depth rows := by
  have hm : q ∈ rows.keys := AList.mem_keys.mp (AList.lookup_isSome.mp (Option.isSome_of_eq_some hr))
  have hl {l : List Path} (h : q ∈ l) : q.length ≤ (l.map List.length).foldr max 0 := by
    induction l
    case nil => simp at h
    case cons a l hi =>
      rw [List.map_cons, List.foldr_cons]
      rcases List.mem_cons.mp h with rfl | h
      · exact Nat.le_max_left _ _
      · exact (hi h).trans (Nat.le_max_right _ _)
  exact Nat.lt_succ_of_le (hl hm)

theorem Stores.of_isChild (h : Stores rows w) (hd : w.distinct) (hy : valueAt w q = some y) {child : Path}
    (hc : IsChild rows q (child, row) (p, c)) (hm : (p, c) ∈ children y) :
    valueAt w child = some c ∧ ∃ i, row.key = p.key i := by
  obtain ⟨rfl, hr⟩ := hc
  have hn := nodup_children (distinct_valueAt hd hy)
  obtain ⟨i, hi⟩ := List.mem_iff_getElem?.mp hm
  obtain ⟨row', hr', ha⟩ := h.row_of_child hd hy hi
  cases hr.symm.trans hr'
  refine ⟨?_, i, ha.key⟩
  rw [valueAt_concat, hy, Option.bind_some]
  exact (JsonValue.lookup_eq_some_iff_mem hn).mpr hm

section Same

-- The children of two values under one part: alike, and at one place if they are elements.
def SameChild (p : Part) (a b : Option (ℕ × JsonValue)) : Prop :=
  Option.Rel (fun a b => (∀ i, p.key a.1 = .index i → a.1 = b.1) ∧ a.2.alike JsonScalar.loose b.2) a b

theorem SameChild.symm {a b : Option (ℕ × JsonValue)} (h : SameChild p a b) : SameChild p b a := by
  cases h
  case none => exact .none
  case some a b h =>
    refine .some ⟨fun i hk => ?_, JsonValue.alike_symm JsonScalar.loose_symm h.right⟩
    cases p
    case name    => cases hk
    case element => exact (h.left a.1 rfl).symm

end Same

end Ledger
