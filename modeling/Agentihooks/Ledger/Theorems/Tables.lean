import Agentihooks.Ledger.Rows
import Agentihooks.Ledger.Theorems.Overlay

-- A difference that is written over the rows of a document: what the tables hold then, and what is read from them.

namespace Ledger

variable {p : Part} {path q : Path} {key : Key} {position i : ℕ} {rows before after : Rows} {row : Row}
variable {old new v w x y c : JsonValue} {tables : Tables} {table : Table}

section Exact

-- The rows are those of the value.
def Holds (rows : Rows) (v : JsonValue) : Prop :=
  ∀ q, rows.lookup q = rowAt .root 0 v q

theorem Holds.stores (h : Holds rows v) : Stores rows v :=
  fun q => h q ▸ Agree.refl _

theorem Holds.row_of_child (h : Holds rows w) (hd : w.distinct) (hy : valueAt w q = some y)
    (hc : (children y)[i]? = some (p, c)) : rows.lookup (q ++ [p]) = some ⟨p.key i, i, kind c, leaf c⟩ := by
  have hi := (indexed_eq_some (j := i) (i := 0) (nodup_children (distinct_valueAt hd hy))).mpr ⟨i, by simp, hc⟩
  rw [h, rowAt_concat, hy, Option.bind_some, hi, Option.map_some]

theorem Holds.childRows (h : Holds rows w) (hd : w.distinct) (hy : valueAt w q = some y) :
    childRows rows q = rowsOf rows q ((children y).map Prod.fst) := by
  refine childRows_of_positions h.stores hd hy fun i p row hi hr => ?_
  obtain ⟨⟨_, c⟩, hc, rfl⟩ := Option.map_eq_some_iff.mp (List.getElem?_map ▸ hi)
  cases hr.symm.trans (h.row_of_child hd hy hc)
  rfl

-- What is read for a child is its key and the child.
def Gives (pair : Key × JsonValue) (kid : Part × JsonValue) : Prop :=
  (∃ i, pair.1 = kid.1.key i) ∧ pair.2 = kid.2

theorem container_eq {pairs : List (Key × JsonValue)} (hk : kind y ≠ .value) (h : List.Forall₂ Gives pairs (children y)) :
    container (kind y) pairs = y := by
  have hsnd {ps : List (Key × JsonValue)} {kids : List (Part × JsonValue)} (hg : List.Forall₂ Gives ps kids) :
      ps.map Prod.snd = kids.map Prod.snd := by
    induction hg with
    | nil           => rfl
    | cons hxy _ hi => rw [List.map_cons, List.map_cons, hi, hxy.right]
  cases y
  case scalar      => exact absurd rfl hk
  case array items =>
    have hz : (children (.array items)).map Prod.snd = items := by
      rw [children, List.map_snd_zip (by simp)]
    change JsonValue.array (pairs.map Prod.snd) = _
    rw [hsnd h, hz]
  case object fields =>
    rw [container, if_neg (by simp [kind])]
    congr
    rw [children] at h
    clear hsnd hk
    induction fields generalizing pairs
    case nil =>
      cases h
      rfl
    case cons x fields hi =>
      obtain ⟨name, x⟩ := x
      cases h
      case cons pair pairs hpair h =>
        obtain ⟨key, v⟩ := pair
        obtain ⟨⟨i, hkey⟩, hv⟩ := hpair
        dsimp only [Part.key] at hkey hv
        subst hkey hv
        rw [List.filterMap_cons, hi h]

theorem loadAt_eq (fuel : ℕ) (h : Holds rows w) (hd : w.distinct) (hy : valueAt w q = some y)
    (hf : depth rows ≤ fuel + q.length) : loadAt rows fuel q = .ok y := by
  have hrow : ∃ row, rows.lookup q = some row ∧ row.kind = kind y ∧ row.value = leaf y := by
    have hm := @map_rowAt w q .root 0
    rw [hy] at hm
    obtain ⟨row, hr, he⟩ := Option.map_eq_some_iff.mp hm
    exact ⟨row, (h q).trans hr, Prod.mk.inj he⟩
  obtain ⟨row, hr, hk, hv⟩ := hrow
  induction fuel generalizing q y row
  case zero =>
    have := length_lt_depth hr
    omega
  case succ fuel hi =>
    rw [loadAt, hr]
    dsimp only
    split
    case h_1 hkind =>
      cases y <;> simp [kind, hkind] at hk
      rw [hv, leaf]
    case h_2 hkind =>
      have hrows : ∀ kid ∈ children y, (rows.lookup (q ++ [kid.1])).isSome := by
        intro kid hkid
        obtain ⟨i, hi⟩ := List.mem_iff_getElem?.mp hkid
        exact Option.isSome_of_eq_some (h.row_of_child hd hy (p := kid.1) (c := kid.2) hi)
      have hread : ∀ x kid, IsChild rows q x kid → kid ∈ children y → ∃ pair, (do
          let item ← loadAt rows fuel x.1
          return (x.2.key, item)) = .ok pair ∧ Gives pair kid := by
        rintro ⟨child, row⟩ ⟨p, c⟩ hx hm
        obtain ⟨hvalue, hkey⟩ := h.stores.of_isChild hd hy hx hm
        obtain ⟨i, hi'⟩ := List.mem_iff_getElem?.mp hm
        have hrow := h.row_of_child hd hy hi'
        have hl : child.length = q.length + 1 := by
          rw [show child = q ++ [p] from hx.left]
          simp
        have hc : rows.lookup child = some ⟨p.key i, i, kind c, leaf c⟩ := by
          rw [show child = q ++ [p] from hx.left]
          exact hrow
        exact ⟨(row.key, c), by rw [hi hvalue (by omega) _ hc rfl rfl]; rfl, hkey, rfl⟩
      obtain ⟨pairs, he, hps⟩ := mapM_ok (h.childRows hd hy ▸ isChild_rowsOf hrows) hread
      rw [he, hk]
      exact congrArg Except.ok (container_eq (hk ▸ hkind) hps)

theorem Holds.rooted (h : Holds rows v) (hne : q ≠ []) (hr : rows.lookup q ≠ none) :
    ∃ row, rows.lookup q.dropLast = some row ∧ row.kind ≠ .value := by
  obtain ⟨path, p, rfl⟩ : ∃ path p, q = path ++ [p] := ⟨_, _, (List.dropLast_append_getLast hne).symm⟩
  rw [h, rowAt_concat] at hr
  obtain ⟨row, hrow⟩ := Option.ne_none_iff_exists'.mp hr
  obtain ⟨y, hy, hchild⟩ := Option.bind_eq_some_iff.mp hrow
  have hm := @map_rowAt v path .root 0
  rw [hy] at hm
  obtain ⟨row', hr', he⟩ := Option.map_eq_some_iff.mp hm
  refine ⟨row', by rw [List.dropLast_concat, h, hr'], fun hk => ?_⟩
  have hkind : kind y = .value := (congrArg Prod.fst he).symm.trans hk
  cases y with
  | scalar => simp [children, indexed] at hchild
  | _      => cases hkind

end Exact

section Tables

theorem Tables.lookup_of : (Tables.of rows table).lookup q = if tableAt q = table then rows.lookup q else none := by
  ext row
  rw [← Option.mem_def, AList.mem_lookup_iff]
  simp only [Tables.of, List.mem_filter, decide_eq_true_eq]
  rw [← AList.mem_lookup_iff, Option.mem_def]
  split <;> simp [*]

-- Every row is in its table.
def Tables.Sorted (tables : Tables) : Prop :=
  ∀ table q, tableAt q ≠ table → (tables table).lookup q = none

theorem Tables.Sorted.of : (Tables.of rows).Sorted := by
  intro table q hne
  rw [Tables.lookup_of, if_neg hne]

theorem lookup_union {rows' : Rows} : (rows ∪ rows').lookup q = (rows.lookup q).or (rows'.lookup q) := by
  cases h : rows.lookup q with
  | none     =>
    rw [AList.lookup_union_right (AList.lookup_eq_none.mp h), Option.none_or]
  | some row =>
    rw [AList.lookup_union_left (AList.lookup_isSome.mp (Option.isSome_of_eq_some h)), h, Option.some_or]

theorem Tables.Sorted.lookup_read (h : tables.Sorted) : tables.read.lookup q = (tables (tableAt q)).lookup q := by
  rw [Tables.read, lookup_union, lookup_union]
  cases ht : tableAt q with
  | fields    => rw [h .threads q (by simp [ht]), h .resources q (by simp [ht]), Option.none_or, Option.none_or]
  | resources =>
    rw [h .threads q (by simp [ht]), Option.none_or, h .fields q (by simp [ht]), Option.or_none]
  | threads   =>
    rw [h .resources q (by simp [ht]), h .fields q (by simp [ht]), Option.or_none, Option.or_none]

theorem Tables.lookup_write : (tables.write before after table).lookup q =
    if tableAt q = table then written ((tables table).lookup q) (before.lookup q, after.lookup q)
    else (tables table).lookup q := by
  have hpaths : (changes before after).filter (fun x => tableAt x.1 = table) =
      (((before.keys ∪ after.keys).filter fun path => before.lookup path ≠ after.lookup path).filter
        fun path => tableAt path = table).map fun path => (path, after.lookup path) := by
    rw [changes, List.filter_map]
    rfl
  have hm : q ∈ ((before.keys ∪ after.keys).filter fun path => before.lookup path ≠ after.lookup path).filter
      (fun path => tableAt path = table) ↔ tableAt q = table ∧ before.lookup q ≠ after.lookup q := by
    have hchanged := @mem_changed q ∅ before after
    simp only [writeRows, changes, List.map_map, Function.comp_def, List.map_id'] at hchanged
    rw [List.mem_filter, hchanged, decide_eq_true_eq, and_comm]
  simp only [Tables.write, hpaths, lookup_upserted, lookup_deleted, hm, written]
  by_cases ht : tableAt q = table
  case neg => simp [ht]
  case pos =>
    by_cases he : before.lookup q = after.lookup q
    case pos => simp [ht, he]
    case neg => cases ha : after.lookup q <;> simp [ht, ha ▸ he]

theorem Tables.Sorted.write (h : tables.Sorted) : (tables.write before after).Sorted := by
  intro table q hne
  rw [Tables.lookup_write, if_neg hne, h table q hne]

end Tables

-- The tables hold the overlay of the two documents.
theorem holds_write (ho : old.distinct) (hn : new.distinct) :
    Holds ((Tables.of (flatten old)).write (diff old new).1 (diff old new).2).read (overlay old new) := by
  intro q
  have hflat : (flatten old).lookup q = rowAt .root 0 old q := by
    have hw := (@puts_visit old [] .root 0 ∅ ho).within q
    rwa [List.nil_append, AList.lookup_empty, Option.or_none] at hw
  rw [Tables.Sorted.of.write.lookup_read, Tables.lookup_write, if_pos rfl, Tables.lookup_of, if_pos rfl, hflat,
    lookup_diff ho hn, written_overlay ho hn]

-- What is read after a write is the new document exactly if whatever the walk found equal is the same, and there is
-- a container to load.
theorem tables_write_iff (ho : old.distinct) (hn : new.distinct) :
    let stored := (Tables.of (flatten old)).write (diff old new).1 (diff old new).2
    (stored.Rooted ∧ ∃ assembled loaded, stored.assemble = .ok assembled ∧ assembled.alike JsonScalar.strict new ∧
      stored.load = .ok loaded ∧ loaded.alike JsonScalar.strict new) ↔ Tells old new ∧ kind new ≠ .value := by
  intro stored
  have h : Holds stored.read (overlay old new) := holds_write ho hn
  have hd := distinct_overlay ho hn
  have hassemble : stored.assemble = .ok (overlay old new) := loadAt_eq _ h hd rfl (by simp)
  have hrooted : stored.Rooted := by
    intro table path hne hr
    have ht : tableAt path = table := by
      by_contra ht
      exact hr (Tables.Sorted.of.write table path ht)
    rw [← ht, ← Tables.Sorted.lookup_read Tables.Sorted.of.write] at hr
    exact h.rooted hne hr
  have hload : stored.load = if kind (overlay old new) = .value then .error .missing else .ok (overlay old new) := by
    have hroot : stored.read.lookup [] = some ⟨.root, 0, kind (overlay old new), leaf (overlay old new)⟩ := h []
    rw [Tables.load, hroot]
    exact if_congr Iff.rfl rfl hassemble
  have hkind (halike : (overlay old new).alike JsonScalar.strict new) : kind (overlay old new) = kind new := by
    revert halike
    generalize overlay old new = v
    cases v <;> cases new <;> simp [JsonValue.alike, kind]
  constructor
  case mp =>
    rintro ⟨_, assembled, loaded, ha, halike, hl, _⟩
    obtain rfl := Except.ok.inj (hassemble.symm.trans ha)
    refine ⟨(overlay_alike_iff ho hn).mp halike, fun hvalue => ?_⟩
    rw [hload, if_pos ((hkind halike).trans hvalue)] at hl
    cases hl
  case mpr =>
    rintro ⟨htells, hvalue⟩
    have halike := (overlay_alike_iff ho hn).mpr htells
    refine ⟨hrooted, _, _, hassemble, halike, ?_, halike⟩
    rw [hload, if_neg (hkind halike ▸ hvalue)]

section Examples

def oneTask (done : JsonScalar) : JsonValue :=
  .object [("tasks", .array [.object [("id", .scalar (.str "t1")), ("done", .scalar done)]])]

theorem tables_write_iff_oneTask :
    let stored := (Tables.of (flatten (oneTask (.bool true)))).write (diff (oneTask (.bool true)) (oneTask .null)).1
      (diff (oneTask (.bool true)) (oneTask .null)).2
    (stored.Rooted ∧ ∃ assembled loaded, stored.assemble = .ok assembled ∧ assembled.alike JsonScalar.strict (oneTask .null) ∧
      stored.load = .ok loaded ∧ loaded.alike JsonScalar.strict (oneTask .null)) ↔
      Tells (oneTask (.bool true)) (oneTask .null) ∧ kind (oneTask .null) ≠ .value :=
  tables_write_iff (by decide) (by decide)

-- True becomes 1, which the walk finds equal: nothing is written, and the old document is read.
theorem tables_retyped :
    let (old, new) := (oneTask (.bool true), oneTask (.int 1))
    let stored := (Tables.of (flatten old)).write (diff old new).1 (diff old new).2
    old.distinct ∧ new.distinct ∧ stored.assemble.toOption = some old ∧ stored.load.toOption = some old ∧
      ¬old.alike JsonScalar.strict new := by
  decide +kernel

end Examples

end Ledger
