import Mathlib.Data.Set.List
import Agentihooks.Ledger.Seeds
import Agentihooks.Ledger.Theorems.Columns

-- What is read of the seeds is what was written last, whatever the tables held before.

namespace Ledger.Seeds

open JsonText (Floats)
open Columns (Fault)

variable {floats : Floats} {row : StoredRow} {rows previous : Snapshot} {path : Text} {revision : String}
variable {seed : JsonValue} {seeds acc rest : Seeds} {k : ℕ}

section Rows

theorem tableOf_name (table : Table) : tableOf (Table.name table) = some table := by
  cases table <;> decide

theorem kindOf_name (kind : Kind) : kindOf (Kind.name kind) = some kind := by
  cases kind <;> decide

theorem readRow_rowText (row : StoredRow) : readRow floats (rowText floats row) = .ok row := by
  have hp : ¬ (row.position : ℤ) < 0 := by omega
  rw [readRow, rowText, JsonText.readScalars_encode]
  cases hparent : row.parent <;>
    simp [rowScalars, hparent, tableOf_name, kindOf_name, parentOf, hp]
  all_goals rw [← hparent]

theorem rowText_injective : Function.Injective (rowText floats) := by
  intro a b h
  exact Except.ok.inj ((readRow_rowText a).symm.trans ((congrArg (readRow floats) h).trans (readRow_rowText b)))

theorem appliedAll_eq (l : List (Text × Option StoredRow)) :
    appliedAll floats rows (l.map fun x => (x.1, x.2.map (rowText floats))) = .ok (l.foldl KeyTable.change rows) := by
  induction l generalizing rows
  case nil => rfl
  case cons x l hi =>
    have hx : applied floats rows x.1 (x.2.map (rowText floats)) = .ok (KeyTable.change rows x) := by
      cases hv : x.2
      case none     => simp [applied, KeyTable.change, hv]
      case some row => simp [applied, KeyTable.change, hv, readRow_rowText, Except.map]
    rw [List.map_cons, appliedAll, hx]
    exact hi

-- Rows whose changes are written as texts.
theorem appliedAll_ok {l : List (Text × Option Text)} {after : Text → Option (Option StoredRow)}
    (hn : (l.map Prod.fst).Nodup) (hl : ∀ path, l.lookup path = (after path).map fun row => row.map (rowText floats)) :
    ∃ found, appliedAll floats rows l = .ok found ∧ ∀ path, found.lookup path = (after path).getD (rows.lookup path) := by
  let f (x : Text × Option StoredRow) : Text × Option Text := (x.1, x.2.map (rowText floats))
  have hr : l ∈ Set.range (List.map f) := by
    rw [Set.range_list_map]
    rintro ⟨path, value⟩ hx
    have hv := (JsonValue.lookup_eq_some_iff_mem hn).mpr hx
    obtain ⟨row, _, rfl⟩ := Option.map_eq_some_iff.mp ((hl path).symm.trans hv)
    exact ⟨(path, row), rfl⟩
  obtain ⟨m, rfl⟩ := hr
  have hm (path : Text) : m.lookup path = after path := by
    have he := hl path
    rw [show m.map f = m.map fun x => (x.1, x.2.map (rowText floats)) from rfl,
      KeyTable.lookup_map_snd fun row : Option StoredRow => row.map (rowText floats)] at he
    exact Option.map_injective (Option.map_injective rowText_injective) he
  refine ⟨m.foldl KeyTable.change rows, appliedAll_eq m, fun path => ?_⟩
  have hnm : (m.map Prod.fst).Nodup := by simpa [List.map_map, Function.comp_def, f] using hn
  rw [KeyTable.lookup_foldl_change hnm, hm]

end Rows

section Snapshots

theorem lookup_snapshot (h : seed.distinct) : (snapshot floats seed).lookup path = (Columns.visits floats seed).lookup path := by
  rw [snapshot, flatten_eq h, KeyTable.lookup_ofList (nodup_visits h)]

-- Rows with the lookups of a snapshot are assembled to its seed.
theorem assemble_snapshot (h : seed.distinct) (hr : ∀ path, rows.lookup path = (snapshot floats seed).lookup path) :
    Columns.assemble floats rows.toList = .ok seed :=
  assemble_of_perm h (KeyTable.perm_of_lookup (nodup_visits h) fun _ => (hr _).trans (lookup_snapshot h))

-- The delta of a revision to the snapshot of the seed, on the rows before.
def deltaOf (floats : Floats) (previous : Snapshot) (seed : JsonValue) (path : Text) : Option (Option StoredRow) :=
  if previous.lookup path ≠ (snapshot floats seed).lookup path then some ((snapshot floats seed).lookup path) else none

theorem deltaOf_getD : (deltaOf floats previous seed path).getD (previous.lookup path) = (snapshot floats seed).lookup path := by
  unfold deltaOf
  split_ifs with h
  case pos => rfl
  case neg => simpa using h

theorem revision_of_mem {x : (String × Text) × Option Text} (h : x ∈ deltasOf floats previous rest) :
    x.1.1 ∈ rest.map Prod.fst := by
  induction rest generalizing previous
  case nil => cases h
  case cons y rest hi =>
    rw [deltasOf, List.mem_append] at h
    cases h
    case inl h =>
      obtain ⟨_, _, rfl⟩ := List.mem_map.mp h
      exact List.mem_cons_self
    case inr h => exact List.mem_cons_of_mem _ (hi h)

theorem nodup_deltasOf (h : (rest.map Prod.fst).Nodup) : ((deltasOf floats previous rest).map Prod.fst).Nodup := by
  induction rest generalizing previous
  case nil => exact List.nodup_nil
  case cons y rest hi =>
    obtain ⟨revision, seed⟩ := y
    rw [List.map_cons, List.nodup_cons] at h
    rw [deltasOf, List.map_append, List.nodup_append]
    refine ⟨?_, hi h.right, ?_⟩
    case refine_1 =>
      have hn : ((KeyTable.changes previous (snapshot floats seed)).map Prod.fst).Nodup := KeyTable.nodup_changes
      rw [List.map_map]
      have hm := hn.map (f := fun path => (revision, path)) fun _ _ he => (Prod.mk.inj he).right
      rwa [List.map_map] at hm
    case refine_2 =>
      rintro _ hx _ hy rfl
      obtain ⟨_, hx', rfl⟩ := List.mem_map.mp hx
      obtain ⟨z, hz, he⟩ := List.mem_map.mp hy
      obtain ⟨_, _, rfl⟩ := List.mem_map.mp hx'
      have hr := revision_of_mem hz
      rw [he] at hr
      exact h.left hr

theorem lookup_deltasOf_head (h : revision ∉ rest.map Prod.fst) :
    (deltasOf floats previous ((revision, seed) :: rest)).lookup (revision, path) =
      (deltaOf floats previous seed path).map fun row => row.map (rowText floats) := by
  have hrest : (deltasOf floats (snapshot floats seed) rest).lookup (revision, path) = none := by
    refine KeyTable.lookup_eq_none_of_not_mem fun hm => ?_
    obtain ⟨x, hx, he⟩ := List.mem_map.mp hm
    exact h (he ▸ revision_of_mem hx : (revision, path).1 ∈ _)
  have hhead {l : List (Text × Option StoredRow)} :
      (l.map fun x => ((revision, x.1), x.2.map (rowText floats))).lookup (revision, path) =
        (l.lookup path).map fun row => row.map (rowText floats) := by
    induction l
    case nil => rfl
    case cons x l hi =>
      rw [List.map_cons, List.lookup_cons, List.lookup_cons, hi]
      by_cases he : path = x.1
      case pos => simp [he]
      case neg =>
        have hb : (path == x.1) = false := by simpa using he
        have hb' : ((revision, path) == (revision, x.1)) = false := by simpa using he
        rw [hb, hb']
  rw [deltasOf, List.lookup_append, hrest, Option.or_none, hhead, KeyTable.lookup_changes, deltaOf]

theorem lookup_deltasOf_tail {other : String} (h : other ≠ revision) :
    (deltasOf floats previous ((revision, seed) :: rest)).lookup (other, path) =
      (deltasOf floats (snapshot floats seed) rest).lookup (other, path) := by
  have hhead : ((KeyTable.changes previous (snapshot floats seed)).map fun x =>
      ((revision, x.1), x.2.map (rowText floats))).lookup (other, path) = none := by
    refine KeyTable.lookup_eq_none_of_not_mem fun hm => ?_
    rw [List.map_map] at hm
    obtain ⟨x, _, he⟩ := List.mem_map.mp hm
    exact h (Prod.mk.inj he).left.symm
  rw [deltasOf, List.lookup_append, hhead, Option.none_or]

end Snapshots

section Read

variable {deltas : KeyTable (String × Text) (Option Text)}

theorem nodup_revision :
    (((deltas.toList.filter fun x => x.1.1 = revision).map fun x => (x.1.2, x.2)).map Prod.fst).Nodup := by
  have hn : ((deltas.toList.filter fun x => x.1.1 = revision).map Prod.fst).Nodup :=
    KeyTable.nodup_toList.sublist (List.filter_sublist.map _)
  have hm := List.Nodup.map_on (f := Prod.snd) (fun a ha b hb he => ?_) hn
  case refine_1 =>
    obtain ⟨x, hx, rfl⟩ := List.mem_map.mp ha
    obtain ⟨y, hy, rfl⟩ := List.mem_map.mp hb
    have hxr := of_decide_eq_true (List.mem_filter.mp hx).right
    have hyr := of_decide_eq_true (List.mem_filter.mp hy).right
    exact Prod.ext (hxr.trans hyr.symm) he
  simpa [List.map_map, Function.comp_def] using hm

-- The deltas of one revision, by their paths.
theorem lookup_revision : ((deltas.toList.filter fun x => x.1.1 = revision).map fun x => (x.1.2, x.2)).lookup path =
    deltas.lookup (revision, path) := by
  ext value
  rw [JsonValue.lookup_eq_some_iff_mem nodup_revision, ← KeyTable.mem_toList, List.mem_map]
  constructor
  case mp =>
    rintro ⟨⟨⟨other, _⟩, _⟩, hx, he⟩
    obtain ⟨hm, hr⟩ := List.mem_filter.mp hx
    cases he
    rwa [← of_decide_eq_true hr]
  case mpr => exact fun hm => ⟨_, List.mem_filter.mpr ⟨hm, decide_eq_true rfl⟩, rfl⟩

-- The rows of a revision follow from those of the one before, and so the seeds come out in their order.
theorem readFrom_eq (hd : ∀ x ∈ rest, x.2.distinct) (hn : ((acc ++ rest).map Prod.fst).Nodup)
    (hp : ∀ path, rows.lookup path = previous.lookup path)
    (hl : ∀ x ∈ rest, ∀ path, deltas.lookup (x.1, path) = (deltasOf floats previous rest).lookup (x.1, path)) :
    readFrom floats deltas rows acc (rest.map Prod.fst) = .ok (acc ++ rest) := by
  induction rest generalizing rows previous acc
  case nil =>
    rw [List.append_nil]
    rfl
  case cons x rest hi =>
    obtain ⟨revision, seed⟩ := x
    rw [List.forall_mem_cons] at hd hl
    have hkeys := hn
    rw [List.map_append, List.map_cons, List.nodup_append, List.nodup_cons] at hkeys
    obtain ⟨_, ⟨hrest, _⟩, hacc⟩ := hkeys
    have happlied : ∃ found, appliedAll floats rows
        ((deltas.toList.filter fun x => x.1.1 = revision).map fun x => (x.1.2, x.2)) = .ok found ∧
        ∀ path, found.lookup path = (deltaOf floats previous seed path).getD (rows.lookup path) := by
      refine appliedAll_ok nodup_revision fun path => ?_
      rw [lookup_revision, hl.left path, lookup_deltasOf_head hrest]
    obtain ⟨found, hf, hlook⟩ := happlied
    have hfound (path : Text) : found.lookup path = (snapshot floats seed).lookup path := by
      rw [hlook, hp, deltaOf_getD]
    have ha : assign acc (revision, seed) = acc ++ [(revision, seed)] :=
      if_neg fun hm => hacc _ hm _ List.mem_cons_self rfl
    have hnext : readFrom floats deltas found (acc ++ [(revision, seed)]) (rest.map Prod.fst) =
        .ok (acc ++ [(revision, seed)] ++ rest) := by
      refine hi hd.right (by simpa using hn) hfound fun x hx path => ?_
      have hne : x.1 ≠ revision := by
        intro he
        have hm : x.1 ∈ rest.map Prod.fst := List.mem_map_of_mem (f := Prod.fst) hx
        exact hrest (he ▸ hm)
      rw [hl.right x hx path, lookup_deltasOf_tail hne]
    rw [List.map_cons, readFrom, hf]
    simp only [assemble_snapshot hd.left hfound, ha, hnext, List.append_assoc, List.singleton_append]

end Read

section Write

variable {tables : SeedTables} {old new : KeyTable String ℕ}

theorem lookup_erased {revisions : List String} :
    (revisions.foldl (fun table revision => table.erase revision) old).lookup revision =
      if revision ∈ revisions then none else old.lookup revision := by
  induction revisions generalizing old
  case nil => simp
  case cons other revisions hi =>
    rw [List.foldl_cons, hi]
    by_cases he : revision = other
    case pos =>
      subst he
      simp
    case neg => simp [he]

theorem lookup_moved : ((new.toList.filter fun x => old.lookup x.1 ≠ some x.2).lookup revision) =
    if old.lookup revision ≠ new.lookup revision then new.lookup revision else none := by
  have hn : ((new.toList.filter fun x => old.lookup x.1 ≠ some x.2).map Prod.fst).Nodup :=
    KeyTable.nodup_toList.sublist (List.filter_sublist.map _)
  ext position
  rw [JsonValue.lookup_eq_some_iff_mem hn, List.mem_filter, KeyTable.mem_toList, decide_eq_true_eq]
  split_ifs with h
  case pos =>
    constructor
    case mp  => exact And.left
    case mpr =>
      intro hp
      exact ⟨hp, hp ▸ h⟩
  case neg =>
    rw [not_not] at h
    constructor
    case mp =>
      rintro ⟨hp, hne⟩
      exact absurd (h.trans hp) hne
    case mpr => exact fun hp => by cases hp

theorem lookup_syncRevisions : (syncRevisions old new).lookup revision = new.lookup revision := by
  have hn : (((new.toList.filter fun x => old.lookup x.1 ≠ some x.2).map fun x => (x.1, some x.2)).map Prod.fst).Nodup := by
    have hm : ((new.toList.filter fun x => old.lookup x.1 ≠ some x.2).map Prod.fst).Nodup :=
      KeyTable.nodup_toList.sublist (List.filter_sublist.map _)
    simpa [List.map_map, Function.comp_def] using hm
  have hf (t : KeyTable String ℕ) : new.toList.foldl
      (fun table x => if old.lookup x.1 ≠ some x.2 then table.insert x.1 x.2 else table) t =
      (new.toList.filter fun x => old.lookup x.1 ≠ some x.2).foldl (fun table x => table.insert x.1 x.2) t := by
    rw [List.foldl_filter]
    simp only [decide_eq_true_eq]
  rw [syncRevisions, hf, KeyTable.foldl_insert, KeyTable.lookup_foldl_change hn, KeyTable.lookup_map_snd, lookup_moved, lookup_erased]
  have hmem : revision ∈ old.keys.filter (fun revision => revision ∉ new) ↔
      old.lookup revision ≠ none ∧ new.lookup revision = none := by
    rw [List.mem_filter, KeyTable.mem_keys_iff, decide_eq_true_eq, ← AList.lookup_eq_none]
  simp only [hmem]
  cases ho : old.lookup revision <;> cases hw : new.lookup revision <;> simp
  case some.some i j => by_cases h : i = j <;> simp [h]

section Positions

theorem map_positions : (seeds.mapIdx fun i x => (x.1, i)).map Prod.fst = seeds.map Prod.fst := by
  ext1 i
  simp [Function.comp_def]

theorem lookup_positions : (seeds.mapIdx fun i x => (x.1, i))[k]? = seeds[k]?.map fun x => (x.1, k) := by
  rw [List.getElem?_mapIdx]

-- The revisions come in the order of their positions.
theorem sorted_positions (hn : (seeds.map Prod.fst).Nodup)
    (h : ∀ revision, old.lookup revision = (KeyTable.ofList (seeds.mapIdx fun i x => (x.1, i))).lookup revision) :
    old.toList.insertionSort (fun x y => x.2 ≤ y.2) = seeds.mapIdx fun i x => (x.1, i) := by
  have hk : ((seeds.mapIdx fun i x => (x.1, i)).map Prod.fst).Nodup := by rwa [map_positions]
  have hperm : old.toList.Perm (seeds.mapIdx fun i x => (x.1, i)) :=
    KeyTable.perm_of_lookup hk fun revision => (h revision).trans (KeyTable.lookup_ofList hk)
  have hat : ∀ x ∈ seeds.mapIdx (fun i x => (x.1, i)), seeds[x.2]?.map Prod.fst = some x.1 := by
    intro x hx
    obtain ⟨i, hi⟩ := List.mem_iff_getElem?.mp hx
    rw [lookup_positions] at hi
    obtain ⟨y, hy, rfl⟩ := Option.map_eq_some_iff.mp hi
    rw [hy, Option.map_some]
  refine ((List.perm_insertionSort _ _).trans hperm).eq_of_pairwise ?_ (List.pairwise_insertionSort _ _) ?_
  case refine_1 =>
    intro x y hx hy hle hle'
    have he : x.2 = y.2 := le_antisymm hle hle'
    have hxa := hat x (hperm.subset ((List.perm_insertionSort _ _).subset hx))
    rw [he, hat y hy] at hxa
    exact Prod.ext (Option.some.inj hxa).symm he
  case refine_2 =>
    rw [List.pairwise_iff_getElem]
    intro i j hi hj hij
    rw [List.getElem_mapIdx, List.getElem_mapIdx]
    exact hij.le

end Positions

end Write

-- Tables with the same entries, whatever their order.
structure Same (shown tables : SeedTables) : Prop where
  base      : ∀ path, shown.base.lookup path = tables.base.lookup path
  deltas    : ∀ key, shown.deltas.lookup key = tables.deltas.lookup key
  revisions : ∀ revision, shown.revisions.lookup revision = tables.revisions.lookup revision

-- Of whatever was written before, the seeds written last are read, in their order.
theorem seeds_round_trip (floats : Floats) (history : List Seeds) (seeds : Seeds) (shown : SeedTables)
    (hn : (seeds.map Prod.fst).Nodup) (hd : ∀ x ∈ seeds, x.2.distinct)
    (hs : Same shown ((history ++ [seeds]).foldl (writeSeeds floats) ⟨∅, ∅, ∅⟩)) :
    readSeeds floats shown = .ok seeds := by
  rw [List.foldl_append, List.foldl_cons, List.foldl_nil] at hs
  have hbase (path : Text) : (shown.base.toList.map fun x => (x.1, some x.2)).lookup path =
      (((baseline floats seeds).lookup path).map some).map fun row => row.map (rowText floats) := by
    have hk : (((baseline floats seeds).toList.map fun x => (x.1, rowText floats x.2)).map Prod.fst).Nodup := by
      simpa [List.map_map, Function.comp_def] using (KeyTable.nodup_toList (t := baseline floats seeds))
    rw [KeyTable.lookup_map_snd, KeyTable.lookup_toList, hs.base, writeSeeds, KeyTable.lookup_sync, KeyTable.lookup_ofList hk,
      KeyTable.lookup_map_snd, KeyTable.lookup_toList]
    cases (baseline floats seeds).lookup path <;> rfl
  have hnbase : ((shown.base.toList.map fun x => (x.1, some x.2)).map Prod.fst).Nodup := by
    simpa [List.map_map, Function.comp_def] using (KeyTable.nodup_toList (t := shown.base))
  have happlied : ∃ rows, appliedAll floats ∅ (shown.base.toList.map fun x => (x.1, some x.2)) = .ok rows ∧
      ∀ path, rows.lookup path = (((baseline floats seeds).lookup path).map some).getD ((∅ : Snapshot).lookup path) :=
    appliedAll_ok hnbase hbase
  obtain ⟨rows, hrows, hlook⟩ := happlied
  have hbaseline (path : Text) : rows.lookup path = (baseline floats seeds).lookup path := by
    rw [hlook]
    cases (baseline floats seeds).lookup path <;> simp
  have hpositions : shown.revisions.toList.insertionSort (fun x y => x.2 ≤ y.2) = seeds.mapIdx fun i x => (x.1, i) :=
    sorted_positions hn fun revision => by rw [hs.revisions, writeSeeds, lookup_syncRevisions]
  have hread : readFrom floats shown.deltas rows [] (seeds.map Prod.fst) = .ok ([] ++ seeds) := by
    refine readFrom_eq hd (by simpa using hn) hbaseline fun x _ path => ?_
    rw [hs.deltas, writeSeeds, KeyTable.lookup_sync, KeyTable.lookup_ofList (nodup_deltasOf hn)]
  rw [readSeeds, hrows]
  simp only [hpositions, map_positions, hread, List.nil_append]

def titled (title : String) : JsonValue :=
  .object [("title", .scalar (.str title)), ("tasks", .array [])]

-- A revision is dropped, one is moved, and one is changed.
theorem seeds_round_trip_moved :
    readSeeds oneFloats ([[("1", titled "a"), ("2", mixed), ("3", titled "c")], [("3", titled "b"), ("1", titled "a")]].foldl
      (writeSeeds oneFloats) ⟨∅, ∅, ∅⟩) = .ok [("3", titled "b"), ("1", titled "a")] :=
  seeds_round_trip oneFloats [[("1", titled "a"), ("2", mixed), ("3", titled "c")]] [("3", titled "b"), ("1", titled "a")] _
    (by decide) (by decide +kernel) ⟨fun _ => rfl, fun _ => rfl, fun _ => rfl⟩

end Ledger.Seeds
