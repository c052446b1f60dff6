import Agentihooks.Ledger.Theorems.Load
import Agentihooks.Ledger.History
import Agentihooks.Library.Lists

-- What is built from the stored rows and from a document of an earlier generation, if the rows outside of the
-- given paths are still those of that document.

namespace Ledger

variable {v w x y c : JsonValue} {p : Part} {path q base child : Path} {rows rows₀ : Rows} {row : Row}
variable {paths : List Path} {i : ℕ}

-- The rows of two documents under a path, of which the later one differs on `paths` at most.
structure Follows (rows₀ : Rows) (v : JsonValue) (rows : Rows) (w : JsonValue) (base : Path) (paths : List Path) :
    Prop where
  before         : Stores rows₀ v
  beforeDistinct : v.distinct
  after          : Stores rows w
  afterDistinct  : w.distinct
  unchanged      : ∀ q, base <+: q → q ∉ paths → rows.lookup q = rows₀.lookup q

section Build

variable {old : JsonValue}

end Build

section Rebuilt

variable {old items xs : List JsonValue}

theorem getElem?_children_array (hp : (parts items)[i]? = some p) (hy : items[i]? = some y) :
    (children (.array items)).lookup p = some y := by
  have hc : (children (.array items))[i]? = some (p, y) := by
    rw [children, List.getElem?_zip_eq_some]
    exact ⟨hp, hy⟩
  refine (JsonValue.lookup_eq_some_iff_mem ?_).mpr (List.mem_of_getElem? hc)
  rw [map_children_array]
  exact nodup_parts

-- An element is stored with its place.
theorem Stores.element (h : Stores rows w) (hd : w.distinct) (hv : valueAt w q = some (.array items))
    (hr : rows.lookup (q ++ [p]) = some row) : (parts items)[row.position]? = some p ∧
      ∃ y, items[row.position]? = some y ∧ valueAt w (q ++ [p]) = some y ∧ row.kind = kind y := by
  obtain ⟨y, hy, hk, _⟩ := h.value_of_row hr
  have hc := hy
  rw [valueAt_concat, hv, Option.bind_some] at hc
  obtain ⟨i, hi⟩ := List.mem_iff_getElem?.mp (mem_of_lookup hc)
  rw [children, List.getElem?_zip_eq_some] at hi
  rw [position_of_part h hd hv hi.left hr]
  exact ⟨hi.left, y, hi.right, hy, hk⟩

theorem Stores.part (h : Stores rows w) (hv : valueAt w q = some (.array items)) (hp : (parts items)[i]? = some p) :
    ∃ row, rows.lookup (q ++ [p]) = some row := by
  have hl : i < items.length := by simpa using (List.getElem?_eq_some_iff.mp hp).fst
  have hy : valueAt w (q ++ [p]) = some items[i] := by
    rw [valueAt_concat, hv, Option.bind_some, getElem?_children_array hp (List.getElem?_eq_getElem hl)]
  obtain ⟨row, hr, _⟩ := h.row_of_value hy
  exact ⟨row, hr⟩

end Rebuilt

end Ledger

-- A document that is brought up to date is the stored one, as long as no step of the history writes over an equal
-- array with other paths.

namespace Ledger

variable {bounds : Bounds} {s s' reader : Store} {document : Document} {documents : List Document}
variable {path q : Path} {paths paths' : List Path} {k g : ℕ}

namespace Store

@[simp] theorem write_document : (s.write bounds document).document = document := rfl
@[simp] theorem write_generation : (s.write bounds document).generation = s.generation + 1 := rfl

-- The paths that a write changes.
def changed (s : Store) (document : Document) : List Path :=
  (writeRows s.rows (diff s.document.value document.value).1 (diff s.document.value document.value).2).2

theorem write_log : (s.write bounds document).log = record bounds s.log (s.generation + 1) (s.changed document) :=
  rfl

theorem write_unchanged (h : q ∉ s.changed document) : (s.write bounds document).rows.lookup q = s.rows.lookup q :=
  lookup_unchanged h

-- A later store of the same history: where every generation since the earlier one has its list of changed paths, a
-- path that is on none of them has its row still.
structure Since (reader s : Store) : Prop where
  generation : reader.generation ≤ s.generation
  unchanged  : ∀ q, (∀ k, reader.generation < k → k ≤ s.generation →
    ∃ paths, s.log.lookup k = some (some paths) ∧ q ∉ paths) → s.rows.lookup q = reader.rows.lookup q

theorem Since.refl (s : Store) : Since s s where
  generation    := le_rfl
  unchanged _ _ := rfl

theorem lookup_record (h : (record bounds s.log g paths).lookup k = some (some paths')) :
    (k = g ∧ paths' = paths) ∨ k ≠ g ∧ s.log.lookup k = some (some paths') := by
  rw [record, Finmap.lookup_restrict] at h
  split at h
  case isFalse => cases h
  case isTrue =>
    by_cases he : k = g
    case neg =>
      rw [Finmap.lookup_insert_of_ne _ he] at h
      exact .inr ⟨he, h⟩
    case pos =>
      subst he
      rw [Finmap.lookup_insert] at h
      split at h
      case isFalse => cases h
      case isTrue =>
        cases h
        exact .inl ⟨rfl, rfl⟩

theorem Since.write (h : Since reader s) : Since reader (s.write bounds document) where
  generation := h.generation.trans (Nat.le_succ _)
  unchanged q hq := by
    simp only [write_log, write_generation] at hq
    obtain ⟨paths, hl, hn⟩ := hq (s.generation + 1) (Nat.lt_succ_of_le h.generation) le_rfl
    rcases lookup_record hl with ⟨_, rfl⟩ | ⟨hne, _⟩
    case inr => exact absurd rfl hne
    case inl =>
      rw [write_unchanged hn]
      refine h.unchanged q fun k hk hks => ?_
      obtain ⟨paths, hl, hn⟩ := hq k hk (by omega)
      rcases lookup_record hl with ⟨rfl, _⟩ | ⟨_, hl⟩
      · omega
      · exact ⟨paths, hl, hn⟩

-- Where the changed paths are known, what is on none of them has its row still.
theorem Since.changedPaths (h : Since reader s) (hp : changedPaths bounds s.log reader.generation s.generation = some paths)
    (hq : q ∉ paths) : s.rows.lookup q = reader.rows.lookup q := by
  refine h.unchanged q fun k hk hks => ?_
  rw [Ledger.changedPaths] at hp
  split at hp
  case isTrue => cases hp
  case isFalse =>
    obtain ⟨recorded, hr, hp⟩ := Option.bind_eq_some_iff.mp hp
    obtain ⟨lists, hl, he⟩ := Option.bind_eq_some_iff.mp hp
    cases he
    have hm : k ∈ List.range' (reader.generation + 1) (s.generation - reader.generation) := by
      rw [List.mem_range'_1]
      omega
    obtain ⟨stored, hm, hk⟩ := List.mem_of_mapM hr k hm
    obtain ⟨paths, hp, rfl⟩ := List.mem_of_mapM hl stored hm
    exact ⟨paths, hk, fun hn => hq (List.mem_flatten.mpr ⟨paths, hp, hn⟩)⟩

-- The condition on a history: no document has an equal array under a path whose elements are under other paths.
def Keeps (document : Document) (documents : List Document) : Prop :=
  (document :: documents).IsChain fun old new => KeepsParts old.value new.value

theorem Since.follows (path : Path) (h : Since reader s) (hr : Stores reader.rows reader.document.value)
    (hs : Stores s.rows s.document.value)
    (hp : Ledger.changedPaths bounds s.log reader.generation s.generation = some paths) :
    Follows reader.rows reader.document.value s.rows s.document.value path (paths.filter (path <+: ·)) where
  before          := hr
  beforeDistinct  := reader.document.distinct
  after           := hs
  afterDistinct   := s.document.distinct
  unchanged q hq hn := h.changedPaths hp fun hm => hn (by simp [hm, hq])

-- A ledger of some tasks.
def tasks (items : List JsonValue) (h : (JsonValue.object [("tasks", .array items)]).distinct) : Document where
  value    := .object [("tasks", .array items)]
  distinct := h
  isObject := rfl

def task (id : JsonScalar) (name : String) : JsonValue :=
  .object [("id", .scalar id), ("x", .object [("name", .scalar (.str name))])]

end Store

end Ledger
