import Agentihooks.Library.Finmap
import Agentihooks.Ledger.Rows

-- Bringing a document that was read at an earlier generation up to date: only what lies on a changed path is
-- built from the stored rows, and the rest is taken over.

namespace Ledger

-- `row_changes`, where a list that was too long is not kept.
abbrev Log :=
  Finmap fun _ : ℕ => Option (List Path)

-- The bounds `CHANGES_KEPT` and `PATHS_KEPT`.
structure Bounds where
  changesKept : ℕ
  pathsKept   : ℕ

-- `record`.
def record (bounds : Bounds) (log : Log) (generation : ℕ) (paths : List Path) : Log :=
  let stored := if paths.length ≤ bounds.pathsKept then some paths else none
  (log.insert generation stored).restrict fun old => generation < old + bounds.changesKept

-- `changed_paths`.
def changedPaths (bounds : Bounds) (log : Log) (since generation : ℕ) : Option (List Path) :=
  if since + bounds.changesKept < generation then
    none
  else do
    let recorded ← (List.range' (since + 1) (generation - since)).mapM fun g => log.lookup g
    let paths ← recorded.mapM id
    return paths.flatten

-- The paths and all that lies above them.
def touched (paths : List Path) : List Path :=
  paths ++ paths.flatMap fun path => (List.range path.length).map path.take

-- What `build` takes for a child: the stored value, the container built from its rows, or its old value.
def buildChild (below : Path → JsonValue → Except Failure (List (Key × JsonValue))) (dirty : List Path)
    (known : List (Path × JsonValue)) (child : Path) (row : Row) : Except Failure JsonValue :=
  match row.kind with
  | .value => .ok (.scalar row.value)
  | kind   =>
    if child ∈ dirty then
      (below child ((known.lookup child).getD (.scalar .null))).map (container kind)
    else
      match known.lookup child with
      | some found => .ok found
      | none       => .error .missing

-- The children of the container at a path, with `old` for what it was.
def build (stored : Rows) (dirty : List Path) : ℕ → Path → JsonValue → Except Failure (List (Key × JsonValue))
  | 0,        _,    _   => .error .deep
  | fuel + 1, path, old =>
    let known := (children old).map fun (part, child) => (path ++ [part], child)
    (childRows stored path).mapM fun (child, row) => do
      let item ← buildChild (build stored dirty fuel) dirty known child row
      return (row.key, item)

-- `refreshed`.
def refreshed (stored : Rows) (state : JsonValue) (paths : List Path) : Except Failure (Option JsonValue) :=
  match build stored (touched paths) (depth stored) [] state with
  | .ok pairs       => .ok (some (container .object pairs))
  | .error .missing => .ok none
  | .error .deep    => .error .deep

-- `item.get("id") == identity[1]` of the first of its id.
def sameChild (old : List JsonValue) (position : ℕ) : Option Part → Bool
  | some (.element (.id v) 0) => (old[position]?.bind (·.get? "id")).any (·.alike JsonScalar.loose v)
  | _                         => false

-- The step of `rebuilt` for a changed child.
def rebuildChild (stored : Rows) (dirty : List Path) (old : List JsonValue) (items : Option (List JsonValue))
    (child : Path) : Except Failure (Option (List JsonValue)) :=
  match items, stored.lookup child with
  | some items, some row =>
    if row.kind = .object ∧ sameChild old row.position child.getLast? then do
      let pairs ← build stored dirty (depth stored) child (old[row.position]?.getD (.scalar .null))
      return some (items.set row.position (container .object pairs))
    else
      return none
  | _,          _        => return none

-- `rebuilt`: the array at a path.
def rebuilt (stored : Rows) (path : Path) (old : List JsonValue) (paths : List Path) :
    Except Failure (Option (List JsonValue)) :=
  if path ∈ paths then
    .ok none
  else
    ((paths.map (·.take (path.length + 1))).dedup).foldlM (rebuildChild stored (touched paths) old) (some old)

end Ledger

-- The history of a stored ledger: it is inserted once, and every later document is written as its difference from
-- the one before it, with the changed paths recorded for its generation.

namespace Ledger

-- What is stored as a ledger is an object, and no object of it repeats a key.
structure Document where
  value    : JsonValue
  distinct : value.distinct
  isObject : kind value = .object

structure Store where
  document   : Document
  rows       : Rows
  log        : Log
  generation : ℕ

namespace Store

-- `_insert`.
def insert (document : Document) (generation : ℕ) : Store where
  document   := document
  rows       := (writeRows ∅ ∅ (flatten document.value)).1
  log        := ∅
  generation := generation

-- `_write`.
def write (bounds : Bounds) (s : Store) (document : Document) : Store :=
  let (before, after) := diff s.document.value document.value
  let (rows, paths) := writeRows s.rows before after
  { document, rows, log := record bounds s.log (s.generation + 1) paths, generation := s.generation + 1 }

-- The stores of a history, one for each generation.
def history (bounds : Bounds) (s : Store) : List Document → List Store
  | []                    => [s]
  | document :: documents => s :: history bounds (s.write bounds document) documents

-- It brings the array at a path up to date, from the changes at that path and below it.
def rebuild (bounds : Bounds) (reader s : Store) (path : Path) (old : List JsonValue) :
    Option (Except Failure (Option (List JsonValue))) :=
  (changedPaths bounds s.log reader.generation s.generation).map fun paths =>
    rebuilt s.rows path old (paths.filter (path <+: ·))

end Store

end Ledger
