import Mathlib.Data.List.AList
import Mathlib.Data.List.Sort
import Agentihooks.Library.JsonValue

-- A ledger document as stored rows, one for each value of it, under the path that leads there. An element of an
-- array goes by its id and by how many elements before it have the same one, or by its index if it has no id.
-- The parent and the table of a row are functions of its path and are left out.

namespace Ledger

inductive Identity
  | id (v : JsonValue)
  | index (i : ℕ)
  deriving DecidableEq

inductive Part
  | name (s : String)
  | element (identity : Identity) (occurrence : ℕ)
  deriving DecidableEq

abbrev Path :=
  List Part

-- The `key` column: of the root, of a field, of an element.
inductive Key
  | root
  | name (s : String)
  | index (i : ℕ)
  deriving DecidableEq

inductive Kind
  | value
  | object
  | array
  deriving DecidableEq

structure Row where
  key      : Key
  position : ℕ
  kind     : Kind
  value    : JsonScalar
  deriving DecidableEq

abbrev Rows :=
  AList fun _ : Path => Row

def Part.key (i : ℕ) : Part → Key
  | name s      => .name s
  | element _ _ => .index i

def identity (i : ℕ) (item : JsonValue) : Identity :=
  (item.get? "id").elim (.index i) .id

-- The parts of the elements of an array.
def parts (items : List JsonValue) : List Part :=
  let identities := items.mapIdx identity
  identities.mapIdx fun i identity => .element identity ((identities.take i).count identity)

def children : JsonValue → List (Part × JsonValue)
  | .scalar _      => []
  | .array items   => (parts items).zip items
  | .object fields => fields.map fun (name, v) => (.name name, v)

def kind : JsonValue → Kind
  | .scalar _ => .value
  | .array _  => .array
  | .object _ => .object

-- The `value` column.
def leaf : JsonValue → JsonScalar
  | .scalar s => s
  | _         => .null

mutual

def visit (rows : Rows) (path : Path) (key : Key) (position : ℕ) : JsonValue → Rows
  | .scalar s      => rows.insert path ⟨key, position, .value, s⟩
  | .array items   => visitItems (rows.insert path ⟨key, position, .array, .null⟩) path (parts items) 0 items
  | .object fields => visitFields (rows.insert path ⟨key, position, .object, .null⟩) path 0 fields

def visitItems (rows : Rows) (path : Path) (parts : List Part) (i : ℕ) : List JsonValue → Rows
  | []            => rows
  | item :: items =>
    match parts with
    | []            => rows
    | part :: parts => visitItems (visit rows (path ++ [part]) (.index i) i item) path parts (i + 1) items

def visitFields (rows : Rows) (path : Path) (i : ℕ) : List (String × JsonValue) → Rows
  | []                => rows
  | (name, v) :: rest => visitFields (visit rows (path ++ [.name name]) (.name name) i v) path (i + 1) rest

end

def flatten (v : JsonValue) : Rows :=
  visit ∅ [] .root 0 v

-- `type(left) is type(right) and left == right`.
def equal (left right : JsonValue) : Bool :=
  left.type = right.type ∧ left.alike JsonScalar.loose right

mutual

-- The rows of `left` and `right` under every path that differs.
def walk (before after : Rows) (path : Path) (key : Key) (position : ℕ) (left right : JsonValue) : Rows × Rows :=
  match left with
  | .scalar s =>
    if equal (.scalar s) right then
      (before, after)
    else
      (visit before path key position (.scalar s), visit after path key position right)
  | .array xs =>
    if equal (.array xs) right then
      (before, after)
    else
      match right with
      | .array ys =>
        if parts xs <+: parts ys then
          walkItems before after path (parts ys) 0 xs ys
        else
          (visit before path key position (.array xs), visit after path key position (.array ys))
      | right => (visit before path key position (.array xs), visit after path key position right)
  | .object xs =>
    if equal (.object xs) right then
      (before, after)
    else
      match right with
      | .object ys =>
        if xs.map Prod.fst <+: ys.map Prod.fst then
          walkFields before after path 0 xs ys
        else
          (visit before path key position (.object xs), visit after path key position (.object ys))
      | right => (visit before path key position (.object xs), visit after path key position right)

def walkItems (before after : Rows) (path : Path) (parts : List Part) (i : ℕ) (xs ys : List JsonValue) :
    Rows × Rows :=
  match xs with
  | []      => (before, visitItems after path parts i ys)
  | x :: xs =>
    match parts, ys with
    | part :: parts, y :: ys =>
      let (before, after) := walk before after (path ++ [part]) (.index i) i x y
      walkItems before after path parts (i + 1) xs ys
    | _,             _       => (before, after)

def walkFields (before after : Rows) (path : Path) (i : ℕ) (xs ys : List (String × JsonValue)) : Rows × Rows :=
  match xs with
  | []              => (before, visitFields after path i ys)
  | (name, x) :: xs =>
    match ys with
    | []           => (before, after)
    | (_, y) :: ys =>
      let (before, after) := walk before after (path ++ [.name name]) (.name name) i x y
      walkFields before after path (i + 1) xs ys

end

def diff (old new : JsonValue) : Rows × Rows :=
  walk ∅ ∅ [] .root 0 old new

-- `changes`: the paths under which the rows differ, each with its row afterwards.
def changes (before after : Rows) : List (Path × Option Row) :=
  ((before.keys ∪ after.keys).filter fun path => before.lookup path ≠ after.lookup path).map fun path =>
    (path, after.lookup path)

-- `write_rows`, with the paths it changed.
def writeRows (stored before after : Rows) : Rows × List Path :=
  let changed := changes before after
  let deleted := changed.foldl (fun stored (path, row) => if row.isNone then stored.erase path else stored) stored
  let upserted := changed.foldl (fun stored (path, row) => row.elim stored (stored.insert path ·)) deleted
  (upserted, changed.map Prod.fst)

-- What reading stored rows can come to: no value under a path, or rows nested deeper than any path.
inductive Failure
  | missing
  | deep
  deriving DecidableEq

-- The rows whose parent is `path`, in their order.
def childRows (stored : Rows) (path : Path) : List (Path × Row) :=
  ((stored.entries.filter fun x => x.1 ≠ [] ∧ x.1.dropLast = path).map fun x => (x.1, x.2)).insertionSort
    fun x y => x.2.position ≤ y.2.position

-- `dict(pairs)` of the children of an object, or the items of those of an array.
def container (kind : Kind) (pairs : List (Key × JsonValue)) : JsonValue :=
  if kind = .array then
    .array (pairs.map Prod.snd)
  else
    .object (pairs.filterMap fun
      | (.name name, v) => some (name, v)
      | _               => none)

-- How deep rows can be nested.
def depth (stored : Rows) : ℕ :=
  (stored.keys.map List.length).foldr max 0 + 1

-- What `load` reads under a path.
def loadAt (stored : Rows) : ℕ → Path → Except Failure JsonValue
  | 0,        _    => .error .deep
  | fuel + 1, path =>
    match stored.lookup path with
    | none     => .error .missing
    | some row =>
      match row.kind with
      | .value => .ok (.scalar row.value)
      | kind   => do
        let pairs ← (childRows stored path).mapM fun (child, row) => do
          let item ← loadAt stored fuel child
          return (row.key, item)
        return container kind pairs

def load (stored : Rows) : Except Failure JsonValue :=
  loadAt stored (depth stored) []

end Ledger

-- The rows of a ledger in the tables that hold them.

namespace Ledger

inductive Table
  | fields
  | resources
  | threads
  deriving DecidableEq

-- `RECORD_COLLECTIONS`
def collections : List String :=
  ["tasks", "phases", "questions", "followups", "notes", "chat", "priorities", "notifications", "artifacts", "artifact_trash",
    "alerts", "freezes", "plans", "slices"]

-- `THREAD_NAMES`
def threadNames : List String :=
  ["comments", "answers"]

-- The table of a child of a value in `table`.
def bucket (atRoot : Bool) (table : Table) : Part → Table
  | .name name   =>
    if atRoot ∧ name ∈ collections then .resources
    else if name ∈ threadNames then .threads
    else table
  | .element _ _ => table

-- The table that a walk has come to under a path, which is all that a row's table goes by.
def tableAt : Path → Table
  | []        => .fields
  | p :: path => path.foldl (bucket false) (bucket true .fields p)

abbrev Tables :=
  Table → Rows

namespace Tables

-- The rows, each in its table.
def of (rows : Rows) : Tables :=
  fun table => ⟨rows.entries.filter fun x => tableAt x.1 = table, List.NodupKeys.sublist List.filter_sublist rows.nodupKeys⟩

-- `read_rows`: the row of a later table would take the place of one under the same path.
def read (tables : Tables) : Rows :=
  tables .threads ∪ (tables .resources ∪ tables .fields)

-- `write_rows`. A path is in one table only, so nothing moves from one table to another.
def write (tables : Tables) (before after : Rows) : Tables := fun table =>
  let changed := (changes before after).filter fun x => tableAt x.1 = table
  let deleted := changed.foldl (fun stored (path, row) => if row.isNone then stored.erase path else stored) (tables table)
  changed.foldl (fun stored (path, row) => row.elim stored (stored.insert path ·)) deleted

def assemble (tables : Tables) : Except Failure JsonValue :=
  loadAt tables.read (depth tables.read) []

-- `load`: only of what is no value is there a container to give back.
def load (tables : Tables) : Except Failure JsonValue :=
  match tables.read.lookup [] with
  | none     => .error .missing
  | some row => if row.kind = .value then .error .missing else loadAt tables.read (depth tables.read) []

-- A row below another is below a stored container.
def Rooted (tables : Tables) : Prop :=
  ∀ table path, path ≠ [] → (tables table).lookup path ≠ none →
    ∃ row, tables.read.lookup path.dropLast = some row ∧ row.kind ≠ .value

end Tables

end Ledger
