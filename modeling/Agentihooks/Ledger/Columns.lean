import Agentihooks.Ledger.Rows
import Agentihooks.Library.JsonEncode

-- The stored rows with their columns as text: a row's path, its parent's path, its key and its value are JSON texts,
-- and what is read goes by these texts alone.

namespace Ledger

open JsonText (Floats)

variable (floats : Floats)

structure StoredRow where
  table    : Table
  parent   : Option (List Char)
  key      : List Char
  position : ℕ
  kind     : Kind
  value    : List Char
  deriving DecidableEq

abbrev StoredRows := List (List Char × StoredRow)

-- What the occurrences of an element are counted by: an index or an id that is a string as they are, else its text.
inductive Token
  | index (i : ℕ)
  | name (s : String)
  | text (t : List Char)
  deriving DecidableEq

def Identity.values : Identity → List JsonValue
  | .id v    => [.scalar (.str "id"), v]
  | .index i => [.scalar (.str "index"), .scalar (.int i)]

def Identity.token (identity : Identity) : Token :=
  match identity with
  | .index i            => .index i
  | .id (.scalar (.str s)) => .name s
  | .id _               => .text (JsonText.encode floats (.array identity.values))

-- A part as an item of the array that a path is.
def Part.value : Part → JsonValue
  | .name s                      => .scalar (.str s)
  | .element identity occurrence => .array (identity.values ++ [.scalar (.int occurrence)])

def encodePath (path : Path) : List Char :=
  JsonText.encode floats (.array (path.map Part.value))

-- The parts of the elements of an array, counted with the tokens seen before.
def tokenParts (seen : List Token) (i : ℕ) : List JsonValue → List Part
  | []            => []
  | item :: items =>
    let found := identity i item
    let token := found.token floats
    .element found (seen.count token) :: tokenParts (token :: seen) (i + 1) items

-- `rows[path] = row` of a dictionary.
def assign {α β : Type} [DecidableEq α] (rows : List (α × β)) (x : α × β) : List (α × β) :=
  if x.1 ∈ rows.map Prod.fst then rows.map fun y => if y.1 = x.1 then x else y else rows ++ [x]

namespace Columns

mutual

-- The rows in the order in which they are set.
def visit (path : Path) (parent : Option (List Char)) (key : JsonValue) (position : ℕ) (table : Table) :
    JsonValue → StoredRows
  | .scalar s      =>
    [(encodePath floats path,
      ⟨table, parent, JsonText.encode floats key, position, .value, JsonText.encode floats (.scalar s)⟩)]
  | .array items   =>
    (encodePath floats path, ⟨table, parent, JsonText.encode floats key, position, .array, "null".toList⟩) ::
      visitItems path (tokenParts floats [] 0 items) 0 table items
  | .object fields =>
    (encodePath floats path, ⟨table, parent, JsonText.encode floats key, position, .object, "null".toList⟩) ::
      visitFields path 0 table fields

def visitItems (path : Path) (parts : List Part) (i : ℕ) (table : Table) : List JsonValue → StoredRows
  | []            => []
  | item :: items =>
    match parts with
    | []            => []
    | part :: parts =>
      visit (path ++ [part]) (some (encodePath floats path)) (.scalar (.int i)) i table item ++
        visitItems path parts (i + 1) table items

def visitFields (path : Path) (i : ℕ) (table : Table) : List (String × JsonValue) → StoredRows
  | []                => []
  | (name, v) :: rest =>
    visit (path ++ [.name name]) (some (encodePath floats path)) (.scalar (.str name)) i
        (bucket (path = []) table (.name name)) v ++
      visitFields path (i + 1) table rest

end

def visits (v : JsonValue) : StoredRows :=
  visit floats [] none (.scalar .null) 0 .fields v

def flatten (v : JsonValue) : StoredRows :=
  (visits floats v).foldl assign []

-- What reading rows can come to besides a value: no row or container under a path, rows nested without end, or a text
-- that is not what its column holds.
inductive Fault
  | missing
  | endless
  | malformed
  deriving DecidableEq

-- The rows of a parent in their order.
def placed (rows : StoredRows) (path : List Char) : StoredRows :=
  (rows.filter fun x => x.2.parent = some path).insertionSort fun x y => x.2.position ≤ y.2.position

def readName (key : List Char) : Except Fault String :=
  match JsonText.readScalar floats key with
  | some (.str name) => .ok name
  | _                => .error .malformed

def readValue (value : List Char) : Except Fault JsonValue :=
  match JsonText.readScalar floats value with
  | some s => .ok (.scalar s)
  | none   => .error .malformed

-- A list of the items, or a dictionary of them under their names.
def filled (kind : Kind) (items : List (List Char × JsonValue)) : Except Fault JsonValue :=
  if kind = .array then .ok (.array (items.map Prod.snd))
  else do
    let fields ← items.mapM fun x => (readName floats x.1).map fun name => (name, x.2)
    return .object (fields.foldl assign [])

def build (rows : StoredRows) : ℕ → List Char → Except Fault JsonValue
  | 0,        _    => .error .endless
  | fuel + 1, path =>
    match rows.lookup path with
    | none     => .error .missing
    | some row =>
      if row.kind = .value then readValue floats row.value
      else do
        let items ← (placed rows path).mapM fun x => (build rows fuel x.1).map fun item => (x.2.key, item)
        filled floats row.kind items

def assemble (rows : StoredRows) : Except Fault JsonValue :=
  build floats rows (rows.length + 1) (JsonText.encode floats (.array []))

-- The container that is stored under a path; of two the one read last.
def containerAt (rows : StoredRows) (path : List Char) : Option Kind :=
  (rows.reverse.find? fun x => x.1 = path ∧ x.2.kind ≠ .value).map fun x => x.2.kind

-- What the container under a path holds in the end.
def grown (rows : StoredRows) : ℕ → List Char → Except Fault JsonValue
  | 0,        _    => .error .endless
  | fuel + 1, path =>
    match containerAt rows path with
    | none      => .error .missing
    | some kind => do
      let items ← (placed rows path).mapM fun x =>
        (if x.2.kind = .value then readValue floats x.2.value else grown rows fuel x.1).map fun item => (x.2.key, item)
      filled floats kind items

-- Every value and every key below an object is read, whether the root leads to it or not.
def Legible (rows : StoredRows) : Prop :=
  ∀ x ∈ rows, (x.2.kind = .value → (readValue floats x.2.value).isOk) ∧
    ((x.2.parent.bind (containerAt rows)) = some .object → (readName floats x.2.key).isOk)

instance (rows : StoredRows) : Decidable (Legible floats rows) :=
  inferInstanceAs (Decidable (∀ _ ∈ _, _))

-- The tables as a query gives their rows, in whatever order.
abbrev Selected := Table → StoredRows

def load (tables : Selected) : Except Fault JsonValue :=
  let rows := tables .fields ++ tables .resources ++ tables .threads
  if Legible floats rows then grown floats rows (rows.length + 1) (JsonText.encode floats (.array []))
  else .error .malformed

end Columns

end Ledger
