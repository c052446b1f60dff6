import Agentihooks.Ledger.Columns
import Agentihooks.Library.KeyTable

-- The seeds of a ledger: documents by revision, of which the first is stored whole and every other one by what its
-- rows change of the rows before. Python dictionaries and the tables of one ledger are dictionaries here; a query
-- gives their entries in any order.

namespace Ledger.Seeds

open JsonText (Floats)
open Columns (Fault)

variable (floats : Floats)

abbrev Text := List Char

-- A deletion is a delta without a row.
structure SeedTables where
  base      : KeyTable Text Text
  deltas    : KeyTable (String × Text) (Option Text)
  revisions : KeyTable String ℕ

abbrev Seeds := List (String × JsonValue)

def Table.name : Table → String
  | .fields    => "fields"
  | .resources => "resources"
  | .threads   => "threads"

def tableOf (name : String) : Option Table :=
  [.fields, .resources, .threads].find? fun table => Table.name table = name

def Kind.name : Kind → String
  | .value  => "value"
  | .object => "object"
  | .array  => "array"

def kindOf (name : String) : Option Kind :=
  [.value, .object, .array].find? fun kind => Kind.name kind = name

-- `encode(row)`, a row as a JSON array of its columns.
def rowScalars (row : StoredRow) : List JsonScalar :=
  [.str (Table.name row.table), row.parent.elim .null fun parent => .str (.ofList parent), .str (.ofList row.key),
    .int row.position, .str (Kind.name row.kind), .str (.ofList row.value)]

def rowText (row : StoredRow) : Text :=
  JsonText.encode floats (.array ((rowScalars row).map .scalar))

def parentOf : JsonScalar → Option (Option Text)
  | .null  => some none
  | .str s => some (some s.toList)
  | _      => none

-- `tuple(json.loads(value))`
def readRow (value : Text) : Except Fault StoredRow :=
  match JsonText.readScalars floats value with
  | some [.str table, parent, .str key, .int position, .str kind, .str value] =>
    match tableOf table, parentOf parent, kindOf kind with
    | some table, some parent, some kind =>
      if position < 0 then .error .malformed
      else .ok ⟨table, parent, key.toList, position.toNat, kind, value.toList⟩
    | _, _, _ => .error .malformed
  | _ => .error .malformed

abbrev Snapshot := KeyTable Text StoredRow

-- One row of the base or of a delta, on the rows so far.
def applied (rows : Snapshot) (path : Text) : Option Text → Except Fault Snapshot
  | none       => .ok (rows.erase path)
  | some value => (readRow floats value).map fun row => rows.insert path row

def appliedAll (rows : Snapshot) : List (Text × Option Text) → Except Fault Snapshot
  | []      => .ok rows
  | x :: xs =>
    match applied floats rows x.1 x.2 with
    | .error e => .error e
    | .ok rows => appliedAll rows xs

-- The seeds of the revisions in their order, each from the rows of the one before.
def readFrom (deltas : KeyTable (String × Text) (Option Text)) (rows : Snapshot) (seeds : Seeds) :
    List String → Except Fault Seeds
  | []                    => .ok seeds
  | revision :: revisions =>
    match appliedAll floats rows ((deltas.toList.filter fun x => x.1.1 = revision).map fun x => (x.1.2, x.2)) with
    | .error e => .error e
    | .ok rows =>
      match Columns.assemble floats rows.toList with
      | .error e => .error e
      | .ok seed => readFrom deltas rows (assign seeds (revision, seed)) revisions

def readSeeds (tables : SeedTables) : Except Fault Seeds :=
  match appliedAll floats ∅ (tables.base.toList.map fun x => (x.1, some x.2)) with
  | .error e => .error e
  | .ok rows =>
    let revisions := tables.revisions.toList.insertionSort fun x y => x.2 ≤ y.2
    readFrom floats tables.deltas rows [] (revisions.map Prod.fst)

def snapshot (seed : JsonValue) : Snapshot :=
  KeyTable.ofList (Columns.flatten floats seed)

-- What every snapshot changes of the one before, the first of the baseline.
def deltasOf (previous : Snapshot) : Seeds → List ((String × Text) × Option Text)
  | []                       => []
  | (revision, seed) :: rest =>
    ((KeyTable.changes previous (snapshot floats seed)).map fun x => ((revision, x.1), x.2.map (rowText floats))) ++
      deltasOf (snapshot floats seed) rest

def baseline (seeds : Seeds) : Snapshot :=
  (seeds.head?.map fun x => snapshot floats x.2).getD ∅

def syncRevisions (old new : KeyTable String ℕ) : KeyTable String ℕ :=
  let kept := (old.keys.filter fun revision => revision ∉ new).foldl (fun table revision => table.erase revision) old
  new.toList.foldl (fun table x => if old.lookup x.1 ≠ some x.2 then table.insert x.1 x.2 else table) kept

def writeSeeds (tables : SeedTables) (seeds : Seeds) : SeedTables :=
  let base := baseline floats seeds
  { base      := KeyTable.sync tables.base (KeyTable.ofList (base.toList.map fun x => (x.1, rowText floats x.2)))
    deltas    := KeyTable.sync tables.deltas (KeyTable.ofList (deltasOf floats base seeds))
    revisions := syncRevisions tables.revisions (KeyTable.ofList (seeds.mapIdx fun i x => (x.1, i))) }

end Ledger.Seeds
