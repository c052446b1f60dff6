import Mathlib.Data.List.Sort
import Mathlib.Data.String.Basic
import Agentihooks.Library.KeyTable
import Agentihooks.Library.Rounds

-- The index of a ledger's work: plans, phases, slices and tasks under their parents in one table, and what they depend
-- on in another. The rows are those of one ledger; a Python set is a list without repeated elements.

namespace Hierarchy

inductive Kind
  | plan
  | phase
  | slice
  | task
  deriving DecidableEq

namespace Kind

-- `KINDS`
def collection : Kind → String
  | plan  => "plans"
  | phase => "phases"
  | slice => "slices"
  | task  => "tasks"

-- `LINKS`
def link : Kind → Option String
  | plan  => none
  | phase => some "plan"
  | slice => some "phase"
  | task  => some "slice"

-- The first part of `ORDER`.
def order : Kind → ℕ
  | plan  => 0
  | phase => 1
  | slice => 2
  | task  => 3

end Kind

def kinds : List Kind :=
  [.plan, .phase, .slice, .task]

structure Node where
  kind     : Kind
  parent   : Option String
  position : ℕ
  deriving DecidableEq

structure Index where
  nodes        : KeyTable String Node
  dependencies : List (String × String)

abbrev State :=
  KeyTable String (List JsonValue)

def items (state : State) (kind : Kind) : List JsonValue :=
  (state.lookup kind.collection).getD []

-- `text`, with the text itself.
def text : Option JsonValue → Option String
  | some (.scalar (.str s)) => if s = "" then none else some s
  | _                       => none

def parent (kind : Kind) (item : JsonValue) : Option String :=
  let found := text (kind.link.bind item.get?)
  if kind = .task then found.or ((text (item.get? "phase")).map ("phases/" ++ ·)) else found

-- The texts of `depends_on`.
def required (item : JsonValue) : List String :=
  match item.get? "depends_on" with
  | some (.array others) => others.filterMap fun other => text (some other)
  | _                    => []

def name (kind : Kind) (id : String) : String :=
  kind.collection ++ "/" ++ id

-- One pass of the inner loop of `project`. What is no dictionary has no `id` either.
def add (kind : Kind) (index : Index) (x : JsonValue × ℕ) : Index :=
  match text (x.1.get? "id") with
  | none    => index
  | some id => {
      nodes        := index.nodes.insert (name kind id) ⟨kind, parent kind x.1, x.2⟩
      dependencies := ((required x.1).map fun other => (name kind id, name kind other)) ∪ index.dependencies
    }

def project (state : State) : Index :=
  kinds.foldl (fun index kind => (items state kind).zipIdx.foldl (add kind) index) ⟨∅, []⟩

-- The tables: `work_dependencies` has its columns as primary key, and its nodes are those of `work_nodes`.
@[ext]
structure Tables where
  nodes        : KeyTable String Node
  dependencies : List (String × String)
  unique       : dependencies.Nodup
  foreign      : ∀ e ∈ dependencies, e.1 ∈ nodes.keys

namespace Tables

-- `DELETE_NODE`: the rows that reference the node go with it.
def deleteNode (t : Tables) (id : String) : Tables where
  nodes        := t.nodes.erase id
  dependencies := t.dependencies.filter (·.1 ≠ id)
  unique       := t.unique.filter _
  foreign e he := by
    have ⟨hm, hn⟩ := List.mem_filter.mp he
    rw [← AList.mem_keys, AList.mem_erase]
    exact ⟨of_decide_eq_true hn, AList.mem_keys.mpr (t.foreign e hm)⟩

-- `UPSERT_NODE`: an update in place, which no other row goes with.
def upsertNode (t : Tables) (x : String × Node) : Tables where
  nodes        := t.nodes.insert x.1 x.2
  dependencies := t.dependencies
  unique       := t.unique
  foreign e he := AList.mem_keys.mp (AList.mem_insert _ |>.mpr (.inr (AList.mem_keys.mpr (t.foreign e he))))

-- `DELETE_DEPENDENCY`
def deleteDependency (t : Tables) (e : String × String) : Tables where
  nodes        := t.nodes
  dependencies := t.dependencies.filter (· ≠ e)
  unique       := t.unique.filter _
  foreign d hd := t.foreign d (List.mem_of_mem_filter hd)

-- `INSERT_DEPENDENCY`: a row that is there already is ignored, but not that its node is missing.
def insertDependency (t : Tables) (e : String × String) : Option Tables :=
  if h : e ∈ t.dependencies then some t
  else if hk : e.1 ∈ t.nodes.keys then
    some {
      nodes        := t.nodes
      dependencies := t.dependencies ++ [e]
      unique       := t.unique.append (List.nodup_singleton e) (List.disjoint_singleton.mpr h)
      foreign d hd := (List.mem_append.mp hd).elim (t.foreign d) fun hs => List.mem_singleton.mp hs ▸ hk
    }
  else none

end Tables

def stored (t : Tables) : Index :=
  ⟨t.nodes, t.dependencies⟩

-- `none` is the error of a foreign key.
def apply (t : Tables) (old new : Index) : Option Tables :=
  let t := (old.nodes.keys.filter (· ∉ new.nodes.keys)).foldl Tables.deleteNode t
  let t := (new.nodes.toList.filter fun x => old.nodes.lookup x.1 ≠ some x.2).foldl Tables.upsertNode t
  let t := (old.dependencies.filter (· ∉ new.dependencies)).foldl Tables.deleteDependency t
  (new.dependencies.filter (· ∉ old.dependencies)).foldlM Tables.insertDependency t

def sync (t : Tables) (state : State) : Option Tables :=
  apply t (stored t) (project state)

structure Drift where
  missingNodes        : List String
  extraNodes          : List String
  changedNodes        : List String
  missingDependencies : List (String × String)
  extraDependencies   : List (String × String)
  drift               : ℕ
  deriving DecidableEq

def sortedEdges (edges : List (String × String)) : List (String × String) :=
  edges.insertionSort fun a b => a.1 < b.1 ∨ a.1 = b.1 ∧ a.2 ≤ b.2

def drift (had want : Index) : Drift :=
  let missing  := (want.nodes.keys.filter (· ∉ had.nodes.keys)).insertionSort (· ≤ ·)
  let extra    := (had.nodes.keys.filter (· ∉ want.nodes.keys)).insertionSort (· ≤ ·)
  let changed  := (want.nodes.keys.filter fun id =>
    id ∈ had.nodes.keys ∧ had.nodes.lookup id ≠ want.nodes.lookup id).insertionSort (· ≤ ·)
  let missing' := sortedEdges (want.dependencies.filter (· ∉ had.dependencies))
  let extra'   := sortedEdges (had.dependencies.filter (· ∉ want.dependencies))
  ⟨missing, extra, changed, missing', extra',
    missing.length + extra.length + changed.length + missing'.length + extra'.length⟩

def rebuild (t : Tables) (state : State) : Option (Tables × Drift) :=
  (apply t (stored t) (project state)).map fun t' => (t', drift (stored t) (project state))

-- `ORDER`: the `printf` of `'%d.%09d'`.
def order (n : Node) : String :=
  .ofList (Nat.toDigits 10 n.kind.order ++ ['.'] ++ (Nat.toDigits 10 n.position).leftpad 9 '0')

def levels : ℕ := 3

def chain : ℕ := 64

inductive Read
  | children
  | subtree
  | ancestors
  | dependents
  deriving DecidableEq

structure Row where
  node   : String
  kind   : Kind
  parent : Option String
  depth  : ℕ
  deriving DecidableEq

def row (x : String × Node) (depth : ℕ) : Row :=
  ⟨x.1, x.2.kind, x.2.parent, depth⟩

-- `ROOT`, where nothing is in or not in a table if it is null.
def Root (t : Tables) (node : Option String) (n : Node) : Prop :=
  n.parent = node ∨ node = none ∧ n.parent.any (· ∉ t.nodes.keys)

instance (t : Tables) (node : Option String) (n : Node) : Decidable (Root t node n) :=
  inferInstanceAs (Decidable (_ ∨ _ ∧ _))

def children (t : Tables) (node : Option String) : List Row :=
  let found := t.nodes.toList.filter fun x => Root t node x.2
  (found.insertionSort fun x y => order x.2 ≤ order y.2).map fun x => row x (if node = none then 0 else 1)

-- A row of `tree`.
structure Branch where
  id    : String
  node  : Node
  depth : ℕ
  sort  : String
  deriving DecidableEq

namespace Branch

def row (b : Branch) : Row :=
  Hierarchy.row (b.id, b.node) b.depth

def child (b : Branch) (x : String × Node) : Branch :=
  ⟨x.1, x.2, b.depth + 1, b.sort ++ "/" ++ order x.2⟩

end Branch

def roots (t : Tables) (node : Option String) : List Branch :=
  (t.nodes.toList.filter fun x => node = some x.1 ∨ node = none ∧ Root t none x.2).map fun x => ⟨x.1, x.2, 0, order x.2⟩

def below (t : Tables) (b : Branch) : List Branch :=
  if b.depth < levels then (t.nodes.toList.filter fun x => x.2.parent = some b.id).map b.child else []

-- Each round adds one to the depth, which the query bounds, so that no row comes after as many rounds.
def subtree (t : Tables) (node : Option String) : List Row :=
  ((Rounds.all (below t) levels (roots t node)).insertionSort fun a b => a.sort ≤ b.sort).map Branch.row

def above (t : Tables) (r : Row) : List Row :=
  if r.depth < levels then (t.nodes.toList.filter fun x => some x.1 = r.parent).map fun x => row x (r.depth + 1) else []

def ancestors (t : Tables) (node : Option String) : List Row :=
  let start := (t.nodes.toList.filter fun x => some x.1 = node).map fun x => row x 0
  ((Rounds.all (above t) levels start).filter (0 < ·.depth)).insertionSort fun a b => b.depth ≤ a.depth

-- The nodes that require a row of `down`.
def down (t : Tables) (x : String × ℕ) : List (String × ℕ) :=
  if x.2 < chain then (t.dependencies.filter (·.2 = x.1)).map fun e => (e.1, x.2 + 1) else []

-- All rows of `down`, each with its node and its depth.
def found (t : Tables) (node : String) : List (String × ℕ) :=
  let start := (t.dependencies.filter (·.2 = node)).map fun e => (e.1, 1)
  Rounds.union (down t) chain start start

def nearest (t : Tables) (node id : String) : Option ℕ :=
  (((found t node).filter (·.1 = id)).map Prod.snd).min?

def dependents (t : Tables) (node : Option String) : List Row :=
  match node with
  | none      => []
  | some node =>
    let rows := t.nodes.toList.filterMap fun x =>
      if x.1 = node then none else (nearest t node x.1).map fun k => (x, k)
    (rows.insertionSort fun x y => x.2 < y.2 ∨ x.2 = y.2 ∧ order x.1.2 ≤ order y.1.2).map fun x => row x.1 x.2

-- The failure is the `KeyError` of a node that is not there.
def read (t : Tables) (name : Read) (node : Option String) : Except String (List Row) :=
  match node.filter (· ∉ t.nodes.keys) with
  | some missing => .error missing
  | none         => .ok <| match name with
    | .children   => children t node
    | .subtree    => subtree t node
    | .ancestors  => ancestors t node
    | .dependents => dependents t node

end Hierarchy
