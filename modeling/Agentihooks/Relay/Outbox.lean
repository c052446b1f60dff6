import Mathlib.Data.List.Sort
import Mathlib.Data.String.Basic
import Agentihooks.Library.Finmap
import Agentihooks.Library.Run
import Agentihooks.Library.Text
import Agentihooks.Objects.Rows

-- The outbox of the ledger database: every write of a ledger leaves a row for each task and phase it changes, in the
-- same transaction, and one relay publishes the rows and marks them sent, in a transaction for each row.

namespace Relay

inductive Entity
  | task
  | phase
  deriving DecidableEq

-- A stored task or phase: its id, which old records may lack, and the text of every other field.
structure Item where
  id     : Option String
  fields : Dict String Json
  deriving DecidableEq

structure State where
  tasks  : List Item
  phases : List Item
  deriving DecidableEq

inductive Change
  | changed
  | removed
  deriving DecidableEq

structure Event where
  id      : ℕ
  entity  : Entity
  change  : Change
  swarm   : String
  key     : String
  version : ℕ
  author  : String
  data    : Option Item
  deriving DecidableEq

structure Row where
  id       : ℕ
  slug     : String
  revision : ℕ
  subject  : String
  value    : Event
  deriving DecidableEq

namespace Entity

def name : Entity → String
  | task  => "task"
  | phase => "phase"

def collection : Entity → State → List Item
  | task  => State.tasks
  | phase => State.phases

-- What a stored item that lacks a catalogued field counts as holding there.
def defaults : Entity → List (String × Json)
  | task  => [("title", "\"\""), ("description", "\"\""), ("phase", "\"\""), ("lane", "\"eng\""), ("state", "\"open\""),
      ("claimed_by", "\"\""), ("issue_url", "\"\""), ("pr_url", "\"\""), ("done", "false")]
  | phase => [("title", "\"\""), ("description", "\"\""), ("done", "false")]

def default? (entity : Entity) (field : String) : Option Json :=
  (entity.defaults.find? fun d => d.1 = field).map Prod.snd

end Entity

def State.empty : State :=
  ⟨[], []⟩

-- The catalogued fields, for a change of an item that has an id.
def filled (entity : Entity) (item : Item) : Option Item :=
  item.id.map fun id =>
    ⟨some id, .build (entity.defaults.map Prod.fst).toFinset fun field =>
      (item.fields.lookup field).or (entity.default? field)⟩

-- The later of two items of one id counts.
def indexed (items : List Item) (key : String) : Option Item :=
  (items.filter fun item => item.id = some key).getLast?

def keys (items : List Item) : List String :=
  items.filterMap Item.id

-- Every task and phase that differs, in the order of the keys, with what it is now.
def changed (before after : State) : List (Entity × String × Option Item) :=
  [.task, .phase].flatMap fun entity =>
    let old := entity.collection before
    let new := entity.collection after
    (((keys old ++ keys new).dedup.insertionSort (· ≤ ·)).filter fun key => indexed old key ≠ indexed new key).map
      fun key => (entity, key, indexed new key)

-- The characters a subject's token may not hold, and what stands for them there.
def reserved (c : Char) : Bool :=
  c = '%' || c = '.' || c = '*' || c = '>' || Text.space c

def digit (n : ℕ) : Char :=
  if n < 10 then Char.ofNat (48 + n) else Char.ofNat (55 + n)

def escaped (c : Char) : List Char :=
  (String.singleton c).toUTF8.toList.flatMap fun byte => ['%', digit (byte.toNat / 16), digit (byte.toNat % 16)]

def token (key : String) : String :=
  .ofList (key.toList.flatMap fun c => if reserved c then escaped c else [c])

def validToken (value : String) : Bool :=
  value ≠ "" && value.toList.all fun c => !(c = '.' || c = '*' || c = '>' || Text.space c)

def subject (swarm : String) (tokens : List String) : Option String :=
  if (swarm :: tokens).all validToken then some (".".intercalate ("swarm" :: swarm :: tokens)) else none

def dataOf (entity : Entity) : Option Item → Option (Option Item)
  | none      => some none
  | some item => (filled entity item).map some

-- The row of one change; an event names a key, and a subject that is none refuses the whole write.
def row (slug : String) (revision id : ℕ) (entity : Entity) (key : String) (item : Option Item) : Option Row := do
  let data ← dataOf entity item
  let change := if item.isNone then .removed else .changed
  if slug = "" ∨ key = "" then
    none
  else
    let subject ← subject slug [entity.name, token key]
    return ⟨id, slug, revision, subject, ⟨id, entity, change, slug, key, revision, "ledger", data⟩⟩

-- The ids are drawn one after the other.
def write (slug : String) (revision drawn : ℕ) (before after : State) : Option (List Row) :=
  ((changed before after).zipIdx drawn).mapM fun ((entity, key, item), id) => row slug revision id entity key item

-- A changed event of an older writer is cut to its catalogued fields; a removal has none.
def slim (event : Event) : Option Event :=
  match event.change with
  | .removed => some event
  | .changed => do
    let item ← event.data
    let data ← filled event.entity item
    return { event with data := some data }

structure Ledger where
  rev   : ℕ
  state : State

-- Revisions order the rows, then subjects.
def Row.Before (a b : Row) : Prop :=
  a.revision < b.revision ∨ a.revision = b.revision ∧ a.subject ≤ b.subject

instance : DecidableRel Row.Before :=
  fun a b => inferInstanceAs (Decidable (a.revision < b.revision ∨ a.revision = b.revision ∧ a.subject ≤ b.subject))

-- `rows` is what the running relay still has to send, and `published` whether it only has to mark the first of them.
-- `inserted` keeps every row ever written and `cut` the rows whose mark a crash took away.
structure Store where
  ledgers   : String → Option Ledger
  drawn     : ℕ
  outbox    : List Row
  sent      : ℕ → Option ℤ
  rows      : List Row
  published : Bool
  bus       : List (String × Event)
  refused   : List ℕ
  inserted  : List Row
  cut       : List ℕ

namespace Store

def start : Store :=
  ⟨fun _ => none, 0, [], fun _ => none, [], false, [], [], [], []⟩

variable (fits : String → Event → Bool) (s : Store)

def unsent : List Row :=
  s.outbox.filter fun row => s.sent row.id = none

def insert (rows : List Row) : Store :=
  { s with
    drawn    := s.drawn + rows.length
    outbox   := s.outbox ++ rows
    inserted := s.inserted ++ rows }

def put (slug : String) (ledger : Option Ledger) : Store :=
  { s with ledgers := Function.update s.ledgers slug ledger }

-- One write of a ledger with its rows: all of it or nothing.
def writes (slug : String) (revision : ℕ) (before after : State) (ledger : Option Ledger) : Store :=
  match write slug revision s.drawn before after with
  | none      => s
  | some rows => (s.insert rows).put slug ledger

-- A mutation; one that counts as a change has the next revision.
def commit (slug : String) (after : State) (changed : Bool) : Store :=
  match s.ledgers slug with
  | none        => s
  | some ledger =>
    let rev := if changed then ledger.rev + 1 else ledger.rev
    s.writes slug rev ledger.state after (some ⟨rev, after⟩)

-- A created ledger, or an imported one with the revision it was exported at, maybe in the place of another.
def create (slug : String) (rev : ℕ) (state : State) (replace : Bool) : Store :=
  match s.ledgers slug with
  | none        => s.writes slug rev .empty state (some ⟨rev, state⟩)
  | some ledger => if replace then s.writes slug rev ledger.state state (some ⟨rev, state⟩) else s

def purge (slug : String) : Store :=
  match s.ledgers slug with
  | none        => s
  | some ledger => s.writes slug ledger.rev ledger.state .empty none

-- The listing is what the query of the unsent rows gives, by its order.
def fetch (listing : List Row) (batch : ℕ) : Store :=
  if s.rows = [] ∧ listing.Perm s.unsent ∧ listing.Pairwise Row.Before then
    { s with rows := listing.take batch }
  else s

-- The relay fails, or its process does, whatever it was doing.
def crash : Store :=
  { s with
    rows      := []
    published := false
    cut       := if s.published then s.cut ++ (s.rows.head?.map Row.id).toList else s.cut }

def publish : Store :=
  match s.rows, s.published with
  | row :: _, false =>
    match slim row.value with
    | none       => s.crash
    | some event =>
      if fits row.subject event then { s with published := true, bus := s.bus ++ [(row.subject, event)] }
      else { s with published := true, refused := s.refused ++ [row.id] }
  | _, _ => s

def mark (now : ℤ) : Store :=
  match s.rows, s.published with
  | row :: rows, true =>
    { s with
      rows      := rows
      published := false
      sent      := Function.update s.sent row.id ((s.sent row.id).or (some now)) }
  | _, _ => s

def prune (now window : ℤ) : Store :=
  let old id := (s.sent id).any (· < now - window)
  { s with
    outbox := s.outbox.filter fun row => !old row.id
    sent   := fun id => if old id then none else s.sent id }

end Store

inductive Action
  | commit (slug : String) (after : State) (changed : Bool)
  | create (slug : String) (rev : ℕ) (state : State) (replace : Bool)
  | purge (slug : String)
  | fetch (listing : List Row) (batch : ℕ)
  | publish
  | mark (now : ℤ)
  | crash
  | prune (now window : ℤ)

variable (fits : String → Event → Bool)

def step (s : Store) : Action → Store
  | .commit slug after changed         => s.commit slug after changed
  | .create slug rev state replace     => s.create slug rev state replace
  | .purge slug                        => s.purge slug
  | .fetch listing batch               => s.fetch listing batch
  | .publish                           => s.publish fits
  | .mark now                          => s.mark now
  | .crash                             => s.crash
  | .prune now window                  => s.prune now window

end Relay
