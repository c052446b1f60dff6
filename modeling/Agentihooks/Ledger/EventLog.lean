import Mathlib.Data.List.Sort
import Agentihooks.Library.KeyTable

-- The events of a ledger: its meta holds them as a log, and the table `events` stores them. A mutation appends its
-- events to both and trims both, and a ledger that is stored whole has its rows written anew. The JSON text of an
-- event is the event here.

namespace Ledger.EventLog

structure Event where
  rev    : Option ℤ
  time   : Option ℤ
  others : String
  deriving DecidableEq

structure Core where
  eventsKept    : ℕ
  eventsCeiling : ℕ
  eventsWindow  : ℤ
  kept_le       : eventsKept ≤ eventsCeiling

def core : Core :=
  ⟨2000, 10000, 24 * 60 * 60 * 1000, by decide⟩

structure Meta where
  rev     : ℤ
  events  : Option (List Event)
  ack     : Option ℤ
  trimmed : Option ℤ

def Meta.log (doc : Meta) : List Event :=
  doc.events.getD []

section Rows

-- A key of `write_events` is a digest and its occurrence, one of `append_events` a position.
inductive Key (δ : Type)
  | written (digest : δ) (occurrence : ℕ)
  | appended (position : ℕ)
  deriving DecidableEq

structure Row where
  revision : Option ℤ
  position : ℕ
  value    : Event
  deriving DecidableEq

abbrev Rows (δ : Type) :=
  KeyTable (Key δ) Row

variable {δ : Type} [DecidableEq δ]

-- The rows in the order of their positions.
def ordered (rows : Rows δ) : List (Key δ × Row) :=
  rows.toList.insertionSort fun x y => x.2.position ≤ y.2.position

def readEvents (rows : Rows δ) : List Event :=
  (ordered rows).map fun x => x.2.value

-- An `INSERT` under a key that the table has raises, and the transaction is rolled back.
def insertRow (rows : Rows δ) (key : Key δ) (row : Row) : Option (Rows δ) :=
  if key ∈ rows then none else some (rows.insert key row)

-- The loop of `write_events`, with the digests of the events before.
def desired (sha256 : Event → δ) (seen : List δ) (position : ℕ) : List Event → List (Key δ × Row)
  | []              => []
  | event :: events =>
    (.written (sha256 event) (seen.count (sha256 event)), ⟨event.rev, position, event⟩) ::
      desired sha256 (sha256 event :: seen) (position + 1) events

def writeChange (rows : Rows δ) (key : Key δ) : Option Row → Option (Rows δ)
  | none     => some (rows.erase key)
  | some row =>
    match rows.lookup key with
    | none     => insertRow rows key row
    | some old =>
      if old.value = row.value then some (rows.insert key { old with position := row.position })
      else insertRow rows key row

def writeChanges : Rows δ → List (Key δ × Option Row) → Option (Rows δ)
  | rows, []      => some rows
  | rows, x :: xs => (writeChange rows x.1 x.2).bind fun rows => writeChanges rows xs

def writeEvents (sha256 : Event → δ) (rows : Rows δ) (events : List Event) : Option (Rows δ) :=
  if events.any fun event => event.rev.isNone then none
  else writeChanges rows (KeyTable.changes rows (KeyTable.ofList (desired sha256 [] 0 events)))

def appendFrom (rows : Rows δ) (position : ℕ) : List Event → Option (Rows δ)
  | []              => some rows
  | event :: events =>
    if event.rev.isNone then none
    else (insertRow rows (.appended position) ⟨event.rev, position, event⟩).bind fun rows =>
      appendFrom rows (position + 1) events

-- The position after the newest one.
def start (rows : Rows δ) : ℕ :=
  ((rows.toList.map fun x => x.2.position).max?.map (· + 1)).getD 0

def trimEvents (rows : Rows δ) (kept : ℕ) : Rows δ :=
  let newest := ((rows.toList.map fun x => x.2.position).insertionSort fun x y => y ≤ x).take kept
  KeyTable.ofList (rows.toList.filter fun x => x.2.position ∈ newest)

def appendEvents (rows : Rows δ) (events : List Event) (kept : ℕ) : Option (Rows δ) :=
  if events.isEmpty then some rows
  else (appendFrom rows (start rows) events).map fun rows => trimEvents rows kept

end Rows

def retained (events : List Event) (ack : Option ℤ) (kept ceiling : ℕ) (horizon : ℤ) : ℕ :=
  let start := events.length - kept
  let start := match ack with
    | none     => start
    | some ack => min start ((events.findIdx? fun event => ack < event.rev.getD 0).getD start)
  let start := ((events.take start).findIdx? fun event => horizon < event.time.getD 0).getD start
  max start (events.length - ceiling)

def keepEvents (core : Core) (doc : Meta) (events : List Event) (time : ℤ) : Option Meta :=
  doc.events.map fun held =>
    let log   := held ++ events
    let start := retained log doc.ack core.eventsKept core.eventsCeiling (time - core.eventsWindow)
    { doc with
      events  := some (log.drop start)
      trimmed := if start = 0 then doc.trimmed else log[start - 1]?.map fun event => event.rev.getD 0 }

-- `ledger_events_ack.apply`
def acknowledge (doc : Meta) (revision : ℤ) : Meta :=
  let revision := min revision doc.rev
  if doc.ack.getD (-1) < revision then { doc with ack := some revision } else doc

-- What a mutation does to the meta, once its operations are folded: the acknowledgements among them, what its events
-- hold beside revision and time, and whether it is dirty without them.
structure Mutation where
  time     : ℤ
  acks     : List ℤ
  recorded : List String
  dirty    : Bool

namespace Mutation

def changed (m : Mutation) : Bool :=
  !m.recorded.isEmpty || m.dirty

def events (m : Mutation) (doc : Meta) : List Event :=
  m.recorded.map fun others => ⟨some (doc.rev + 1), some m.time, others⟩

def apply (core : Core) (m : Mutation) (created : Bool) (doc : Meta) : Option Meta :=
  let held := m.acks.foldl acknowledge doc
  if m.changed || created then keepEvents core { held with rev := doc.rev + 1 } (m.events doc) m.time
  else some held

end Mutation

-- The events dropped since the ledger was stored whole stand beside it, for the statements about them.
structure Stored (δ : Type) where
  doc     : Meta
  rows    : Rows δ
  dropped : List Event

-- The events that a mutation drops, of those before it and its own.
def lost (before after : Meta) (events : List Event) : List Event :=
  (before.log ++ events).take ((before.log ++ events).length - after.log.length)

-- `_write` appends to the rows. `write_events` takes whatever rows there are, although its callers delete them first.
inductive Writer
  | append
  | rewrite
  deriving DecidableEq

inductive Step
  | apply (m : Mutation) (writer : Writer)
  | create (doc : Meta) (m : Mutation)
  | insert (doc : Meta)

section Runs

variable {δ : Type} [DecidableEq δ] (core : Core) (sha256 : Event → δ)

-- The part of `_write` about events.
def write (rows : Rows δ) (doc : Meta) (events : List Event) : Option (Rows δ) :=
  (appendEvents rows events doc.log.length).map fun rows =>
    if events.isEmpty && doc.events.isSome then trimEvents rows doc.log.length else rows

def store (writer : Writer) (rows : Rows δ) (doc : Meta) (events : List Event) : Option (Rows δ) :=
  match writer with
  | .append  => write rows doc events
  | .rewrite => writeEvents sha256 rows doc.log

def attempt (ledger : Option (Stored δ)) : Step → Option (Stored δ)
  | .apply m writer => do
    let ledger ← ledger
    let doc ← m.apply core false ledger.doc
    let rows ← store sha256 writer ledger.rows doc (m.events ledger.doc)
    some ⟨doc, rows, ledger.dropped ++ lost ledger.doc doc (m.events ledger.doc)⟩
  | .create before m => do
    let doc ← m.apply core true before
    let rows ← writeEvents sha256 ∅ doc.log
    some ⟨doc, rows, lost before doc (m.events before)⟩
  | .insert doc => do
    let rows ← writeEvents sha256 ∅ doc.log
    some ⟨doc, rows, []⟩

-- A step that raises leaves what is stored as it was.
def step (ledger : Option (Stored δ)) (x : Step) : Option (Stored δ) :=
  (attempt core sha256 ledger x).orElse fun _ => ledger

def run (steps : List Step) : Option (Stored δ) :=
  steps.foldl (step core sha256) none

end Runs

end Ledger.EventLog
