import Mathlib.Data.Finset.Max
import Mathlib.Data.Int.Order.Basic
import Mathlib.Data.List.Sort
import Agentihooks.Library.Finmap
import Agentihooks.Library.JsonValue
import Agentihooks.Objects.Rows

-- The session catalog: a commit writes a batch's events, its quarantine, the watermark of the source and the answer, in
-- one transaction. A digest stands for the content that it is taken of.

namespace Ingest

open JsonValue

structure Scope where
  accessDomain     : String
  sessionUid       : String
  sourceGeneration : String
  deriving DecidableEq

structure StoredEvent where
  eventId        : Content
  sequence       : ℤ
  byteStart      : ℤ
  byteEnd        : ℤ
  projectId      : Option String
  record         : JsonValue
  normalizedHash : Content
  deriving DecidableEq

structure Rejection where
  sequence : ℤ
  eventId  : Content
  reason   : String
  deriving DecidableEq

structure BatchCommit where
  accessDomain     : String
  batchId          : String
  payloadDigest    : Content
  sessionUid       : String
  sourceGeneration : String
  events           : List StoredEvent
  rejected         : List Rejection
  schemaVersion    : String

structure Result where
  firstSequence : Option ℤ
  lastSequence  : Option ℤ
  eventIds      : List Content
  duplicates    : List Content
  rejected      : List Rejection

structure Batch where
  payloadDigest : Content
  result        : Result
  schemaVersion : String

structure Watermark where
  durableThrough : ℤ
  schemaVersion  : String

inductive ProjectState
  | attributed
  | unknown

structure Catalog where
  events     : Dict (Scope × ℤ) StoredEvent
  quarantine : Dict (Scope × ℤ) Rejection
  batches    : Dict (String × String) Batch
  watermarks : Dict Scope Watermark
  provenance : Dict (String × Content) ProjectState
  duplicates : String → ℕ

def empty : Catalog where
  events     := ∅
  quarantine := ∅
  batches    := ∅
  watermarks := ∅
  provenance := ∅
  duplicates := fun _ => 0

-- `integrity`: a row that a table already has under its key.
inductive Failure
  | conflict (detail : String)
  | integrity

inductive BatchState
  | committed
  | replayed
  deriving DecidableEq

structure Answer where
  result         : Result
  state          : BatchState
  durableThrough : ℤ

-- A row that says what became of a sequence.
inductive Settled
  | event (id hash : Content) (project : Option String)
  | quarantine (id : Content) (reason : String)
  deriving DecidableEq

def StoredEvent.settled (e : StoredEvent) : Settled :=
  .event e.eventId e.normalizedHash e.projectId

def Rejection.settled (r : Rejection) : Settled :=
  .quarantine r.eventId r.reason

def BatchCommit.scope (b : BatchCommit) : Scope :=
  ⟨b.accessDomain, b.sessionUid, b.sourceGeneration⟩

namespace Catalog

variable (c : Catalog)

def settled (key : Scope × ℤ) : Option Settled :=
  ((c.events.lookup key).map StoredEvent.settled).or ((c.quarantine.lookup key).map Rejection.settled)

def count (domain : String) (amount : ℕ) : Catalog :=
  { c with duplicates := Function.update c.duplicates domain (c.duplicates domain + amount) }

def differs : Failure :=
  .conflict "an event at this sequence was committed with different content"

-- Whether the event was inserted.
def insertEvent (b : BatchCommit) (e : StoredEvent) : Except Failure (Bool × Catalog) :=
  match c.settled (b.scope, e.sequence) with
  | some found => if found = e.settled then .ok (false, c) else .error differs
  | none       =>
    let held := c.events.Exists fun key row => key.1.accessDomain = b.accessDomain ∧ row.eventId = e.eventId
    if held ∨ (c.provenance.lookup (b.accessDomain, e.eventId)).isSome then .error .integrity
    else
      let state : ProjectState := if e.projectId = none then .unknown else .attributed
      .ok (true, { c with
        events     := c.events.insert (b.scope, e.sequence) e
        provenance := c.provenance.insert (b.accessDomain, e.eventId) state })

def insertQuarantine (b : BatchCommit) (item : Rejection) : Except Failure Catalog :=
  match c.settled (b.scope, item.sequence) with
  | some found => if found = item.settled then .ok c else .error differs
  | none       => .ok { c with quarantine := c.quarantine.insert (b.scope, item.sequence) item }

def watermark (scope : Scope) : ℤ :=
  ((c.watermarks.lookup scope).map Watermark.durableThrough).getD 0

-- The sequences of a source that are settled.
def sequences (scope : Scope) : Finset ℤ :=
  ((c.events.keys ∪ c.quarantine.keys).filter (·.1 = scope)).image Prod.snd

-- `CONTIGUOUS`
def contiguous (scope : Scope) (current : ℤ) : ℤ :=
  let settled := c.sequences scope
  ((insert current (settled.filter (current < ·))).filter (· + 1 ∉ settled)).min.untopD current

def advance (b : BatchCommit) : ℤ × Catalog :=
  let through := c.contiguous b.scope (c.watermark b.scope)
  (through, { c with watermarks := c.watermarks.insert b.scope ⟨through, b.schemaVersion⟩ })

def replay (b : BatchCommit) (stored : Batch) : Except Failure (Answer × Catalog) :=
  if stored.payloadDigest ≠ b.payloadDigest then
    .error (.conflict "this batch_id was committed with different content")
  else .ok (⟨stored.result, .replayed, c.watermark b.scope⟩, c.count b.accessDomain stored.result.eventIds.length)

-- The ids of the events that were there already.
def insertEvents (b : BatchCommit) (c : Catalog) : List StoredEvent → Except Failure (List Content × Catalog)
  | []      => .ok ([], c)
  | e :: es => do
    let (inserted, c)   ← c.insertEvent b e
    let (duplicates, c) ← insertEvents b c es
    return (if inserted then duplicates else e.eventId :: duplicates, c)

def insertQuarantines (b : BatchCommit) (c : Catalog) : List Rejection → Except Failure Catalog
  | []            => .ok c
  | item :: items => do insertQuarantines b (← c.insertQuarantine b item) items

def result (b : BatchCommit) (duplicates : List Content) : Result :=
  let accepted := b.events.insertionSort fun x y => x.sequence ≤ y.sequence
  { firstSequence := accepted.head?.map StoredEvent.sequence
    lastSequence  := accepted.getLast?.map StoredEvent.sequence
    eventIds      := accepted.map StoredEvent.eventId
    duplicates    := duplicates
    rejected      := b.rejected }

def apply (b : BatchCommit) : Except Failure (Answer × Catalog) := do
  let (duplicates, c) ← insertEvents b c b.events
  let c ← insertQuarantines b c b.rejected
  let c := c.count b.accessDomain duplicates.length
  let result := result b duplicates
  let batch : Batch := ⟨b.payloadDigest, result, b.schemaVersion⟩
  let (through, c) := { c with batches := c.batches.insert (b.accessDomain, b.batchId) batch }.advance b
  return (⟨result, .committed, through⟩, c)

def commit (b : BatchCommit) : Except Failure (Answer × Catalog) :=
  match c.batches.lookup (b.accessDomain, b.batchId) with
  | some stored => c.replay b stored
  | none        => c.apply b

end Catalog

end Ingest
