import Agentihooks.Backfill.Plan
import Agentihooks.Library.Run

-- The calls of a backfill: the sessions of a plan go into the catalog in batches with a checkpoint. A digest of a plan
-- stands for what it is taken of.

namespace Backfill

open Ingest (Catalog)

-- What a plan's digest is taken of: the batch size and a row of each item.
structure PlanDigest where
  batchSize : ℤ
  rows      : List (String × String × Option String × ℕ)
  deriving DecidableEq

-- The name of the outcome, the generation and the number of events.
def Outcome.row : Outcome → String × Option String × ℕ
  | selected source => ("import", some source.generation, source.events.length)
  | quarantined     => ("quarantined", none, 0)
  | missing         => ("missing", none, 0)

-- `_plan_digest`
def planDigest (items : List Item) (batchSize : ℤ) : PlanDigest :=
  ⟨batchSize, items.map fun item => (item.sessionUid, item.outcome.row)⟩

structure Provenance where
  key                      : Key
  sourceReferences         : List String
  fidelity                 : Fidelity
  confidence               : String
  sourceDigest             : String
  importerVersion          : String
  migrationRun             : String
  firstEventTime           : Option JsonValue
  lastEventTime            : Option JsonValue
  verifiedProjects         : Finset String
  unknownAttributionEvents : ℕ

def importerVersion : String :=
  "1"

-- A value that Python takes for true.
def truthy : JsonValue → Bool
  | .scalar .null          => false
  | .scalar (.bool b)      => b
  | .scalar (.int n)       => n ≠ 0
  | .scalar (.float _ m)   => m ≠ 0
  | .scalar (.str text)    => text ≠ ""
  | .array items           => ¬ items.isEmpty
  | .object fields         => ¬ fields.isEmpty

def projectOf (event : JsonValue) : Option String :=
  (event.get? "project_id").bind Ingest.text?

def provenance (key : Key) (source : Import) (runId : String) : Provenance :=
  let times    := source.events.filterMap fun event =>
    ((event.get? "record").bind (·.get? "source_time")).filter truthy
  let projects := source.events.map projectOf
  { key                      := key
    sourceReferences         := source.references
    fidelity                 := source.found.fidelity
    confidence               := source.found.confidence
    sourceDigest             := source.digest
    importerVersion          := importerVersion
    migrationRun             := runId
    firstEventTime           := times.head?
    lastEventTime            := times.getLast?
    verifiedProjects         := (projects.filterMap id).toFinset
    unknownAttributionEvents := projects.count none }

structure SessionRow where
  runId      : String
  records    : ℕ
  provenance : Provenance
  active     : Bool

structure QuarantineRow where
  runId      : String
  sessionUid : String
  entry      : Entry
  deriving DecidableEq

-- The tables of `BackfillLedger`: of a run its plan's digest and the batches that are done.
@[ext]
structure Ledger where
  runs       : Dict String (PlanDigest × ℕ)
  sessions   : Dict (String × String) SessionRow
  quarantine : Finset QuarantineRow

namespace Ledger

variable (l : Ledger)

-- `OPEN_RUN`
def opened (runId : String) (digest : PlanDigest) : Ledger :=
  if (l.runs.lookup runId).isSome then l else { l with runs := l.runs.insert runId (digest, 0) }

def checkpoint (runId : String) : ℕ :=
  ((l.runs.lookup runId).map Prod.snd).getD 0

def imported (sessionUid generation : String) : Bool :=
  (l.sessions.lookup (sessionUid, generation)).isSome

def mark (sessionUid generation : String) (row : SessionRow) : Ledger :=
  if l.imported sessionUid generation then l
  else { l with sessions := l.sessions.insert (sessionUid, generation) row }

def quarantined (row : QuarantineRow) : Ledger :=
  { l with quarantine := insert row l.quarantine }

-- `ADVANCE`, unless another runner has moved the checkpoint.
def advanced (runId : String) (expected reached : ℕ) : Option Ledger :=
  match l.runs.lookup runId with
  | some (digest, done) => if done = expected then some { l with runs := l.runs.insert runId (digest, reached) } else none
  | none                => none

end Ledger

-- What becomes of the next statement that writes: nothing, an outage, which a write of the ledger does not survive, or
-- a crash before it.
inductive Luck
  | fine
  | outage
  | crash
  deriving DecidableEq

-- The stores, the luck of the statements to come, and the sources whose events were inserted.
structure State where
  catalog  : Catalog
  ledger   : Ledger
  lucks    : List Luck
  inserted : List (String × String)

-- How a call ends early: by a crash or an exception that it does not handle, by `_Unavailable`, or by `Rejected`.
inductive Halt
  | crashed
  | unavailable
  | rejected (refusal : Refusal)

inductive Step (α : Type)
  | done (a : α) (s : State)
  | halt (h : Halt) (s : State)

namespace Step

def bind {α β : Type} (step : Step α) (next : α → State → Step β) : Step β :=
  match step with
  | done a s => next a s
  | halt h s => halt h s

def state {α : Type} : Step α → State
  | done _ s => s
  | halt _ s => s

end Step

section Statements

variable (s : State)

-- A statement that writes the ledger.
def write (change : Ledger → Ledger) : Step Unit :=
  match s.lucks with
  | []              => .done () { s with ledger := change s.ledger }
  | .fine :: lucks  => .done () { s with ledger := change s.ledger, lucks }
  | _ :: lucks      => .halt .crashed { s with lucks }

-- The ingestion of a request, whose events are inserted if it was not committed before.
def ingested (request : Ingest.Request) (source : String × String) (lucks : List Luck) : Step Ingest.Reply :=
  let (catalog, reply) := Ingest.ingest s.catalog request
  let fresh := match reply with
    | .committed answer => if answer.state = .committed then [source] else []
    | _                 => []
  .done reply { s with catalog, lucks, inserted := s.inserted ++ fresh }

def ingest (grant : Ingest.Grant) (request : JsonValue) (source : String × String) : Step Ingest.Reply :=
  match s.lucks with
  | []               => ingested s ⟨grant, request, false⟩ source []
  | .fine :: lucks   => ingested s ⟨grant, request, false⟩ source lucks
  | .outage :: lucks => ingested s ⟨grant, request, true⟩ source lucks
  | .crash :: lucks  => .halt .crashed { s with lucks }

end Statements

structure Run where
  grant : Ingest.Grant
  runId : String

-- What a report says became of a session.
inductive Handled
  | alreadyImported
  | noRecords
  | committed
  | replayed
  | quarantined
  | missing
  deriving DecidableEq

-- `IDENTITY_CONFLICT if error == "revision_conflict" else error`
def reasonOf : Ingest.ErrorClass → String
  | .revisionConflict      => "event_identity_conflict"
  | .invalidRequest        => "invalid_request"
  | .forbiddenScope        => "forbidden_scope"
  | .dependencyUnavailable => "dependency_unavailable"

section Calls

variable (run : Run)

-- `_request`
def request (item : Item) (source : Import) : JsonValue :=
  .object [("schema_version", .scalar (.str Ingest.schemaVersion)), ("batch_id", .scalar (.str source.generation)),
    ("access_domain", .scalar (.str run.grant.corpus)), ("session_uid", .scalar (.str item.sessionUid)),
    ("source_generation", .scalar (.str source.generation)), ("events", .array source.events)]

def sessionRow (item : Item) (source : Import) : SessionRow :=
  ⟨run.runId, source.events.length, provenance item.key source run.runId, true⟩

-- `_import`
def importSession (item : Item) (source : Import) (s : State) : Step Handled :=
  if s.ledger.imported item.sessionUid source.generation then .done .alreadyImported s
  else if source.events = [] then .done .noRecords s
  else
    (ingest s run.grant (request run item source) (item.sessionUid, source.generation)).bind fun reply s =>
      match reply with
      | .committed answer =>
        (write s fun l => l.mark item.sessionUid source.generation (sessionRow run item source)).bind fun _ s =>
          .done (if answer.state = .committed then .committed else .replayed) s
      | .refused _ error =>
        if error.errorClass = .dependencyUnavailable then .halt .unavailable s
        else
          (write s fun l => l.quarantined
            ⟨run.runId, item.sessionUid, ⟨reasonOf error.errorClass, source.generation⟩⟩).bind fun _ s =>
              .done .quarantined s
      | .raised => .halt .crashed s

def quarantineAll (sessionUid : String) : List Entry → State → Step Unit
  | [], s               => .done () s
  | entry :: entries, s =>
    (write s fun l => l.quarantined ⟨run.runId, sessionUid, entry⟩).bind fun _ s => quarantineAll sessionUid entries s

-- `_session`
def session (item : Item) (s : State) : Step Handled :=
  (quarantineAll run item.sessionUid item.quarantine s).bind fun _ s =>
    match item.outcome with
    | .selected source => importSession run item source s
    | .quarantined     => .done .quarantined s
    | .missing         => .done .missing s

-- Where `_batches` ends, with the sessions it handled.
inductive Progress
  | partly
  | interrupted
  | completed
  deriving DecidableEq

abbrev Sessions := List (String × Handled)

-- The items of a batch: whether all of them were handled, or else where it ends.
def handleBatch (limit : Option ℤ) : List Item → Sessions → State → Step (Option Progress × Sessions)
  | [], handled, s            => .done (none, handled) s
  | item :: items, handled, s =>
    if limit.any fun n : ℤ => n ≤ handled.length then .done (some .partly, handled) s
    else
      match session run item s with
      | .halt .unavailable s => .done (some .interrupted, handled) s
      | .halt h s            => .halt h s
      | .done outcome s      => handleBatch limit items (handled ++ [(item.sessionUid, outcome)]) s

def stale : Refusal :=
  ⟨"stale_checkpoint", "another runner moved this checkpoint; reopen the run and resume from its checkpoint"⟩

-- `ledger.advance`
def advance (index : ℕ) (s : State) : Step Unit :=
  match s.ledger.advanced run.runId index (index + 1) with
  | some ledger => write s fun _ => ledger
  | none        => .halt (.rejected stale) s

-- The batches from the checkpoint on.
def handleBatches (limit : Option ℤ) : ℕ → List (List Item) → Sessions → State → Step (Progress × Sessions)
  | _, [], handled, s                  => .done (.completed, handled) s
  | index, batch :: batches, handled, s =>
    (handleBatch run limit batch handled s).bind fun (ended, handled) s =>
      match ended with
      | some progress => .done (progress, handled) s
      | none          =>
        (advance run index s).bind fun _ s => handleBatches limit (index + 1) batches handled s

-- `-(-len(items) // size)`
def total (size : ℕ) (items : List Item) : ℕ :=
  (items.length + (size - 1)) / size

def batchesOf (size : ℕ) (items : List Item) : List (List Item) :=
  (List.range (total size items)).map fun index => (items.drop (index * size)).take size

-- `_batches`
def batches (size : ℕ) (limit : Option ℤ) (items : List Item) (s : State) : Step (Progress × Sessions) :=
  let checkpoint := s.ledger.checkpoint run.runId
  handleBatches run limit checkpoint ((batchesOf size items).drop checkpoint) [] s

def planMismatch : Refusal :=
  ⟨"plan_mismatch", "this run was opened for different sources; start a new run id"⟩

-- `ledger.open`
def openRun (digest : PlanDigest) (s : State) : Step Unit :=
  (write s fun l => l.opened run.runId digest).bind fun _ s =>
    match s.ledger.runs.lookup run.runId with
    | some (held, _) => if held = digest then .done () s else .halt (.rejected planMismatch) s
    | none           => .halt .crashed s

end Calls

inductive ReportState
  | partly
  | interrupted
  | completed
  | completedWithGaps
  deriving DecidableEq

structure Report where
  state                    : ReportState
  runId                    : String
  importerVersion          : String
  batchesDone              : ℕ
  batchesTotal             : ℕ
  sessions                 : Sessions
  remainingRecords         : ℕ
  remainingSessions        : List String
  missing                  : List String
  quarantined              : Finset QuarantineRow
  verifiedAliasEvents      : ℕ
  unknownAttributionEvents : ℕ

inductive Reply
  | crashed
  | rejected (refusal : Refusal)
  | report (report : Report)

section Backfill

variable {M : Type} (tools : Tools M) (plan : Plan M) (run : Run)

def eventsOf (items : List Item) : List JsonValue :=
  items.flatMap fun item =>
    match item.outcome with
    | .selected source => source.events
    | _                => []

-- `_remaining`
def Ledger.remaining (l : Ledger) (items : List Item) : List Item :=
  items.filter fun item =>
    match item.outcome with
    | .selected source => ¬ source.events.isEmpty ∧ ¬ l.imported item.sessionUid source.generation
    | _                => false

-- `_report`
def reportOf (size : ℕ) (items : List Item) (progress : Progress) (handled : Sessions) (l : Ledger) : Report :=
  let left        := l.remaining items
  let missing     := (items.filter fun item => item.outcome matches .missing).map Item.sessionUid
  let quarantined := l.quarantine.filter fun row => row.runId = run.runId
  { state := match progress with
      | .partly      => .partly
      | .interrupted => .interrupted
      | .completed   => if missing = [] ∧ quarantined = ∅ then .completed else .completedWithGaps
    runId                    := run.runId
    importerVersion          := importerVersion
    batchesDone              := l.checkpoint run.runId
    batchesTotal             := total size items
    sessions                 := handled
    remainingRecords         := (eventsOf left).length
    remainingSessions        := left.map Item.sessionUid
    missing                  := missing
    quarantined              := quarantined
    verifiedAliasEvents      := ((eventsOf items).filter fun event => (projectOf event).isSome).length
    unknownAttributionEvents := ((eventsOf items).filter fun event => (projectOf event).isNone).length }

def backfill (limit : Option ℤ) (s : State) : Reply × State :=
  match planError run.grant plan run.runId, plan.work tools with
  | some refusal, _   => (.rejected refusal, s)
  | none, none        => (.crashed, s)
  | none, some items  =>
    let size  := plan.batchSize.toNat
    let step  := (openRun run (planDigest items plan.batchSize) s).bind fun _ s => batches run size limit items s
    match step with
    | .done (progress, handled) s => (.report (reportOf run size items progress handled s.ledger), s)
    | .halt (.rejected refusal) s => (.rejected refusal, s)
    | .halt _ s                   => (.crashed, s)

-- A call, with the luck of its statements.
structure Call where
  limit : Option ℤ
  lucks : List Luck

def call (s : State) (c : Call) : State :=
  (backfill tools plan run c.limit { s with lucks := c.lucks }).2

end Backfill

end Backfill
