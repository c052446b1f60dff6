import Agentihooks.Library.Finmap
import Agentihooks.Objects.Rows
import Agentihooks.Library.Run

-- The records of the outbox: how a queued line is read, which lane it replays in, what it writes on the
-- ledger, and what comes of applying it.

namespace Outbox

-- One operation of a ledger record. `fields` are its text fields beside `op`.
structure LedgerOp where
  op               : String
  expectedRevision : Option ℕ
  fields           : Dict String String
  payload          : Json

-- `ops` and `queuedAt` are those of a ledger record; `rest` holds what else a record has for its command.
structure Args where
  ops      : List LedgerOp
  queuedAt : Int
  rest     : Json

-- A queued record without its checksum, as `record` makes it.
structure Body where
  op   : String
  sender : String
  item : String
  args : Args

structure Record extends Body where
  sum : String

-- `json.loads` of a line, where it makes a record of it, and `checksum`.
structure Codec where
  loads    : String → Option Record
  checksum : Body → String

-- `OPS`.
def ops : List String :=
  ["send", "reply", "close", "post", "say", "ledger"]

-- `APPEND_ONLY`.
def appendOnly : List String :=
  ["add", "add_item", "relay", "answer"]

def Codec.parse (codec : Codec) (line : String) : Option Record := do
  let found ← codec.loads line
  if found.op ∉ ops then none
  if found.sum = codec.checksum found.toBody then some found else none

inductive Lane
  | redis
  | ledger
  deriving DecidableEq

def Record.lane (entry : Record) : Lane :=
  if entry.op = "ledger" then .ledger else .redis

-- What applying a record raises when nothing is wrong with the outbox itself: `DuplicateItem`; `RedisError`,
-- `Contended` or `LedgerDown`; `InboxError`, `KeyError`, `TypeError` or `ValueError`; any other exception.
inductive Raised
  | duplicate
  | unreachable
  | refused (message : String)
  | failed (error : String)

namespace LedgerOp

-- `op[key]`.
def field (op : LedgerOp) (key : String) : Except Raised String :=
  ((op.fields.lookup key).map Except.ok).getD (.error (.refused ("'" ++ key ++ "'")))

-- The path without its last part: `path.rsplit("/", 1)[0]`.
def parent (path : String) : String :=
  String.ofList ((path.toList.reverse.dropWhile (· ≠ '/')).tail.reverse)

-- `schemas.target`: the resource an operation writes.
def target (op : LedgerOp) : Except Raised String :=
  if op.op ∈ ["add", "edit", "delete", "clear"] then
    op.field "thread"
  else if op.op ∈ ["join", "leave", "ack", "agent_rename"] then
    .ok "members"
  else if op.op = "set" then do
    let path ← op.field "path"
    return if '/' ∈ path.toList then parent path else "metadata"
  else if op.op = "add_item" then
    op.field "list"
  else if "task_".isPrefixOf op.op then
    .ok ((op.fields.lookup "item").getD "tasks")
  else if "phase_".isPrefixOf op.op then
    .ok ((op.fields.lookup "item").getD "phases")
  else if "priority".isPrefixOf op.op then
    .ok "priorities"
  else if op.op ∈ ["notification_clear", "notice"] then
    .ok "notifications"
  else if "artifact_".isPrefixOf op.op then
    .ok "artifacts"
  else if op.op ∈ ["claim", "retext", "relay", "answer", "verdict"] ∨ "blocker_".isPrefixOf op.op then
    op.field "item"
  else if op.op ∈ ["alert_claim", "alert_close", "alert_raise"] then
    .ok "alerts"
  else if op.op = "source_add" then
    .ok "sources"
  else if op.op = "plan_add" then
    .ok "plans"
  else if op.op = "slice_add" then
    .ok "slices"
  else if op.op ∈ ["freeze_set", "freeze_clear"] then
    .ok "freezes"
  else
    .ok "metadata"

end LedgerOp

-- `targets`.
def Record.targets (entry : Record) : Except Raised (Finset String) :=
  match entry.lane with
  | .redis  => .ok ∅
  | .ledger => do
    let found ← entry.args.ops.mapM LedgerOp.target
    return found.toFinset

-- The body of a refusal of the ledger server, as far as it is read.
structure ServerError where
  code : String
  path : Option String

-- What comes of `ledger.replay`: the state with the operations the server rejected, an answer with a status,
-- no connection, or another exception.
inductive Reply
  | answered (rejected : List String)
  | http (status : ℕ) (error : ServerError)
  | unreachable
  | refused (message : String)
  | failed (error : String)

-- Everything outside of the outbox, with its state: the commands on Redis, the ledger server and the clock.
structure Outside (ω : Type) where
  redis  : Record → ω → Except Raised Unit × ω
  replay : Args → List LedgerOp → ω → Reply × ω
  clock  : ω → Int × ω

-- What `apply` raises: `LedgerBusy` with its targets, or one of the others.
inductive Failure
  | busy (message : String) (targets : Finset String)
  | raised (e : Raised)

-- What `_send_ledger` raises: `RevisionConflict`, or what its caller lets through.
inductive SendError
  | conflict (message : String)
  | failure (e : Failure)

variable {ω : Type}

-- `_send_ledger`, with what the server rejected.
def sendLedger (outside : Outside ω) (args : Args) (ops : List LedgerOp) (w : ω) :
    Except SendError (List String) × ω :=
  let (reply, w) := outside.replay args ops w
  match reply with
  | .answered rejected  => (.ok rejected, w)
  | .http status error  =>
    if error.code = "revision_conflict" then
      let on := (error.path.filter (· ≠ "")).elim "" (" on " ++ ·)
      (.error (.conflict (s!"the ledger server answered {status} revision conflict" ++ on)), w)
    else if status ≥ 500 ∨ status = 429 then
      (.error (.failure (.busy s!"the ledger server answered {status}" ∅)), w)
    else
      (.error (.failure (.raised (.refused s!"the ledger server refused it: {status}"))), w)
  | .unreachable        => (.error (.failure (.raised .unreachable)), w)
  | .refused message    => (.error (.failure (.raised (.refused message))), w)
  | .failed error       => (.error (.failure (.raised (.failed error))), w)

-- `LedgerBusy(message, targets(entry))`.
def Record.busy (entry : Record) (message : String) : Failure :=
  match entry.targets with
  | .ok targets => .busy message targets
  | .error e    => .raised e

-- What is left to `apply_ledger` once the server has answered for the last time.
def Record.answered (entry : Record) : Except SendError (List String) → Except Failure Unit
  | .error (.conflict message) => .error (entry.busy message)
  | .error (.failure e)        => .error e
  | .ok rejected               =>
    if rejected ≠ [] then
      .error (.raised (.refused ("the ledger server rejected " ++ ", ".intercalate rejected)))
    else
      .ok ()

def LedgerOp.pinned (op : LedgerOp) : Bool :=
  op.expectedRevision.any (· ≠ 0)

-- `apply_ledger`. A write of appended rows that expected a revision is tried once more without.
def applyLedger (outside : Outside ω) (entry : Record) (w : ω) : Except Failure Unit × ω :=
  let ops := entry.args.ops
  let (sent, w) := sendLedger outside entry.args ops w
  match sent with
  | .error (.conflict message) =>
    if ¬ops.any (·.pinned) then
      (.error (entry.busy message), w)
    else if ¬ops.all (·.op ∈ appendOnly) then
      (.error (.raised (.refused
        (message ++ " since this write was queued, so its expected revision can never apply"))), w)
    else
      let fresh := ops.map fun op => { op with expectedRevision := none }
      let (again, w) := sendLedger outside entry.args fresh w
      (entry.answered again, w)
  | sent => (entry.answered sent, w)

-- `apply`.
def Outside.apply (outside : Outside ω) (entry : Record) (w : ω) : Except Failure Unit × ω :=
  match entry.lane with
  | .ledger => applyLedger outside entry w
  | .redis  =>
    let (done, w) := outside.redis entry w
    (done.mapError .raised, w)

end Outbox

-- One flush of the outbox: every queued line in order, over two lanes that stop independently.

namespace Outbox

-- The files of the outbox. A line that was set aside is kept with the reason.
structure Home where
  queue    : Option (List String)
  skipped  : List (String × String)
  attempts : Dict String ℕ

structure Report where
  applied  : List String
  already  : List String
  rejected : List (String × String)
  corrupt  : ℕ
  left     : ℕ

-- Why a line is kept: its lane is down or it writes what is held, its resource is busy, or it stopped its lane.
inductive Kept
  | behind
  | busy
  | stopped
  deriving DecidableEq

-- What became of a line, with the item of its record where that is reported.
inductive Fate
  | applied (item : String)
  | already (item : String)
  | aside (reason : String)
  | kept (why : Kept)
  deriving DecidableEq

namespace Fate

def appliedItem : Fate → Option String
  | applied item => item
  | _            => none

def alreadyItem : Fate → Option String
  | already item => item
  | _            => none

-- The entry of the skipped file.
def skipped (line : String) : Fate → Option (String × String)
  | aside reason => some (reason, line)
  | _            => none

def keptLine (line : String) : Fate → Option String
  | kept _ => some line
  | _      => none

end Fate

-- The loop of `_replay`. `fates` is a record of the pass that no step reads.
structure Pass (ω : Type) where
  kept    : List String
  down    : Finset Lane
  held    : Finset String
  tracked : Dict String ℕ
  skipped : List (String × String)
  report  : Report
  world   : ω
  fates   : List (String × Fate)

-- What a flush is given: how lines are read, what is outside, the bounds of the environment.
structure Settings (ω : Type) where
  codec       : Codec
  outside     : Outside ω
  busyAge     : Int
  maxAttempts : ℤ

namespace Pass

variable {ω : Type} (p : Pass ω) (settings : Settings ω)

def keep (line : String) (why : Kept) : Pass ω :=
  { p with kept := p.kept ++ [line], fates := p.fates ++ [(line, .kept why)] }

-- `_set_aside`.
def setAside (line reason : String) : Pass ω :=
  { p with skipped := p.skipped ++ [(reason, line)], fates := p.fates ++ [(line, .aside reason)] }

def reject (line item reason : String) : Pass ω :=
  let p := p.setAside line reason
  { p with report := { p.report with rejected := p.report.rejected ++ [(item, reason)] } }

def stop (lane : Lane) : Pass ω :=
  { p with down := insert lane p.down }

-- `_keep_behind`: whether the record is kept behind others, and what is held then.
def keepBehind (entry : Record) : Except Raised (Bool × Finset String) :=
  if entry.lane ∈ p.down then
    .ok (true, p.held)
  else do
    let shared ← entry.targets
    return if (p.held ∩ shared).Nonempty then (true, p.held ∪ shared) else (false, p.held)

-- `_hold` of a record that is kept because it is busy.
def hold (line : String) (entry : Record) (targets : Finset String) : Pass ω :=
  if targets.Nonempty then
    { p with held := p.held ∪ targets }.keep line .busy
  else
    (p.stop entry.lane).keep line .stopped

-- The handlers of `_replay`.
def caught (line : String) (entry : Record) : Failure → Pass ω
  | .busy message targets      =>
    let (now, world) := settings.outside.clock p.world
    let p := { p with world := world }
    if now - entry.args.queuedAt > settings.busyAge then
      p.reject line entry.item s!"{message} for over {settings.busyAge} seconds (AGENTIHOOKS_LEDGER_OUTBOX_BUSY_MAX_AGE_S)"
    else
      p.hold line entry targets
  | .raised .duplicate         =>
    { p with
      report := { p.report with already := p.report.already ++ [entry.item] }
      fates  := p.fates ++ [(line, .already entry.item)] }
  | .raised .unreachable       => (p.stop entry.lane).keep line .stopped
  | .raised (.refused message) => p.reject line entry.item message
  | .raised (.failed error)    =>
    let count := (p.tracked.lookup entry.sum).getD 0 + 1
    let p := { p with tracked := p.tracked.insert entry.sum count }
    if (count : ℤ) < settings.maxAttempts then
      (p.stop entry.lane).keep line .stopped
    else
      p.reject line entry.item s!"{error} on {count} replays (AGENTIHOOKS_INBOX_OUTBOX_MAX_ATTEMPTS)"

-- The body of the loop.
def step (p : Pass ω) (line : String) : Pass ω :=
  match settings.codec.parse line with
  | none =>
    let p := p.setAside line "corrupt"
    { p with report := { p.report with corrupt := p.report.corrupt + 1 } }
  | some entry =>
    match p.keepBehind entry with
    | .error e          => p.caught settings line entry (.raised e)
    | .ok (true, held)  => { p with held := held }.keep line .behind
    | .ok (false, _)    =>
      let (done, world) := settings.outside.apply entry p.world
      let p := { p with world := world }
      match done with
      | .error e => p.caught settings line entry e
      | .ok ()   =>
        { p with
          report := { p.report with applied := p.report.applied ++ [entry.item] }
          fates  := p.fates ++ [(line, .applied entry.item)] }

-- A flush without a store keeps the whole redis lane.
def start (home : Home) (connected : Bool) (world : ω) : Pass ω :=
  ⟨[], if connected then ∅ else {.redis}, ∅, home.attempts, home.skipped, ⟨[], [], [], 0, 0⟩, world, []⟩

def through (home : Home) (connected : Bool) (world : ω) (lines : List String) : Pass ω :=
  Run.run (step settings) (start home connected world) lines

-- `_save_attempts`.
def attempts : Dict String ℕ :=
  p.tracked.restrict fun sum => ∃ line ∈ p.kept, ∃ entry ∈ settings.codec.parse line, sum = entry.sum

-- `_keep` or `_clear`.
def home : Home where
  queue    := if p.kept = [] then none else some p.kept
  skipped  := p.skipped
  attempts := p.attempts settings

def result : Report :=
  if p.kept = [] then p.report else { p.report with left := p.kept.length }

end Pass

variable {ω : Type}

-- `flush`. Nothing happens where no line waits or another process has the lock.
def flush (settings : Settings ω) (home : Home) (connected free : Bool) (world : ω) : Report × Home × ω :=
  match home.queue with
  | none       => (⟨[], [], [], 0, 0⟩, home, world)
  | some lines =>
    if free then
      let p := Pass.through settings home connected world lines
      (p.result, p.home settings, p.world)
    else
      (⟨[], [], [], 0, 0⟩, home, world)

end Outbox
