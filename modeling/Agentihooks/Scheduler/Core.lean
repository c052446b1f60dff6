import Mathlib.Data.Int.Notation
import Mathlib.Logic.Function.Basic
import Agentihooks.Library.KeyTable
import Agentihooks.Library.Run

-- The schedules of one machine: a document that any number of schedulers and clients change, one change at a time, and
-- the passes that claim what is due and deliver it under a lease in the same document. Reads, deliveries and changes of
-- a pass are separate steps, and a pass may stop at any of them. Every identifier that is drawn is a new one.

namespace Scheduler

abbrev Time := ℤ

inductive Kind
  | timer
  | stopwatch
  | interval
  | cron
  deriving DecidableEq

def Kind.once : Kind → Bool
  | timer | stopwatch => true
  | interval | cron   => false

inductive Status
  | ready
  | active
  | pending
  | fired
  | stopped
  | cancelled
  | stale
  deriving DecidableEq

inductive Signal
  | timeout
  | limitReached
  deriving DecidableEq

structure Connection where
  id     : ℕ
  signal : Signal
  deriving DecidableEq

structure Pending where
  id          : ℕ
  scheduledAt : Time
  firedAt     : Time
  slots       : List Connection
  delivered   : List ℕ
  deriving DecidableEq

-- An interval is positive.
structure Schedule where
  kind       : Kind
  owner      : String
  due        : Time
  delay      : Option Time
  expression : String
  positive   : kind = .interval → ∃ d, delay = some d ∧ 0 < d
  deriving DecidableEq

structure Entry extends Schedule where
  state     : Status
  startedAt : Option Time
  stoppedAt : Option Time
  signal    : Signal
  slots     : List Connection
  pending   : Option Pending
  deriving DecidableEq

-- `Scheduler._new`
def Schedule.new (schedule : Schedule) : Entry where
  toSchedule := schedule
  state      := .ready
  startedAt  := none
  stoppedAt  := none
  signal     := if schedule.kind = .stopwatch then .limitReached else .timeout
  slots      := []
  pending    := none

-- The time of the next occurrence of an expression.
abbrev NextDue :=
  String → Time → Time

namespace Entry

def start (nextDue : NextDue) (now : Time) (e : Entry) : Option Entry :=
  if e.state ≠ .ready then none
  else some { e with
    startedAt := some now
    state     := .active
    due       := if e.kind = .cron then nextDue e.expression now else e.delay.elim e.due (now + ·)
  }

def stop (now : Time) (e : Entry) : Entry :=
  { e with state := .stopped, stoppedAt := some now, pending := none }

def cancel (e : Entry) : Entry :=
  { e with state := .cancelled, pending := none }

-- `Signal.connect`
def connect (connection : Connection) (e : Entry) : Entry :=
  { e with slots := e.slots ++ [connection] }

-- `Signal.disconnect`
def disconnect (connection : ℕ) (e : Entry) : Entry :=
  { e with slots := e.slots.filter (·.id ≠ connection) }

-- The occurrence that is claimed of an entry that is due.
def claimed (id : ℕ) (now : Time) (e : Entry) : Pending :=
  ⟨id, e.due, now, e.slots.filter (·.signal = e.signal), []⟩

def claim (id : ℕ) (now : Time) (e : Entry) : Entry :=
  { e with state := .pending, pending := some (e.claimed id now) }

def acknowledge (connection : ℕ) (e : Entry) : Entry :=
  if e.state = .pending then
    { e with pending := e.pending.map fun p => { p with delivered := p.delivered ++ [connection] } }
  else e

-- `_finish`
def finish (nextDue : NextDue) (now : Time) (e : Entry) : Entry :=
  if e.state ≠ .pending then e
  else match e.kind with
    | .cron     => { e with state := .active, due := nextDue e.expression now, pending := none }
    | .interval => { e with state := .active, due := e.delay.elim e.due (now + ·), pending := none }
    | _         => { e with state := .fired, pending := none }

-- `_abandoned`
def abandoned (now : Time) (e : Entry) : Bool :=
  e.owner = "process" && e.state ∈ [.ready, .fired, .cancelled, .stopped, .stale] && 3600 ≤ now - e.due

end Entry

structure Lease where
  token   : ℕ
  expires : Time
  deriving DecidableEq

structure Document where
  entries : KeyTable ℕ Entry
  retired : List ℕ
  lease   : Option Lease

namespace Document

def holds (d : Document) (token : ℕ) (now : Time) : Bool :=
  d.lease.any fun held => held.token = token && now < held.expires

-- `_has_work`
def hasWork (d : Document) (now : Time) : Bool :=
  d.retired ≠ [] || d.entries.toList.any fun x => x.2.state = .pending || x.2.state = .active && x.2.due ≤ now

def set (d : Document) (id : ℕ) (e : Entry) : Document :=
  { d with entries := d.entries.insert id e }

def hold (d : Document) (token : ℕ) (now : Time) : Document :=
  { d with lease := some ⟨token, now + 90⟩ }

-- `release`: the lease that is dropped may have expired.
def release (d : Document) (token : ℕ) : Document :=
  { d with lease := d.lease.filter (·.token ≠ token) }

-- `_reap`
def reap (now : Time) (d : Document) : Document where
  entries := d.entries.filter fun id e => id ∉ d.retired && !e.abandoned now
  retired := []
  lease   := d.lease

end Document

-- The delivery of one occurrence, as a pass has read it: what it has been through and what is still to be delivered.
structure Job where
  entry   : ℕ
  pending : Pending
  done    : List Connection
  rest    : List Connection
  failed  : Bool
  todo    : List ℕ
  deriving DecidableEq

-- Where a pass of `run_due` is, with the entries that it is still to deliver.
inductive Position
  | looked
  | acquired
  | claimed
  | listing (todo : List ℕ)
  | marking (entry : ℕ) (todo : List ℕ)
  | slot (job : Job)
  | checked (job : Job)
  | verified (job : Job)
  | delivered (job : Job)
  | leaving
  deriving DecidableEq

structure Pass where
  now      : Time
  position : Position
  deriving DecidableEq

structure Claim where
  entry   : ℕ
  kind    : Kind
  pending : Pending
  deriving DecidableEq

-- With the document, the passes and the identifiers that are drawn, what has come about: the occurrences that were
-- claimed and the ones that were finished, the deliveries that were made, the passes that have held the lease and those
-- that have written under it.
structure World where
  document   : Document
  passes     : ℕ → Option Pass
  next       : ℕ
  claims     : List Claim
  finished   : List (ℕ × Pending)
  deliveries : List (ℕ × ℕ)
  holders    : List ℕ
  writes     : List ℕ

def World.start : World where
  document   := ⟨∅, [], none⟩
  passes _   := none
  next       := 0
  claims     := []
  finished   := []
  deliveries := []
  holders    := []
  writes     := []

inductive Event
  | create (schedule : Schedule)
  | start (entry : ℕ) (now : Time)
  | stop (entry : ℕ) (now : Time)
  | cancel (entry : ℕ)
  -- The second change of `retire`.
  | retire (entry : ℕ)
  | connect (entry : ℕ) (signal : Signal)
  | disconnect (entry connection : ℕ)
  | look (now : Time)
  -- The next step of a pass, at a clock. A delivery may fail.
  | proceed (token : ℕ) (clock : Time) (ok : Bool)
  | renew (token : ℕ) (clock : Time)
  | crash (token : ℕ)
  deriving DecidableEq

namespace World

-- `Scheduler.update`. Nothing changes where the entry is missing or the change is refused.
def update (w : World) (id : ℕ) (change : Entry → Option Entry) : World :=
  match (w.document.entries.lookup id).bind change with
  | none   => w
  | some e => { w with document := w.document.set id e }

def move (w : World) (token : ℕ) (now : Time) (position : Position) : World :=
  { w with passes := Function.update w.passes token (some ⟨now, position⟩) }

-- A change under the lease, which the pass loses where it does not hold it any more.
def under (w : World) (token : ℕ) (now clock : Time) (change : World → World) : World :=
  if w.document.holds token clock then { change w with writes := w.writes ++ [token] } else w.move token now .leaving

-- The claim of one entry, if it is due.
def claimEntry (now : Time) (w : World) (id : ℕ) : World :=
  match w.document.entries.lookup id with
  | none   => w
  | some e =>
    if e.state = .active ∧ e.due ≤ now then
      { w with
        document := w.document.set id (e.claim w.next now)
        next     := w.next + 1
        claims   := w.claims ++ [⟨id, e.kind, e.claimed w.next now⟩]
      }
    else w

-- `_claim`
def claim (w : World) (now : Time) : World :=
  w.document.entries.keys.foldl (claimEntry now) w

def advance (job : Job) (failed : Bool) : Job :=
  match job.rest with
  | []        => job
  | c :: rest => { job with done := job.done ++ [c], rest := rest, failed := job.failed || failed }

-- The next step of a pass at its position. What raises leaves by `finally`.
def proceed (nextDue : NextDue) (w : World) (token : ℕ) (clock : Time) (ok : Bool) (now : Time) : Position → World
  | .looked =>
    if w.document.lease.any fun held => clock < held.expires then { w with passes := Function.update w.passes token none }
    else { w.move token now .acquired with document := w.document.hold token clock, holders := w.holders ++ [token] }
  | .acquired => w.under token now clock fun w => (w.claim now).move token now .claimed
  | .claimed =>
    w.move token now (.listing ((w.document.entries.toList.filter fun x => x.2.state = .pending).map Prod.fst))
  | .listing [] => w.under token now clock fun w => { w.move token now .leaving with document := w.document.reap now }
  | .listing (id :: todo) =>
    match w.document.entries.lookup id with
    | none   => w.move token now .leaving
    | some e =>
      match e.pending with
      | none   => w.move token now (.marking id todo)
      | some p => w.move token now (.slot ⟨id, p, [], p.slots, false, todo⟩)
  | .marking id todo =>
    match w.document.entries.lookup id with
    | none   => w.move token now .leaving
    | some e => w.under token now clock fun w =>
      { w.move token now (.listing todo) with document := w.document.set id { e with state := .stale } }
  | .slot job =>
    match job.rest with
    | [] =>
      if job.failed then w.move token now (.listing job.todo)
      else match w.document.entries.lookup job.entry with
      | none   => w.move token now .leaving
      | some e => w.under token now clock fun w =>
        { w.move token now (.listing job.todo) with
          document := w.document.set job.entry (e.finish nextDue now)
          finished := w.finished ++ (e.pending.map fun p => (job.entry, p)).toList
        }
    | _ :: _ =>
      match w.document.entries.lookup job.entry with
      | none   => w.move token now .leaving
      | some e => w.move token now (if e.state = .pending then .checked job else .listing job.todo)
  | .checked job =>
    if w.document.holds token clock then
      w.move token now (if job.rest.head?.any (·.id ∈ job.pending.delivered) then .slot (advance job false) else .verified job)
    else w.move token now .leaving
  | .verified job =>
    if ok then
      { w.move token now (.delivered job) with
        deliveries := w.deliveries ++ (job.rest.head?.map fun c => (job.pending.id, c.id)).toList }
    else w.move token now (.slot (advance job true))
  | .delivered job =>
    match w.document.entries.lookup job.entry, job.rest.head? with
    | some e, some c => w.under token now clock fun w =>
      { w.move token now (.slot (advance job false)) with document := w.document.set job.entry (e.acknowledge c.id) }
    | _,      _      => w.move token now .leaving
  | .leaving => { w with document := w.document.release token, passes := Function.update w.passes token none }

end World

open World in
def step (nextDue : NextDue) (w : World) : Event → World
  | .create schedule   => { w with document := w.document.set w.next schedule.new, next := w.next + 1 }
  | .start id now      => w.update id (·.start nextDue now)
  | .stop id now       => w.update id fun e => some (e.stop now)
  | .cancel id         => w.update id fun e => some e.cancel
  | .retire id         => { w with document := { w.document with retired := id :: w.document.retired } }
  | .connect id signal =>
    update { w with next := w.next + 1 } id fun e => some (e.connect ⟨w.next, signal⟩)
  | .disconnect id c   => w.update id fun e => some (e.disconnect c)
  | .look now          =>
    if w.document.hasWork now then { w.move w.next now .looked with next := w.next + 1 } else w
  | .proceed token clock ok =>
    match w.passes token with
    | none      => w
    | some pass => w.proceed nextDue token clock ok pass.now pass.position
  | .renew token clock =>
    if (w.passes token).isSome && w.document.holds token clock then { w with document := w.document.hold token clock } else w
  | .crash token       => { w with passes := Function.update w.passes token none }

end Scheduler
