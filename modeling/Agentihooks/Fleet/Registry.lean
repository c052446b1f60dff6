import Mathlib.Logic.Function.Basic
import Agentihooks.Library.Finmap
import Agentihooks.Library.Run
import Agentihooks.Objects.Rows

-- The fleet session registry: one record per native session, under its scope and id, and for every seat the
-- execution that registered for it. Each write is one transaction that watches both tables.

namespace Fleet

inductive SessionState
  | live
  | suspect
  | closed
  deriving DecidableEq

structure Scope where
  backend   : String
  host      : String
  namespace_ : String
  deriving DecidableEq

structure Session where
  sessionId      : String
  scope          : Scope
  pid            : ℕ
  pidStart       : ℕ
  harness        : String
  name           : String
  conversationId : String
  executionId    : String
  generation     : ℕ
  seat           : String
  state          : SessionState
  heartbeatMs    : ℤ
  deriving DecidableEq

structure Seat where
  executionId : String
  generation  : ℕ
  session     : String
  deriving DecidableEq

def Session.identity (session : Session) : Session :=
  { session with state := .live, heartbeatMs := 0 }

-- `sessionKey` is the hash of a scope and a session id, `laneOf` the lane in an agent's name.
structure Site where
  slug         : String
  sessionKey   : Scope → String → String
  laneOf       : String → String
  staleAfterMs : ℤ

variable (site : Site)

def Session.key (session : Session) : String :=
  site.sessionKey session.scope session.sessionId

structure Registry where
  sessions : String → Option Session
  seats    : String → Option Seat

-- `found` is what authorizing the token gave, if it was a registration.
def granted (found : Option Registration) (executionId : String) (generation : ℕ) : Except SwarmError Registration :=
  match found with
  | none       => .error "forbidden_scope"
  | some grant =>
    if grant.swarmId ≠ site.slug ∨ (grant.executionId, grant.generation) ≠ (executionId, generation) then
      .error "forbidden_scope"
    else
      .ok grant

def master : String :=
  "master"

def seatAddress (slug seat : String) : String :=
  s!"{seat}@{slug}"

def seatOf (session : Session) (name : String) (found : Option Registration) : Except SwarmError String := do
  let grant ← granted site found session.executionId session.generation
  if session.seat ≠ "" ∧ session.seat ≠ grant.seatId then
    throw "forbidden_scope"
  if site.laneOf name = master ∧ grant.seatId ≠ seatAddress site.slug master then
    throw "forbidden_scope"
  return grant.seatId

-- `false` for a replay.
def replaceable (existing record : Session) : Except SwarmError Bool :=
  if existing.identity = record.identity then
    if existing.state = .closed then .error "session_ended" else .ok false
  else if record.generation < existing.generation then
    .error "stale_generation"
  else if existing.generation = record.generation ∧ (existing.state = .live ∨ existing.seat ≠ record.seat) then
    .error "registration_conflict"
  else
    .ok true

-- The record a registration asks for, under the registered name and the seat of its grant.
def recordOf (session : Session) (name seat : String) (now : ℤ) : Session :=
  { session with name := name, seat := seat, state := .live, heartbeatMs := now }

def heldBy (held : Seat) (record : Session) : Prop :=
  (held.generation, held.executionId) = (record.generation, record.executionId)

instance (held : Seat) (record : Session) : Decidable (heldBy held record) :=
  inferInstanceAs (Decidable (_ = _))

namespace Registry

variable (s : Registry)

def empty : Registry :=
  ⟨fun _ => none, fun _ => none⟩

-- The row of a record's seat; no seat has no row.
def seat? (seat : String) : Option Seat :=
  if seat = "" then none else s.seats seat

-- Someone else holds the seat whom the registration does not follow.
def Refuses (record : Session) : Prop :=
  ∃ held ∈ s.seat? record.seat, ¬heldBy held record ∧ record.generation ≤ held.generation

instance (record : Session) : Decidable (s.Refuses record) :=
  inferInstanceAs (Decidable (∃ held ∈ s.seat? record.seat, ¬heldBy held record ∧ record.generation ≤ held.generation))

def put (key : String) (record : Session) : Registry :=
  { s with sessions := Function.update s.sessions key (some record) }

def hold (seat : String) (row : Seat) : Registry :=
  { s with seats := Function.update s.seats seat (some row) }

def write (record : Session) : Registry :=
  let s := s.put (record.key site) record
  if record.seat = "" then s
  else s.hold record.seat ⟨record.executionId, record.generation, record.key site⟩

def enter (record : Session) : Except SwarmError Registry :=
  if s.Refuses record then .error "stale_generation" else .ok (s.write site record)

-- The transaction of a registration.
def admitted (record : Session) : Except SwarmError Registry :=
  match s.sessions (record.key site) with
  | none          => s.enter site record
  | some existing => do
    let replaces ← replaceable existing record
    if replaces then s.enter site record else return s

def register (session : Session) (name : String) (found : Option Registration) (now : ℤ) : Except SwarmError Registry := do
  let seat ← seatOf site session name found
  s.admitted site (recordOf session name seat now)

-- What one transaction changes of the records it looks at.
def update (change : String → Session → Option Session) : Registry :=
  { s with sessions := fun key => (s.sessions key).map fun record => (change key record).getD record }

-- `read` is the record an earlier look found under the key; the grant was checked against it.
def one (key : String) (read : Session) (found : Option Registration) (change : Session → Except SwarmError Session) :
    Except SwarmError Registry := do
  let _ ← granted site found read.executionId read.generation
  match s.sessions key with
  | none        => throw "unknown_session"
  | some record =>
    if (record.executionId, record.generation) ≠ (read.executionId, read.generation) then
      throw "stale_generation"
    let changed ← change record
    return s.update fun k _ => if k = key then some changed else none

def beat (now : ℤ) (record : Session) : Except SwarmError Session :=
  if record.state ≠ .live ∧ record.state ≠ .suspect then
    .error "session_ended"
  else
    match s.seats record.seat with
    | some held =>
      if heldBy held record then .ok { record with state := .live, heartbeatMs := now } else .error "stale_generation"
    | none => .ok { record with state := .live, heartbeatMs := now }

def heartbeat (scope : Scope) (sessionId : String) (read : Session) (found : Option Registration) (now : ℤ) :
    Except SwarmError Registry :=
  s.one site (site.sessionKey scope sessionId) read found (s.beat now)

def close (scope : Scope) (sessionId : String) (read : Session) (found : Option Registration) : Except SwarmError Registry :=
  s.one site (site.sessionKey scope sessionId) read found fun record => .ok { record with state := .closed }

-- A process table gives the start of each process; an empty one judges nothing.
def observe (scope : Scope) (table : Dict ℕ ℕ) : Registry :=
  if table = ∅ then s
  else s.update fun _ record =>
    if record.scope ≠ scope ∨ record.state ≠ .live then none
    else if table.lookup record.pid = some record.pidStart then none
    else some { record with state := .suspect }

def sweep (now : ℤ) : Registry :=
  s.update fun _ record =>
    if record.state = .live ∧ record.heartbeatMs < now - site.staleAfterMs then some { record with state := .suspect }
    else none

end Registry

-- What the clock, the name registry, an earlier read and the launch authority give is part of a call.
inductive Call
  | register (session : Session) (name : String) (found : Option Registration) (now : ℤ)
  | heartbeat (scope : Scope) (sessionId : String) (read : Session) (found : Option Registration) (now : ℤ)
  | close (scope : Scope) (sessionId : String) (read : Session) (found : Option Registration)
  | observe (scope : Scope) (table : Dict ℕ ℕ)
  | sweep (now : ℤ)

def Registry.call (s : Registry) : Call → Except SwarmError Registry
  | .register session name found now            => s.register site session name found now
  | .heartbeat scope sessionId read found now   => s.heartbeat site scope sessionId read found now
  | .close scope sessionId read found           => s.close site scope sessionId read found
  | .observe scope table                        => .ok (s.observe scope table)
  | .sweep now                                  => .ok (s.sweep site now)

def step (s : Registry) (call : Call) : Registry :=
  match s.call site call with
  | .ok after => after
  | .error _  => s

end Fleet
