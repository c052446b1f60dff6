import Mathlib.Algebra.Ring.Int.Defs
import Agentihooks.Library.Finmap
import Agentihooks.Library.Run
import Agentihooks.Objects.Rows

-- The slots of local workers on one machine. A claim watches the hash of claims, counts the workers and the pending
-- claims by the records and sessions it scans, and commits if nobody has written the hash since.

namespace LocalSlots

structure AgentRecord where
  name           : String
  lane           : String
  task           : String
  paneId         : String
  state          : AgentState
  runtimeBackend : Backend
  hive           : String
  deriving DecidableEq

def pendingMs : ℤ :=
  300000

-- The name of an agent, or of a task, in its swarm.
def member (slug name : String) : String :=
  slug ++ "/" ++ name

-- The records of all swarms, each with its task.
abbrev Records := Dict String (String × AgentRecord)

abbrev Claims := Dict String ℤ

-- `_scanned`, over the swarms in their order.
def scanned (swarms : List (String × List AgentRecord)) : Records :=
  swarms.foldl (fun records (slug, agents) => agents.foldl (fun records agent =>
    records.insert (member slug agent.name) (member slug agent.task, agent)) records) ∅

-- `live`, by the names of the sessions.
def live (sessions : List String) : Finset String :=
  (sessions.filter fun name => name ≠ "" ∧ ¬ "master@".toList <+: name.toList).toFinset

-- `_local_worker`
def LocalWorker (hiveId : String) (agent : AgentRecord) : Prop :=
  agent.runtimeBackend = .local ∧ (agent.hive = "" ∨ agent.hive = hiveId) ∧ agent.lane ≠ "master" ∧
    agent.state ≠ .finished ∧ agent.state ≠ .ended ∧ (agent.state ≠ .starting ∨ agent.paneId ≠ "")

instance (hiveId : String) (agent : AgentRecord) : Decidable (LocalWorker hiveId agent) :=
  inferInstanceAs (Decidable (_ ∧ _))

-- The names of the agents whose rows satisfy `p`.
def Records.names (records : Records) (p : String × AgentRecord → Prop) [DecidablePred p] : Finset String :=
  records.keys.biUnion fun key => ((records.lookup key).filter fun row => p row).elim ∅ fun row => {row.2.name}

-- `_workers`
def workers (hiveId : String) (records : Records) (live : Finset String) (own : Option String) : Finset String :=
  (records.names (fun row => LocalWorker hiveId row.2) ∪ live) \ records.names fun row => some row.1 = own

-- `_pending`
def Pending (record : Option (String × AgentRecord)) (own : Option String) (age : ℤ) : Prop :=
  age < pendingMs ∧ record.all fun row => some row.1 ≠ own ∧ row.2.state = .starting

instance (record : Option (String × AgentRecord)) (own : Option String) (age : ℤ) :
    Decidable (Pending record own age) :=
  inferInstanceAs (Decidable (_ ∧ _))

-- `named.endswith(f"/{agent}")`
def EndsIn (named agent : String) : Prop :=
  ("/" ++ agent).toList <:+ named.toList

instance (named agent : String) : Decidable (EndsIn named agent) :=
  inferInstanceAs (Decidable (_ <:+ _))

-- What a count goes by: the records, the live sessions, the own task and the time.
structure Scan where
  records : Records
  live    : Finset String
  own     : Option String
  now     : ℤ

-- What `_held` counts, and the claims that it does not.
structure Held where
  agents  : Finset String
  pending : Finset String
  settled : Finset String

def Held.count (held : Held) : ℤ :=
  held.agents.card + held.pending.card

namespace Scan

variable (hiveId : String) (scan : Scan)

def workers : Finset String :=
  LocalSlots.workers hiveId scan.records scan.live scan.own

-- A claim that counts on its own: no worker's name ends it, and it is pending.
def Waits (named : String) (claimed : ℤ) : Prop :=
  (¬ ∃ agent ∈ scan.workers hiveId, EndsIn named agent) ∧
    Pending (scan.records.lookup named) scan.own (scan.now - claimed)

instance (named : String) (claimed : ℤ) : Decidable (scan.Waits hiveId named claimed) :=
  inferInstanceAs (Decidable (_ ∧ _))

def pending (claims : Claims) : Finset String :=
  (claims.select fun named claimed => scan.Waits hiveId named claimed).keys

-- `_held`
def held (claims : Claims) : Held :=
  ⟨scan.workers hiveId, scan.pending hiveId claims, claims.keys \ scan.pending hiveId claims⟩

end Scan

-- A call of `claim`, with the placement pass whose reads it shares.
structure Request where
  slug     : String
  task     : String
  name     : String
  localMax : ℤ
  pass     : Option ℕ

def Request.own (request : Request) : String :=
  member request.slug request.task

structure PassCache where
  records : Option Records
  live    : Option (Finset String)

-- How far a call is: what it has read so far.
inductive Phase
  | called
  | watched (version : ℕ) (now : ℤ)
  | read (version : ℕ) (now : ℤ) (claims : Claims)
  | scanned (version : ℕ) (now : ℤ) (claims : Claims) (records : Records)
  | sighted (version : ℕ) (claims : Claims) (scan : Scan)

-- `version` counts the writes of the hash.
structure State where
  claims   : Claims
  version  : ℕ
  swarms   : List (String × List AgentRecord)
  sessions : List String
  now      : ℤ
  passes   : ℕ → PassCache
  threads  : ℕ → Option (Request × Phase)

def init (now : ℤ) : State where
  claims   := ∅
  version  := 0
  swarms   := []
  sessions := []
  now      := now
  passes   := fun _ => ⟨none, none⟩
  threads  := fun _ => none

namespace State

variable (hiveId : String) (s : State)

-- What a count would go by that is made now.
def scan (own : Option String) : Scan :=
  ⟨LocalSlots.scanned s.swarms, LocalSlots.live s.sessions, own, s.now⟩

def held (slug task : String) : ℤ :=
  ((s.scan (some (member slug task))).held hiveId s.claims).count

def running (slug task : String) : ℕ :=
  ((s.scan (some (member slug task))).workers hiveId).card

def occupancy : ℕ × ℤ :=
  (((s.scan none).workers hiveId).card, ((s.scan none).held hiveId s.claims).count)

def move (thread : ℕ) (phase : Option (Request × Phase)) : State :=
  { s with threads := Function.update s.threads thread phase }

-- `once` for the records and for the live sessions.
def recordsOnce : Option ℕ → Records × State
  | none      => (scanned s.swarms, s)
  | some pass =>
    let found := (s.passes pass).records.getD (scanned s.swarms)
    (found, { s with passes := Function.update s.passes pass { s.passes pass with records := some found } })

def liveOnce : Option ℕ → Finset String × State
  | none      => (LocalSlots.live s.sessions, s)
  | some pass =>
    let found := (s.passes pass).live.getD (LocalSlots.live s.sessions)
    (found, { s with passes := Function.update s.passes pass { s.passes pass with live := some found } })

-- The transaction of a claim: what is settled goes and the agent's claim comes.
def grant (request : Request) (scan : Scan) (settled : Finset String) : State :=
  { s with
    claims  := (s.claims.restrict (· ∉ settled)).insert (member request.slug request.name) scan.now
    version := s.version + 1 }

-- One step of the call on the thread, and what the call returns if it ends.
def advance (thread : ℕ) : State × Option ℤ :=
  match s.threads thread with
  | none => (s, none)
  | some (request, .called) => (s.move thread (some (request, .watched s.version s.now)), none)
  | some (request, .watched version now) => (s.move thread (some (request, .read version now s.claims)), none)
  | some (request, .read version now claims) =>
    let (records, s) := s.recordsOnce request.pass
    (s.move thread (some (request, .scanned version now claims records)), none)
  | some (request, .scanned version now claims records) =>
    let (live, s) := s.liveOnce request.pass
    (s.move thread (some (request, .sighted version claims ⟨records, live, some request.own, now⟩)), none)
  | some (request, .sighted version claims scan) =>
    let held := scan.held hiveId claims
    if request.localMax ≤ held.count then (s.move thread none, some held.count)
    else if s.version = version then ((s.grant request scan held.settled).move thread none, some held.count)
    else (s.move thread (some (request, .called)), none)

def release (slug name : String) : State :=
  if member slug name ∈ s.claims.keys then
    { s with claims := s.claims.erase (member slug name), version := s.version + 1 }
  else s

end State

inductive Event
  | call (thread : ℕ) (request : Request)
  | advance (thread : ℕ)
  | release (slug name : String)
  | write (swarms : List (String × List AgentRecord))
  | sessions (names : List String)
  | pass (ms : ℕ)

def step (hiveId : String) (s : State) : Event → State
  | .call thread request => if s.threads thread = none then s.move thread (some (request, .called)) else s
  | .advance thread      => (s.advance hiveId thread).1
  | .release slug name   => s.release slug name
  | .write swarms        => { s with swarms }
  | .sessions names      => { s with sessions := names }
  | .pass ms             => { s with now := s.now + ms }

end LocalSlots
