import Agentihooks.Library.Run
import Agentihooks.Execution.Registry

-- The registry of one swarm as its callers see it: every call is an atomic change of the document, or
-- two of them with something read in between.

namespace Execution

open Program Fencing Fencing.Change

-- `uuid4`: identifiers that do not repeat.
structure Supply where
  hex   : ℕ → String
  fresh : Function.Injective hex

def Supply.unary : Supply where
  hex n := String.ofList (.replicate n '0')
  fresh := fun m n h => by simpa using congrArg (List.length ∘ String.toList) h

-- An accepted start, as a record of the run that no call reads.
structure Start where
  executionId : String
  seat        : String
  generation  : ℕ
  name        : String
  deriving DecidableEq

-- `ending` and `dropping` are the calls of `end_orphan` and `drop_agent` that have made their change and
-- not returned. `settled` records the executions that were seen finished, or whose end was returned.
structure System where
  document : Document
  drawn    : ℕ
  starts   : List Start
  ending   : List AgentRecord
  dropping : List (String × Finset String)
  settled  : Finset String

def System.empty : System :=
  ⟨.empty, 0, [], [], [], ∅⟩

inductive Call
  | start (names : Naming) (slug : String) (publication : Bool) (agent : AgentRecord)
      (previousExecutionId : String)
  | update (names : Naming) (slug : String) (agent : AgentRecord)
  | setPane (executionId paneId : String) (listed : Finset String)
  | archive (listed : Finset String)
  | endOrphan (agent : AgentRecord) (now : Int) (listed : Finset String)
  | confirmOrphan (agent : AgentRecord) (listed : Finset String)
  | dropAgent (name : String) (live : Finset String) (expected : Option String)
  | confirmDrop (name : String) (live : Finset String)

-- A call under the controller epoch in scope, if any, with the clock its lease check reads.
structure Event where
  epoch : Option Int
  now   : Int
  call  : Call

-- The executions recorded in `state` among those that are current.
def inState (d : Document) (state : AgentState) : Finset String :=
  (Finmap.build (d .executions).keys fun key =>
    ((d .executions).lookup key).filter (·.state = state)).keys

namespace System

variable (uuid4 : Supply)

def commit {α : Type} (s : System) (e : Event) (change : Change α) : Option (α × Document) :=
  ((Lease.fenced (e.epoch.map .epoch) e.now change).exec History.inline s.document).toOption

def start (s : System) (e : Event) (agent : AgentRecord) (previousExecutionId : String) : System :=
  let change := do
    hydrateArchive
    admitAgent agent previousExecutionId (uuid4.hex s.drawn) e.epoch
  match s.commit e change with
  | none                   => { s with drawn := s.drawn + 1 }
  | some ((current, _), d) => { s with
    document := d
    drawn    := s.drawn + 1
    starts   := s.starts ++ [⟨current.executionId, current.seat, current.generation, current.name⟩] }

-- The document after a change whose result the caller only returns.
def change {α : Type} (s : System) (e : Event) (change : Change α) : System :=
  match s.commit e change with
  | none        => s
  | some (_, d) => { s with document := d }

def act (s : System) (e : Event) : System :=
  match e.call with
  | .start names slug publication agent previousExecutionId =>
    match prepare names slug publication agent with
    | .error _  => s
    | .ok agent => s.start uuid4 e agent previousExecutionId
  | .update names slug agent =>
    match validate names slug agent with
    | .error _ => s
    | .ok _    => s.change e (Execution.update agent)
  | .setPane executionId paneId listed => s.change e do
      hydrateArchive
      Execution.setPane executionId paneId listed
  | .archive listed => s.change e (Execution.archive listed)
  | .endOrphan agent now listed =>
    match s.commit e (Execution.endOrphan agent now listed) with
    | some (true, d) => { s with document := d, ending := agent :: s.ending }
    | _              => s
  | .confirmOrphan agent listed =>
    if agent ∉ s.ending then
      s
    else
      let s := { s with ending := s.ending.erase agent }
      if agent.name ∈ listed then
        s.change e (undo agent)
      else
        { s with settled := s.settled ∪ ({agent.executionId} ∩ inState s.document .ended) }
  | .dropAgent name live expected =>
    match s.commit e (Execution.dropAgent name live expected) with
    | some (true, d) => { s with document := d, dropping := (name, live) :: s.dropping }
    | _              => s
  | .confirmDrop name live =>
    if (name, live) ∉ s.dropping then
      s
    else
      let s := { s with dropping := s.dropping.erase (name, live) }
      if occupants (s.document .executions) (·.name = name) = live then
        { s with settled := s.settled ∪ (live ∩ inState s.document .ended) }
      else
        s

def step (s : System) (e : Event) : System :=
  let s := s.act uuid4 e
  { s with settled := s.settled ∪ inState s.document .finished }

def run (es : List Event) : System :=
  Run.run (step uuid4) .empty es

end System
end Execution
