import Mathlib.Data.Int.Notation
import Mathlib.Logic.Function.Basic
import Agentihooks.Library.Run

-- The lives of one task: the claim on it, the lives that were started and the one that is pending. Calls are made of
-- single commands, which those of other processes come between; a transaction on watched keys is one step.

namespace ClaimLives

-- The fields of a task. `counted` are the executions that spend no further life.
structure Store where
  claim      : Option String
  generation : ℕ
  refunded   : Option ℕ
  lives      : Option ℤ
  pending    : Option String
  counted    : List String
  deriving DecidableEq

namespace Store

def waiting (s : Store) : Option String :=
  s.pending.filter (· ≠ "")

-- What `claims` answers, with the number of starts in the launch history.
def claims (s : Store) (started : ℕ) : ℤ :=
  s.lives.getD started

-- `hsetnx` into the counted executions.
def settle (s : Store) (execution : String) : Store :=
  { s with counted := if execution ∈ s.counted then s.counted else execution :: s.counted }

def dropPending (s : Store) : Store :=
  { s with pending := none }

def take (s : Store) (agent : String) : Store :=
  { s with claim := some agent, generation := s.generation + 1 }

-- `refund_held_claim`, where `held` is what the authority answers. Nothing changes where it is `none`.
def refund (s : Store) (agent : String) (generation : ℕ) (held : Bool) (started : ℕ) : Option Store :=
  if s.claim ≠ some agent ∨ s.generation ≠ generation ∨ s.refunded = some generation ∨ held then none else
  match s.waiting with
  | some execution => some { (s.settle execution).dropPending with refunded := some generation }
  | none           =>
    if s.claims started ≤ 0 then none
    else some { s with refunded := some generation, lives := some (s.claims started - 1) }

end Store

inductive Command
  | dropPending
  | seed (started : ℕ)
  | count
  | readPending
  | settle (execution : String)
  | zero
  | pend (execution : String)
  deriving DecidableEq

-- A count comes with what the launch history has when the life is counted.
inductive Call
  | countClaim (started : ℕ)
  | pendLife (execution : String)
  | cancelPendingLife
  | resetClaims

def Call.commands : Call → List Command
  | countClaim started => [.dropPending, .seed started, .count]
  | pendLife execution => [.pend execution]
  | cancelPendingLife  => [.readPending]
  | resetClaims        => [.readPending, .zero]

-- What happened to the task, the last thing first.
inductive Entry
  | claimed (agent : String) (generation : ℕ)
  | released
  | counted
  | refunded (agent : String) (generation : ℕ)
  | reset
  deriving DecidableEq

structure System where
  store     : Store
  processes : ℕ → List Command
  log       : List Entry

inductive Event
  | call (process : ℕ) (c : Call)
  | advance (process : ℕ)
  | claim (agent : String) (held : Bool)
  | release (agent : String) (held : Bool)
  | expire
  | refund (agent : String) (generation : ℕ) (held : Bool) (started : ℕ)

def Command.run (s : Store) : Command → Store
  | dropPending      => s.dropPending
  | seed started     => { s with lives := some (s.lives.getD started) }
  | count            => { s with lives := some (s.lives.getD 0 + 1) }
  | readPending      => s
  | settle execution => s.settle execution
  | zero             => { s with lives := some 0 }
  | pend execution   => { s with pending := some execution }

-- The commands that follow from what a command read.
def Command.follow (s : Store) : Command → List Command
  | readPending =>
    match s.waiting with
    | some execution => [.settle execution, .dropPending]
    | none           => []
  | _ => []

def Command.entries : Command → List Entry
  | count => [.counted]
  | zero  => [.reset]
  | _     => []

namespace System

def start (generation : ℕ) : System :=
  ⟨⟨none, generation, none, none, none, []⟩, fun _ => [], []⟩

def step (s : System) : Event → System
  | .call process c =>
    if s.processes process = [] then { s with processes := Function.update s.processes process c.commands } else s
  | .advance process =>
    match s.processes process with
    | []        => s
    | c :: rest => ⟨c.run s.store, Function.update s.processes process (c.follow s.store ++ rest), c.entries ++ s.log⟩
  | .claim agent held =>
    if held ∨ s.store.claim ≠ none then s
    else { s with store := s.store.take agent, log := .claimed agent (s.store.generation + 1) :: s.log }
  | .release agent held =>
    if held ∨ s.store.claim ≠ some agent then s
    else { s with store := { s.store with claim := none }, log := .released :: s.log }
  | .expire => { s with store := { s.store with claim := none }, log := .released :: s.log }
  | .refund agent generation held started =>
    match s.store.refund agent generation held started with
    | none       => s
    | some store => { s with store := store, log := .refunded agent generation :: s.log }

def run (generation : ℕ) (es : List Event) : System :=
  Run.run step (start generation) es

end System
end ClaimLives
