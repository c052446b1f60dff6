import Agentihooks.Library.Run
import Agentihooks.Execution.Registry

-- The task authority: one claim per task, and the journal of everything that was done to it.

namespace Authority

open Program Fencing Fencing.Change Execution

namespace Refusal

def stale : SwarmError :=
  "stale_generation"

def forbidden : SwarmError :=
  "forbidden_scope"

def conflict : SwarmError :=
  "journal_conflict"

def held : SwarmError :=
  "claim_held"

def unavailable : SwarmError :=
  "dependency_unavailable"

def invalid : SwarmError :=
  "invalid_request"

def expired : SwarmError :=
  "worker credential has expired"

def outOfOrder : SwarmError :=
  "out_of_order"

def operation : SwarmError :=
  "operation_conflict"

-- The `KeyError` of a grant that is not in the document.
def grant : SwarmError :=
  "grant_id"

end Refusal

structure RenewalFence where
  key      : String
  sequence : Int
  digest   : String
  deriving DecidableEq

-- What an operation reads outside the document. `scope` is what the caller was authorized for before its
-- change, `authorized` the answer for its token within the change, and `projected` the holder of the
-- legacy claim. The clock is read once by the action, once more by a renewal, and once by the commit.
structure Request where
  slug        : String
  scope       : Registration
  authorized  : Except SwarmError Registration
  required    : Except SwarmError Unit
  projected   : Option String
  timestamp   : String → Except SwarmError Int
  startedAt   : Int
  renewedAt   : Int
  committedAt : Int

-- `_reconstruct`: the claim a journal leads to, if every entry goes on from the one before.
def replayEntry (recovered : Option TaskClaim) (entry : JournalEntry) :
    Except SwarmError (Option TaskClaim) :=
  let expected := recovered.elim 0 (·.generation) + if entry.event = .admitted then 1 else 0
  if entry.claim.generation = expected then .ok (some entry.claim) else .error Refusal.conflict

def reconstruct (rows : List JournalEntry) : Except SwarmError (Option TaskClaim) :=
  rows.foldlM replayEntry none

-- `_execution`.
def execution (executionId : String) : Change AgentRecord := do
  let row ← executionRow executionId
  match row with
  | none     => refuse unknownIdentity
  | some row => return row

-- `_scope`: the scope counts while its execution occupies the seat it was granted for.
def scopeOf (slug : String) (authorized : Except SwarmError Registration) : Change Registration := do
  let scope ← attempt authorized
  ensure (scope.swarmId = slug) Refusal.forbidden
  let agent ← execution scope.executionId
  ensure (agent.task = scope.taskId ∧ agent.seat = scope.seatId ∧ agent.generation = scope.generation)
    Refusal.forbidden
  let executions ← scan Section.executions
  let current := occupant executions scope.seatId
  ensure (current.any fun row =>
    row.executionId = scope.executionId ∧ row.generation = scope.generation) Refusal.stale
  return scope

def Identified (scope : Registration) (generation : Int) (claim : TaskClaim) : Prop :=
  claim.generation = generation ∧ claim.executionId = scope.executionId ∧
    claim.executionGeneration = scope.generation

instance (scope : Registration) (generation : Int) (claim : TaskClaim) :
    Decidable (Identified scope generation claim) :=
  inferInstanceAs (Decidable (_ ∧ _ ∧ _))

-- `_identity`, with the claim it found.
def identity (scope : Registration) (generation : Int) (previous : Option TaskClaim) :
    Except SwarmError TaskClaim :=
  if generation < 1 then
    .error Refusal.invalid
  else
    match previous with
    | none       => .error Refusal.stale
    | some claim => if Identified scope generation claim then .ok claim else .error Refusal.stale

-- `_holder`, with the claim it found.
def holder (scope : Registration) (generation : Int) (previous : Option TaskClaim) (now : Int) :
    Except SwarmError TaskClaim :=
  match identity scope generation previous with
  | .error e  => .error e
  | .ok claim =>
    if claim.state = .active ∧ now < claim.leaseDeadlineMs then .ok claim else .error Refusal.stale

-- The row a fenced renewal leaves, unless it comes out of order.
def advance (seen : Option Fence) (fence : RenewalFence) : Except SwarmError Fence :=
  match seen with
  | none      => .ok ⟨fence.sequence, fence.digest⟩
  | some seen =>
    if fence.sequence < seen.sequence ∨ seen.sequence = fence.sequence ∧ seen.digest ≠ fence.digest then
      .error Refusal.outOfOrder
    else
      .ok ⟨fence.sequence, fence.digest⟩

-- What a commit appends to the journal; `none` is a replay, which appends nothing.
def appended (current : TaskClaim) (previous : Option TaskClaim) (event : Option JournalEvent) :
    List JournalEntry :=
  match event with
  | none           => []
  | some .admitted =>
    ((previous.filter (·.state = .active)).toList.map fun claim =>
      ⟨.fenced, { claim with state := .fenced }⟩) ++ [⟨.admitted, current⟩]
  | some event     => [⟨event, current⟩]

-- `_commit`.
def commit (current : TaskClaim) (previous : Option TaskClaim) (event : Option JournalEvent)
    (workerDeadlineMs : Option Int) (fence : Option RenewalFence) (now : Int) : Change Unit := do
  ensure (workerDeadlineMs.all (now < ·)) Refusal.expired
  ensure (event = some .admitted → now < current.leaseDeadlineMs) Refusal.stale
  ensure (event ≠ none ∧ event ≠ some .admitted →
    previous.any fun claim => claim.state = .active ∧ now < claim.leaseDeadlineMs) Refusal.stale
  match fence with
  | none       => pure ()
  | some fence => do
    let seen ← read Section.fences fence.key
    let next ← attempt (advance seen fence)
    write .fences fence.key next
  write .claims current.taskId current
  let journal ← read Section.journals current.taskId
  write .journals current.taskId (journal.getD [] ++ appended current previous event)

-- The second half of `_write.change`: what the action made of the claim is committed, unless it left
-- the claim as it was.
def journalClaim (request : Request) (event : JournalEvent) (fence : Option RenewalFence)
    (previous : Option TaskClaim) (current : TaskClaim) : Change (TaskClaim × Bool) :=
  if previous = some current ∧ fence = none then
    return (current, false)
  else do
    let audit ← read Section.grants request.scope.grantId
    match audit with
    | none       => refuse Refusal.grant
    | some audit =>
      let deadline ← attempt (request.timestamp audit.expiresAt)
      commit current previous (some event) (some deadline) fence request.committedAt
      return (current, true)

-- `_write.change`: what the caller is returned, and whether anything was committed.
def writeClaim (request : Request) (event : JournalEvent)
    (action : Option TaskClaim → Change TaskClaim) (fence : Option RenewalFence) :
    Change (TaskClaim × Bool) := do
  attempt request.required
  let found ← scopeOf request.slug request.authorized
  ensure (found = request.scope) Refusal.forbidden
  let previous ← read Section.claims request.scope.taskId
  match previous with
  | none       => pure ()
  | some claim => do
    let journal ← read Section.journals request.scope.taskId
    ensure ((journal.getD []).getLast?.map (·.claim) = some claim) Refusal.conflict
  let current ← action previous
  journalClaim request event fence previous current

-- `admit.create`.
def create (request : Request) (leaseMs : Int) (previous : Option TaskClaim) : Change TaskClaim := do
  match previous.filter fun claim => claim.state = .active ∧ request.startedAt < claim.leaseDeadlineMs with
  | some claim =>
    if claim.executionId = request.scope.executionId then return claim else refuse Refusal.held
  | none =>
    let journal ← read Section.journals request.scope.taskId
    ensure (journal.getD [] = [] ∨ previous.isSome) Refusal.unavailable
    ensure (∀ entry ∈ journal.getD [], entry.claim.executionId ≠ request.scope.executionId) Refusal.stale
    let agent ← execution request.scope.executionId
    ensure (previous.isSome ∨ request.projected.all (· = agent.name)) Refusal.held
    ensure (previous.all (·.state ≠ .completed)) Refusal.held
    return {
      taskId              := request.scope.taskId
      holder              := agent.name
      generation          := previous.elim 1 (·.generation + 1)
      executionId         := request.scope.executionId
      executionGeneration := request.scope.generation
      leaseDeadlineMs     := request.startedAt + leaseMs
      state               := .active
      result              := Json.empty }

def admitClaim (request : Request) (leaseMs : Int) : Change (TaskClaim × Bool) := do
  ensure (0 < leaseMs) Refusal.invalid
  writeClaim request .admitted (create request leaseMs) none

def renew (request : Request) (generation leaseMs : Int) (fence : Option RenewalFence) :
    Change (TaskClaim × Bool) := do
  ensure (0 < leaseMs) Refusal.invalid
  writeClaim request .renewed (fun previous => do
    let claim ← attempt (holder request.scope generation previous request.startedAt)
    return { claim with leaseDeadlineMs := request.renewedAt + leaseMs }) fence

def release (request : Request) (generation : Int) : Change (TaskClaim × Bool) :=
  writeClaim request .released (fun previous => do
    let claim ← attempt (holder request.scope generation previous request.startedAt)
    return { claim with state := .released }) none

def complete (request : Request) (generation : Int) (result : Json) : Change (TaskClaim × Bool) :=
  writeClaim request .completed (fun previous =>
    if previous.any (·.state = .completed) then do
      let claim ← attempt (identity request.scope generation previous)
      ensure (claim.result = result) Refusal.operation
      return claim
    else do
      let claim ← attempt (holder request.scope generation previous request.startedAt)
      return { claim with state := .completed, result := result }) none

-- `replay.change`.
def replay (request : Request) (task : String) : Change (Option TaskClaim) := do
  attempt request.required
  let journal ← read Section.journals task
  let recovered ← attempt (reconstruct (journal.getD []))
  let current ← read Section.claims task
  ensure (current.isSome → current = recovered) Refusal.conflict
  match recovered with
  | none       => return none
  | some claim =>
    commit claim none none none none request.committedAt
    return some claim

end Authority

-- The authority of one swarm: every operation is one change of the document, made under the lease of its
-- controller. Any other writer of the document leaves claims, journals and fences alone.

namespace Authority

open Program Fencing Execution

inductive Operation
  | admitClaim (request : Request) (leaseMs : Int)
  | renew (request : Request) (generation leaseMs : Int) (fence : Option RenewalFence)
  | release (request : Request) (generation : Int)
  | complete (request : Request) (generation : Int) (result : Json)
  | replay (request : Request) (task : String)

-- The claim an operation returns, if any.
def Operation.change : Operation → Change (Option TaskClaim)
  | admitClaim request leaseMs             =>
    (some ∘ Prod.fst) <$> Authority.admitClaim request leaseMs
  | renew request generation leaseMs fence =>
    (some ∘ Prod.fst) <$> Authority.renew request generation leaseMs fence
  | release request generation             => (some ∘ Prod.fst) <$> Authority.release request generation
  | complete request generation result     =>
    (some ∘ Prod.fst) <$> Authority.complete request generation result
  | replay request task                    => Authority.replay request task

inductive Event
  | call (operation : Operation) (history : History) (held : Option Held) (now : Int)
  | other (document : Document)

-- What a call comes to on a document.
def attempt (d : Document) (operation : Operation) (history : History) (held : Option Held) (now : Int) :
    Except SwarmError (Option TaskClaim × Document) :=
  (Lease.fenced held now operation.change).exec history d

def step (d : Document) : Event → Document
  | .call operation history held now =>
    match attempt d operation history held now with
    | .ok (_, d') => d'
    | .error _    => d
  | .other document => ((document.assign .claims (d .claims)).assign .journals (d .journals)).assign
    .fences (d .fences)

def run (es : List Event) : Document :=
  Run.run step .empty es

end Authority
