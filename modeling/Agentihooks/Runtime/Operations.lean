import Mathlib.Logic.Equiv.List
import Agentihooks.Library.Run
import Agentihooks.Execution.Registry

-- The journal of runtime operations: one row per operation, each write of it one change of the document
-- made under the current execution.

namespace Runtime

open Program Fencing Fencing.Change Execution

-- `transport.apply_operation` is never reached by a request the journal refuses, so the messages tell
-- why nothing was done.
namespace Refusal

def invalid : SwarmError :=
  "invalid operation identity or action"

def generation : SwarmError :=
  "invalid execution generation"

def payload : SwarmError :=
  "operation identity conflicts with payload or execution scope"

def target : SwarmError :=
  "operation target changed"

def missing : SwarmError :=
  "operation journal entry is missing"

def identity : SwarmError :=
  "operation identity changed"

def admission : SwarmError :=
  "execution is not admitted"

def stale : SwarmError :=
  "execution generation is stale"

def spec : SwarmError :=
  "operation spec changed since it was journaled"

end Refusal

structure OperationRequest where
  executionId : String
  generation  : ℕ
  action      : OperationAction
  payload     : Json
  key         : String
  deriving DecidableEq

structure Observation where
  phase         : Phase
  executionId   : String
  generation    : ℕ
  backend       : Backend
  payloadDigest : String
  result        : Json
  refusal       : Json
  deriving DecidableEq

def Observation.ofPhase (phase : Phase) : Observation :=
  ⟨phase, "", 0, .other "", "", Json.empty, Json.empty⟩

-- `uuid5` over the canonical text of a list of names, and the digest of an action with its payload.
-- Both are taken to tell different arguments apart.
structure Digests where
  uuid5    : List String → String
  digest   : OperationAction × Json → String
  uuid5_inj  : Function.Injective uuid5
  digest_inj : Function.Injective digest

section Unary

-- The list as a number, in unary: not what `uuid5` gives, but no two lists share it.
def unary (names : List String) : String :=
  let codes : List (List ℕ) := names.map fun name => name.toList.map Char.toNat
  String.ofList (.replicate (Encodable.encode codes) '0')

theorem unary_injective : Function.Injective unary := by
  intro names names' h
  have he := congrArg (List.length ∘ String.toList) h
  simp only [unary, Function.comp, String.toList_ofList, List.length_replicate,
    Encodable.encode_inj] at he
  have hc : Function.Injective fun name : String => name.toList.map Char.toNat :=
    (List.map_injective_iff.mpr fun _ _ => Char.toNat_inj.mp).comp fun _ _ => String.toList_inj.mp
  exact List.map_injective_iff.mpr hc he

def label : OperationAction → List String
  | .spawn      => ["spawn"]
  | .command    => ["command"]
  | .drain      => ["drain"]
  | .terminate  => ["terminate"]
  | .recover    => ["recover"]
  | .other name => ["other", name]

theorem label_injective : Function.Injective label := by
  intro action action' h
  cases action <;> cases action' <;> simp_all [label]

def Digests.unary : Digests where
  uuid5      := Runtime.unary
  digest x   := Runtime.unary (x.2 :: label x.1)
  uuid5_inj  := unary_injective
  digest_inj := fun x y h => by
    have hl := unary_injective h
    simp only [List.cons.injEq] at hl
    exact Prod.ext (label_injective hl.right) hl.left

end Unary

def actions : List OperationAction :=
  [.spawn, .command, .drain, .terminate, .recover]

-- An operation that has come to its end.
def Absorbed (operation : Operation) : Prop :=
  operation.phase = .applied ∨ operation.phase = .superseded

instance : DecidablePred Absorbed :=
  fun _ => inferInstanceAs (Decidable (_ ∨ _))

variable (digests : Digests)

-- Every spawn of an execution goes under one key, whatever key the request names.
def OperationRequest.journalKey (request : OperationRequest) : String :=
  if request.action = .spawn then "spawn" else request.key

def OperationRequest.operationId (slug : String) (request : OperationRequest) : String :=
  "op-" ++ digests.uuid5 [slug, request.executionId, request.journalKey]

def OperationRequest.payloadDigest (request : OperationRequest) : String :=
  digests.digest (request.action, request.payload)

-- `_current`.
def currentExecution (executionId : String) (generation : ℕ) : Change AgentRecord := do
  let row ← executionRow executionId
  match row with
  | none       => refuse Refusal.admission
  | some agent =>
    let executions ← scan Section.executions
    match occupant executions agent.seat with
    | none         => refuse Refusal.stale
    | some current =>
      ensure (current.executionId = executionId ∧ current.generation = generation) Refusal.stale
      return current

-- `_write`: the row the change comes to is filed under its own identity.
def commit (change : Change Operation) : Change Operation := do
  let operation ← change
  write .operations operation.operationId operation
  return operation

-- What an operation is, apart from how far it has come.
def unsettled (operation : Operation) : Operation :=
  { operation with phase := .accepted, result := Json.empty, attempted := false, refusal := Json.empty }

-- The row `prepare` would start with for a request under the current execution.
def expected (slug : String) (request : OperationRequest) (specs : Backend → Option String)
    (epoch : Option Int) (agent : AgentRecord) : Operation where
  operationId     := request.operationId digests slug
  executionId     := agent.executionId
  generation      := agent.generation
  action          := request.action
  backend         := agent.runtimeBackend
  payloadDigest   := request.payloadDigest digests
  target          := agent.runtimeTarget
  phase           := .accepted
  result          := Json.empty
  controllerEpoch := epoch
  attempted       := false
  specDigest      := (specs agent.runtimeBackend).getD ""
  refusal         := Json.empty

-- `prepare`, where `epoch` is the controller epoch in scope.
def prepare (slug : String) (request : OperationRequest) (specs : Backend → Option String)
    (epoch : Option Int) : Change Operation := do
  ensure (request.executionId ≠ "" ∧ request.key ≠ "" ∧ request.action ∈ actions) Refusal.invalid
  ensure (1 ≤ request.generation) Refusal.generation
  commit do
    let agent ← currentExecution request.executionId request.generation
    let expected := expected digests slug request specs epoch agent
    let raw ← read Section.operations expected.operationId
    match raw with
    | none          => return expected
    | some previous =>
      ensure ({ unsettled previous with specDigest := "" } =
        { expected with controllerEpoch := previous.controllerEpoch, specDigest := "" }) Refusal.payload
      ensure ((specs agent.runtimeBackend).isNone ∨ previous.specDigest = "" ∨
        previous.specDigest = expected.specDigest) Refusal.spec
      return previous

-- What an observation makes of a row that has not come to its end.
def settled (current : Operation) (observation : Observation) (attempted : Bool) : Operation :=
  let phase := if observation.phase = .absent then .accepted else observation.phase
  { current with
    phase     := phase
    result    := if phase = .applied then observation.result else Json.empty
    attempted := (current.attempted || attempted) && (phase = .unknown || phase = .applied)
    refusal   :=
      if phase = .applied then Json.empty
      else if phase = .refused then observation.refusal
      else current.refusal }

def settle (operation : Operation) (observation : Observation) (attempted : Bool) : Change Operation :=
  commit do
    let agent ← currentExecution operation.executionId operation.generation
    ensure (agent.runtimeBackend = operation.backend ∧ agent.runtimeTarget = operation.target)
      Refusal.target
    let raw ← read Section.operations operation.operationId
    match raw with
    | none         => refuse Refusal.missing
    | some current =>
      ensure (unsettled current = unsettled operation) Refusal.identity
      return if Absorbed current then current else settled current observation attempted

def missingSpec : Json :=
  "\x7b\"reason\":\"missing_spec_digest\"\x7d"

def supersedeLegacySpawn (operation : Operation) : Change Operation :=
  commit do
    let _ ← currentExecution operation.executionId operation.generation
    let raw ← read Section.operations operation.operationId
    ensure (raw = some operation) Refusal.identity
    if operation.backend ≠ .kubernetes ∨ operation.action ≠ .spawn ∨ operation.specDigest ≠ "" ∨
        Absorbed operation then
      return operation
    else
      return { operation with phase := .superseded, result := missingSpec }

def mismatch : Json :=
  "\x7b\"reason\":\"identity\",\"field\":\"\"\x7d"

-- `_qualified`: an applied observation counts only when it names the operation it was asked about.
def qualified (operation : Operation) (observation : Observation) : Observation :=
  if observation.phase = .applied ∧
      (observation.executionId, observation.generation, observation.backend, observation.payloadDigest) ≠
        (operation.executionId, operation.generation, operation.backend, operation.payloadDigest) then
    { Observation.ofPhase .refused with refusal := Runtime.mismatch }
  else
    observation

-- What a call of the transport tells: its observation, or nothing when it timed out or lost the
-- connection.
def answered (operation : Operation) : Option Observation → Observation
  | some observation => qualified operation observation
  | none             => .ofPhase .unknown

end Runtime

-- Any number of controllers that execute, settle, recover and supersede operations. A step is one commit
-- of the document or one call of the transport; a caller can stop after any of them.

namespace Runtime

open Program Fencing Execution

-- Where a caller is in `execute` or `recover`. A recovery of several operations is one caller per
-- operation: what it knows of each is the row it listed in the beginning.
inductive Stage
  | idle
  | prepared (operation : Operation)
  | absent (operation : Operation)
  | attempted (operation : Operation)
  | listed (operation : Operation)
  | observed (operation : Operation) (observation : Observation)

-- What a caller has done, as a record of the run that no step reads: the requests accepted for it, the
-- operations it observed absent, the rows its attempts to apply them committed, and its calls of
-- `apply_operation`.
inductive Deed
  | prepared (slug : String) (request : OperationRequest) (operation : Operation)
  | absent (operation : Operation)
  | attempted (operation : Operation)
  | applied (operation : Operation)
  deriving DecidableEq

structure World where
  document : Document
  stage    : ℕ → Stage
  deeds    : ℕ → List Deed

-- What a commit reads beside the document: the history behind it, the controller epoch in scope and the
-- clock of the lease check.
structure Scope where
  history : History
  epoch   : Option Int
  now     : Int

inductive Event
  | execute (caller : ℕ) (scope : Scope) (slug : String) (request : OperationRequest)
      (specs : Backend → Option String)
  | unsupported (caller : ℕ)
  | observe (caller : ℕ) (answer : Option Observation) (dispatchEnabled : Bool)
  | attempt (caller : ℕ) (scope : Scope)
  | apply (caller : ℕ) (answer : Option Observation)
  | conclude (caller : ℕ) (scope : Scope)
  | recover (caller : ℕ) (operationId : String)
  | settle (scope : Scope) (operation : Operation) (observation : Observation) (attempted : Bool)
  | supersede (scope : Scope) (operation : Operation)
  | crash (caller : ℕ)
  | other (document : Document)

namespace World

variable (digests : Digests)

def commit (w : World) (scope : Scope) (change : Change Operation) : Option (Operation × Document) :=
  ((Lease.fenced (scope.epoch.map .epoch) scope.now change).exec scope.history w.document).toOption

def enter (w : World) (caller : ℕ) (stage : Stage) : World :=
  { w with stage := Function.update w.stage caller stage }

def log (w : World) (caller : ℕ) (deed : Deed) : World :=
  { w with deeds := Function.update w.deeds caller (w.deeds caller ++ [deed]) }

-- The caller of a refused commit raises.
def write (w : World) (caller : ℕ) (scope : Scope) (change : Change Operation)
    (next : Operation → World → World) : World :=
  match w.commit scope change with
  | none                => w.enter caller .idle
  | some (operation, d) => next operation { w with document := d }

def step (w : World) : Event → World
  | .execute caller scope slug request specs =>
    w.write caller scope (prepare digests slug request specs scope.epoch) fun operation w =>
      (w.log caller (.prepared slug request operation)).enter caller
        (if Absorbed operation then .idle else .prepared operation)
  | .unsupported caller =>
    match w.stage caller with
    | .prepared operation | .listed operation =>
      w.enter caller (.observed operation (.ofPhase .unknown))
    | _ => w
  | .observe caller answer dispatchEnabled =>
    match w.stage caller with
    | .prepared operation =>
      let observed := answered operation answer
      if observed.phase ≠ .absent ∨ ¬dispatchEnabled then
        w.enter caller (.observed operation observed)
      else
        (w.log caller (.absent operation)).enter caller (.absent operation)
    | .listed operation => w.enter caller (.observed operation (answered operation answer))
    | _ => w
  | .attempt caller scope =>
    match w.stage caller with
    | .absent operation =>
      w.write caller scope (settle operation (.ofPhase .unknown) true) fun operation w =>
        (w.log caller (.attempted operation)).enter caller (.attempted operation)
    | _ => w
  | .apply caller answer =>
    match w.stage caller with
    | .attempted operation =>
      (w.log caller (.applied operation)).enter caller (.observed operation (answered operation answer))
    | _ => w
  | .conclude caller scope =>
    match w.stage caller with
    | .observed operation observation =>
      w.write caller scope (settle operation observation false) fun _ w => w.enter caller .idle
    | _ => w
  | .recover caller operationId =>
    match (w.document .operations).lookup operationId with
    | some operation => if Absorbed operation then w else w.enter caller (.listed operation)
    | none           => w
  | .settle scope operation observation attempted =>
    match w.commit scope (Runtime.settle operation observation attempted) with
    | some (_, d) => { w with document := d }
    | none        => w
  | .supersede scope operation =>
    match w.commit scope (supersedeLegacySpawn operation) with
    | some (_, d) => { w with document := d }
    | none        => w
  | .crash caller => w.enter caller .idle
  -- The other writers of the document leave its operations alone.
  | .other document => { w with document := document.assign .operations (w.document .operations) }

def empty : World :=
  ⟨.empty, fun _ => .idle, fun _ => []⟩

def run (es : List Event) : World :=
  Run.run (step digests) empty es

end World
end Runtime
