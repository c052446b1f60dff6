import Mathlib.Data.Finmap

-- A JSON value no modelled function looks into, by its canonical text.
abbrev Json :=
  String

-- The text of an empty object, the default of every dict field.
def Json.empty : Json :=
  "\x7b\x7d"

-- The message of a raised `SwarmError`.
abbrev SwarmError :=
  String

abbrev Dict (κ V : Type) :=
  Finmap fun _ : κ => V

inductive AgentState
  | starting
  | working
  | finished
  | ended
  | other (name : String)
  deriving DecidableEq

inductive Backend
  | local
  | kubernetes
  | other (name : String)
  deriving DecidableEq

-- The value of a runtime target field: the source tells strings, integers and everything else apart.
inductive TargetValue
  | text (s : String)
  | whole (n : Int)
  | other (v : Json)
  deriving DecidableEq

abbrev RuntimeTarget :=
  Dict String TargetValue

structure ProfileDecision where
  validation : Option (Dict String Json)
  others     : Dict String Json
  deriving DecidableEq

-- `others` holds the fields of the record that no modelled function names.
structure AgentRecord where
  name            : String
  lane            : String
  task            : String
  paneId          : String
  account         : String
  startedAt       : Int
  state           : AgentState
  model           : String
  effort          : String
  seat            : String
  profileDecision : ProfileDecision
  launchedAt      : Int
  overlays        : Json
  executionId     : String
  generation      : ℕ
  runtimeBackend  : Backend
  runtimeTarget   : RuntimeTarget
  launchTimings   : Json
  transport       : String
  others          : Dict String Json
  deriving DecidableEq

structure Lease where
  owner     : String
  epoch     : Int
  expiresAt : Int
  deriving DecidableEq

-- What a fenced write is made under: a lease, or only its epoch.
inductive Held
  | lease (held : Lease)
  | epoch (held : Int)
  deriving DecidableEq

structure Intent where
  executionId     : String
  generation      : ℕ
  controllerEpoch : Int
  deriving DecidableEq

inductive GrantState
  | issued
  | registered
  | revoked
  deriving DecidableEq

-- The audit row of a launch grant.
structure Grant where
  state     : GrantState
  expiresAt : String
  renewals  : Option ℕ
  others    : Dict String Json
  deriving DecidableEq

structure Registration where
  grantId     : String
  swarmId     : String
  executionId : String
  generation  : ℕ
  seatId      : String
  taskId      : String
  others      : Dict String Json
  deriving DecidableEq

inductive ClaimState
  | active
  | released
  | completed
  | fenced
  deriving DecidableEq

structure TaskClaim where
  taskId              : String
  holder              : String
  generation          : ℕ
  executionId         : String
  executionGeneration : ℕ
  leaseDeadlineMs     : Int
  state               : ClaimState
  result              : Json
  deriving DecidableEq

inductive JournalEvent
  | admitted
  | renewed
  | released
  | completed
  | fenced
  deriving DecidableEq

structure JournalEntry where
  event : JournalEvent
  claim : TaskClaim
  deriving DecidableEq

structure Fence where
  sequence : Int
  digest   : String
  deriving DecidableEq

inductive OperationAction
  | spawn
  | command
  | drain
  | terminate
  | recover
  | other (name : String)
  deriving DecidableEq

inductive Phase
  | accepted
  | absent
  | unknown
  | applied
  | refused
  | superseded
  deriving DecidableEq

structure Operation where
  operationId     : String
  executionId     : String
  generation      : ℕ
  action          : OperationAction
  backend         : Backend
  payloadDigest   : String
  target          : RuntimeTarget
  phase           : Phase
  result          : Json
  controllerEpoch : Option Int
  attempted       : Bool
  specDigest      : String
  refusal         : Json
  deriving DecidableEq
