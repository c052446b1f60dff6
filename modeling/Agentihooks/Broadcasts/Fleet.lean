import Mathlib.Data.Finset.Sort
import Mathlib.Data.Prod.Lex
import Mathlib.Data.String.Basic
import Agentihooks.Ingest.Request
import Agentihooks.Library.Text
import Agentihooks.Library.Run

-- What is published: a draft is read whole, or refused before anything is written.

namespace Broadcasts

open Ingest (text? int? isNull)

inductive Policy
  | once
  | untilAck
  deriving DecidableEq

inductive Refusal
  | invalidRequest
  | forbiddenScope
  | unauthenticated
  | distributionDisabled
  | staleGeneration
  | notDelivered
  | staleRevision
  deriving DecidableEq

-- `POLICIES`
def policies : List (String × Policy) :=
  [("nuclear", .untilAck), ("critical", .untilAck), ("alert", .untilAck), ("warning", .untilAck), ("info", .once),
    ("resolved", .once)]

def operatorOnly : List String :=
  ["nuclear", "critical"]

def required : List String :=
  ["severity", "message", "ttl_seconds"]

def draftFields : List String :=
  ["broadcast_id", "channel", "brain_id", "project_id", "target_role", "policy"] ++ required

def maxTtlSeconds : ℤ :=
  86400

def maxMessage : ℕ :=
  8192

-- `NAME`
def isName (value : String) : Bool :=
  let tail := "abcdefghijklmnopqrstuvwxyz0123456789._-".toList
  match value.toList with
  | []           => false
  | first :: rest => first ∈ tail.take 36 && rest.length ≤ 63 && rest.all (· ∈ tail)

def policyOf : String → Option Policy
  | "once"      => some .once
  | "until_ack" => some .untilAck
  | _           => none

-- What two revisions are compared by.
structure Content where
  brainId    : String
  projectId  : String
  targetRole : String
  channel    : String
  severity   : String
  policy     : Policy
  message    : String
  deriving DecidableEq

structure Draft where
  broadcastId : String
  channel     : String
  targetRole  : String
  brainId     : Option JsonValue
  projectId   : String
  severity    : String
  policy      : Policy
  message     : String
  ttlSeconds  : ℤ

section Read

variable (draft : JsonValue)

def optional (key : String) : Except Refusal String :=
  match draft.get? key with
  | none       => .ok ""
  | some value => match text? value with
    | some name => if name = "" ∨ isName name then .ok name else .error .invalidRequest
    | none      => .error .invalidRequest

def readMessage : Except Refusal String :=
  match (draft.get? "message").bind text? with
  | some message =>
    if Text.strip message = "" ∨ maxMessage < message.length then .error .invalidRequest else .ok (Text.strip message)
  | none         => .error .invalidRequest

def readSeverity : Except Refusal (String × Policy) :=
  match (draft.get? "severity").bind text? with
  | some severity => match policies.lookup severity with
    | some policy => .ok (severity, policy)
    | none        => .error .invalidRequest
  | none          => .error .invalidRequest

def readTtl : Except Refusal ℤ :=
  match (draft.get? "ttl_seconds").bind int? with
  | some ttl => if 0 < ttl ∧ ttl ≤ maxTtlSeconds then .ok ttl else .error .invalidRequest
  | none     => .error .invalidRequest

def readPolicy (severity : Policy) : Except Refusal Policy :=
  match draft.get? "policy" with
  | none       => .ok severity
  | some value => match (text? value).bind policyOf with
    | some policy => .ok policy
    | none        => .error .invalidRequest

def readProject : Except Refusal String :=
  match draft.get? "project_id" with
  | none       => .ok ""
  | some value => match text? value with
    | some project => .ok project
    | none         => .error .invalidRequest

-- `_draft`
def readDraft : Except Refusal Draft := do
  let .object fields := draft | throw .invalidRequest
  let keys := fields.map Prod.fst
  unless required.all (· ∈ keys) && keys.all (· ∈ draftFields) do throw .invalidRequest
  let message ← readMessage draft
  let (severity, byDefault) ← readSeverity draft
  let ttl ← readTtl draft
  let policy ← readPolicy draft byDefault
  let project ← readProject draft
  let id ← optional draft "broadcast_id"
  let channel ← optional draft "channel"
  let role ← optional draft "target_role"
  return ⟨id, channel, role, draft.get? "brain_id", project, severity, policy, message, ttl⟩

end Read

def Draft.content (draft : Draft) (brain : String) : Content :=
  ⟨brain, draft.projectId, draft.targetRole, draft.channel, draft.severity, draft.policy, draft.message⟩

-- What a launch grant says of its seat.
structure Registration where
  swarmId     : String
  executionId : String
  generation  : ℕ
  seatId      : String
  brainId     : String
  projectIds  : List String
  deriving DecidableEq

-- A value that counts as absent: null, false, zero, or empty.
def falsy : JsonValue → Bool
  | .scalar .null        => true
  | .scalar (.bool b)    => !b
  | .scalar (.int n)     => n = 0
  | .scalar (.float _ m) => m = 0
  | .scalar (.str s)     => s = ""
  | .array items         => items.isEmpty
  | .object fields       => fields.isEmpty

-- The seat's role: its name without the host and the number.
def roleOf (seat : String) : String :=
  let stem := seat.toList.takeWhile (· ≠ '@')
  match stem.reverse.span Char.isDigit with
  | (_ :: _, '-' :: role) => .ofList role.reverse
  | _                     => .ofList stem

def ownerOf (author : String) : String :=
  if "operator:".toList <+: author.toList then "operator" else .ofList (author.toList.takeWhile (· ≠ '/'))

-- A draft that its publisher may publish.
structure Publication where
  content     : Content
  broadcastId : String
  ttlSeconds  : ℤ
  author      : String
  operationId : String
  deriving DecidableEq

-- `grant` is what the authority answers to the token.
def authorized (slug : String) (grant : Option Registration) : Except Refusal Registration :=
  match grant with
  | some grant => if grant.swarmId ≠ slug then .error .forbiddenScope else .ok grant
  | none       => .error .forbiddenScope

def publication (slug : String) (grant : Option Registration) (draft : JsonValue) (operationId : String) :
    Except Refusal Publication := do
  let draft ← readDraft draft
  let grant ← authorized slug grant
  let brain ← match draft.brainId with
    | some value =>
      if falsy value then pure grant.brainId
      else if text? value = some grant.brainId then pure grant.brainId else throw .forbiddenScope
    | none       => pure grant.brainId
  unless draft.projectId ∈ grant.projectIds do throw .forbiddenScope
  if draft.severity ∈ operatorOnly then throw .forbiddenScope
  return ⟨draft.content brain, draft.broadcastId, draft.ttlSeconds, s!"{grant.seatId}/{grant.executionId}", operationId⟩

-- `name` is what the operators' authority answers to the token. A launch grant's token is never an operator's.
def operatorPublication (token : String) (name : Option String) (draft : JsonValue) (operationId : String) :
    Except Refusal Publication := do
  let draft ← readDraft draft
  let launchGrant := token.toList.takeWhile (· ≠ '.') = ['v', '2']
  let name := if token ≠ "" ∧ ¬launchGrant then name.getD "" else ""
  if name = "" then throw .unauthenticated
  let some brain := draft.brainId.bind text? | throw .invalidRequest
  unless isName brain do throw .invalidRequest
  return ⟨draft.content brain, draft.broadcastId, draft.ttlSeconds, s!"operator:{name}", operationId⟩

end Broadcasts

-- Fleet broadcasts: the canonical broadcasts, their history, and what each seat was handed. Every call is one transaction
-- over the keys that it watches; `now` is its clock reading from before, `fresh` the id it draws.

namespace Broadcasts

structure Broadcast extends Content where
  broadcastId : String
  revision    : ℕ
  fleet       : String
  author      : String
  publishedMs : ℤ
  expiresMs   : ℤ
  deriving DecidableEq

structure Delivery where
  broadcast   : Broadcast
  deliveredMs : ℤ
  deriving DecidableEq

def Delivery.lagSeconds (d : Delivery) : ℚ :=
  (d.deliveredMs - d.broadcast.publishedMs : ℤ) / 1000

-- What a seat was handed of a broadcast.
structure Record where
  revision    : ℕ
  deliveredMs : ℤ
  acked       : Bool
  executionId : String
  generation  : ℕ
  deriving DecidableEq

-- The last claim of a seat that named itself.
structure Answer where
  claimId    : String
  generation : ℕ
  deliveries : List Delivery
  deriving DecidableEq

structure State where
  broadcasts    : Dict String Broadcast
  operations    : Dict (String × String) Broadcast
  history       : List Broadcast
  deliveries    : String → Dict String Record
  claims        : Dict String Answer
  generations   : Dict String ℕ
  duplicateAcks : String → ℕ
  frozen        : Bool

def empty : State where
  broadcasts    := ∅
  operations    := ∅
  history       := []
  deliveries    := fun _ => ∅
  claims        := ∅
  generations   := ∅
  duplicateAcks := fun _ => 0
  frozen        := false

namespace Publication

variable (q : Publication) (fresh : String)

def id : String :=
  if q.broadcastId = "" then fresh else q.broadcastId

def operation : String × String :=
  (ownerOf q.author, q.operationId)

-- The broadcast has the publication's content and lifetime.
def Same (b : Broadcast) : Prop :=
  b.toContent = q.content ∧ b.expiresMs - b.publishedMs = q.ttlSeconds * 1000

instance (b : Broadcast) : Decidable (q.Same b) :=
  inferInstanceAs (Decidable (_ ∧ _))

def build (slug : String) (now : ℤ) (revision : ℕ) : Broadcast where
  toContent   := q.content
  broadcastId := q.id fresh
  revision    := revision
  fleet       := slug
  author      := q.author
  publishedMs := now
  expiresMs   := now + q.ttlSeconds * 1000

end Publication

namespace State

variable (slug : String) (s : State)

-- `_commit`
def commit (q : Publication) (fresh : String) (now : ℤ) : Except Refusal (Broadcast × State) :=
  if q.operationId ≠ "" ∧ ¬isName q.operationId then .error .invalidRequest
  else if s.frozen then .error .distributionDisabled
  else match if q.operationId = "" then none else s.operations.lookup q.operation with
    | some replayed =>
      if ¬q.Same replayed ∨ (q.broadcastId ≠ "" ∧ q.broadcastId ≠ replayed.broadcastId) then .error .invalidRequest
      else .ok (replayed, s)
    | none          =>
      let stored := s.broadcasts.lookup (q.id fresh)
      if stored.any fun b => ownerOf b.author ≠ ownerOf q.author ∨ b.brainId ≠ q.content.brainId then .error .forbiddenScope
      else match stored.filter fun b => q.Same b ∧ now < b.expiresMs with
        | some unchanged => .ok (unchanged, s)
        | none           =>
          let built := q.build fresh slug now (stored.elim 1 (·.revision + 1))
          .ok (built, { s with
            broadcasts := s.broadcasts.insert built.broadcastId built
            history    := s.history ++ [built]
            operations := if q.operationId = "" then s.operations else s.operations.insert q.operation built })

-- `_matches`
def Matches (b : Broadcast) (grant : Registration) (channels : List String) (now : ℤ) : Prop :=
  b.fleet = slug ∧ now < b.expiresMs ∧ b.brainId = grant.brainId ∧ (b.projectId = "" ∨ b.projectId ∈ grant.projectIds) ∧
    (b.targetRole = "" ∨ b.targetRole = roleOf grant.seatId) ∧ (b.channel = "" ∨ b.channel ∈ channels ∨ "*" ∈ channels)

instance (b : Broadcast) (grant : Registration) (channels : List String) (now : ℤ) :
    Decidable (Matches slug b grant channels now) :=
  inferInstanceAs (Decidable (_ ∧ _))

-- The broadcasts by the time they were published.
def current : List Broadcast :=
  let published (id : String) : ℤ := ((s.broadcasts.lookup id).map Broadcast.publishedMs).getD 0
  ((s.broadcasts.keys.image fun id => toLex (published id, id)).sort).filterMap fun key => s.broadcasts.lookup (ofLex key).2

-- The seat's record of this very revision.
def record (seat : String) (b : Broadcast) : Option Record :=
  ((s.deliveries seat).lookup b.broadcastId).filter fun record => record.revision = b.revision

def admitted (seat : String) : ℕ :=
  (s.generations.lookup seat).getD 0

end State

structure Claim where
  grant    : Registration
  channels : List String
  claimId  : String
  now      : ℤ

namespace Claim

variable (slug : String) (s : State) (c : Claim)

def remembered : Option Answer :=
  if c.claimId = "" then none
  else (s.claims.lookup c.grant.seatId).filter fun last =>
    last.claimId = c.claimId ∧ last.generation = c.grant.generation

-- To be handed out.
def Due (b : Broadcast) : Prop :=
  State.Matches slug b c.grant c.channels c.now ∧
    ¬(s.record c.grant.seatId b).any fun record => record.acked ∨ b.policy = .once

instance (b : Broadcast) : Decidable (c.Due slug s b) :=
  inferInstanceAs (Decidable (_ ∧ ¬_))

def delivery (b : Broadcast) : Delivery :=
  ⟨b, (s.record c.grant.seatId b).elim c.now Record.deliveredMs⟩

def found : List Delivery :=
  (s.current.filter fun b => c.Due slug s b).map (c.delivery s)

-- The records that the claim writes.
def changed : Dict String Record :=
  (s.broadcasts.select fun _ b => c.Due slug s b ∧
      ¬(s.record c.grant.seatId b).any fun record => record.generation = c.grant.generation).mapValues fun _ b =>
    ⟨b.revision, (c.delivery s b).deliveredMs, false, c.grant.executionId, c.grant.generation⟩

def run : Except Refusal (List Delivery × State) :=
  let seat := c.grant.seatId
  if c.claimId ≠ "" ∧ ¬isName c.claimId then .error .invalidRequest
  else if c.grant.generation < s.admitted seat then .error .staleGeneration
  else match c.remembered s with
    | some last => .ok (last.deliveries, s)
    | none      =>
      let (found, changed) := (c.found slug s, c.changed slug s)
      if changed ≠ ∅ ∨ c.claimId ≠ "" ∨ s.admitted seat < c.grant.generation then
        .ok (found, { s with
          deliveries  := Function.update s.deliveries seat (changed ∪ s.deliveries seat)
          claims      := if c.claimId = "" then s.claims
            else s.claims.insert seat ⟨c.claimId, c.grant.generation, found⟩
          generations := s.generations.insert seat c.grant.generation })
      else .ok (found, s)

end Claim

def State.acknowledge (s : State) (grant : Registration) (id : String) (revision : ℤ) : Except Refusal (Bool × State) :=
  let seat := grant.seatId
  if grant.generation < s.admitted seat then .error .staleGeneration
  else match (s.deliveries seat).lookup id with
    | none        => .error .notDelivered
    | some record =>
      if record.revision < revision then .error .notDelivered
      else if revision < record.revision then .error .staleRevision
      else if record.acked then
        .ok (false, { s with duplicateAcks := Function.update s.duplicateAcks seat (s.duplicateAcks seat + 1) })
      else
        let acked := { record with acked := true, executionId := grant.executionId, generation := grant.generation }
        .ok (true, { s with
          deliveries := Function.update s.deliveries seat ((s.deliveries seat).insert id acked) })

inductive Event
  | publish (grant : Option Registration) (draft : JsonValue) (operationId fresh : String) (now : ℤ)
  | publishOperator (token : String) (name : Option String) (draft : JsonValue) (operationId fresh : String) (now : ℤ)
  | claim (grant : Option Registration) (channels : List String) (claimId : String) (now : ℤ)
  | acknowledge (grant : Option Registration) (id : String) (revision : ℤ)
  | freeze
  | thaw

section Step

variable (slug : String) (s : State)

def publish (q : Except Refusal Publication) (fresh : String) (now : ℤ) : Except Refusal (Broadcast × State) := do
  s.commit slug (← q) fresh now

def claim (grant : Option Registration) (channels : List String) (claimId : String) (now : ℤ) :
    Except Refusal (List Delivery × State) := do
  let grant ← authorized slug grant
  Claim.run slug s ⟨grant, channels, claimId, now⟩

def acknowledge (grant : Option Registration) (id : String) (revision : ℤ) : Except Refusal (Bool × State) := do
  let grant ← authorized slug grant
  s.acknowledge grant id revision

-- A refused call leaves the state as it is.
def after {α : Type} : Except Refusal (α × State) → State
  | .ok (_, s) => s
  | .error _   => s

def step : Event → State
  | .publish grant draft operationId fresh now              =>
    after s (publish slug s (publication slug grant draft operationId) fresh now)
  | .publishOperator token name draft operationId fresh now =>
    after s (publish slug s (operatorPublication token name draft operationId) fresh now)
  | .claim grant channels claimId now                       => after s (claim slug s grant channels claimId now)
  | .acknowledge grant id revision                          => after s (acknowledge slug s grant id revision)
  | .freeze                                                 => { s with frozen := true }
  | .thaw                                                   => { s with frozen := false }

end Step

end Broadcasts
