import Agentihooks.Execution.Registry

-- Launch grants: the controller signs what an execution is launched with, keeps an audit row of each grant in the
-- document, and registers the execution that presents its grant. A token whose signature is right is known by its
-- claims.

namespace Launch

open Program Fencing Execution

structure LaunchClaims where
  grantId     : String
  swarmId     : String
  executionId : String
  generation  : ℕ
  seatId      : String
  taskId      : String
  account     : String
  brainId     : String
  projectIds  : Json
  issuer      : String
  audience    : String
  keyId       : String
  issuedAt    : Int
  expiresAt   : Int
  deriving DecidableEq

-- `timestamp` is `_timestamp`, the text of a time.
structure LaunchAuthority where
  keyId     : String
  issuer    : String
  audience  : String
  ttl       : Int
  timestamp : Int → String

namespace Refusal

def task : SwarmError :=
  "execution task or seat is not an identifier"

def noProject : SwarmError :=
  "a launch grant needs at least one project"

def project : SwarmError :=
  "launch grant project is not a canonical project ID"

def brain : SwarmError :=
  "launch grant brain is not an identifier"

def account : SwarmError :=
  "launch grant account is not an identifier"

def disabled : SwarmError :=
  "launch grants are disabled for this swarm"

def notCurrent : SwarmError :=
  "execution is not the current attempt of its seat"

def otherKey : SwarmError :=
  "launch grant names another signing key"

def otherIssuer : SwarmError :=
  "launch grant is from another issuer"

def otherAudience : SwarmError :=
  "launch grant is for another audience"

def early : SwarmError :=
  "launch grant is not yet valid"

def expired : SwarmError :=
  "launch grant has expired"

def otherSwarm : SwarmError :=
  "launch grant belongs to another swarm"

def noBody : SwarmError :=
  "registration body must be an object"

def unsupported : SwarmError :=
  "registration names an unsupported identity field"

def unnamed : SwarmError :=
  "registration must name its execution and generation"

def outside (name : String) : SwarmError :=
  "registration " ++ name ++ " is outside the launch grant"

def notIssued : SwarmError :=
  "launch grant was not issued by this controller"

def notRegistered : SwarmError :=
  "launch grant is not registered"

def revoked : SwarmError :=
  "launch grant was revoked"

def superseded : SwarmError :=
  "launch grant is for a superseded execution"

def ended : SwarmError :=
  "launch grant is for an ended execution"

def otherGrant : SwarmError :=
  "execution is already registered under another launch grant"

-- The `KeyError` of a grant without an audit row, and of an execution without a row.
def missing : SwarmError :=
  "KeyError"

end Refusal

def alphanumeric (c : Char) : Bool :=
  ('A' ≤ c ∧ c ≤ 'Z') ∨ ('a' ≤ c ∧ c ≤ 'z') ∨ ('0' ≤ c ∧ c ≤ '9')

-- `IDENTIFIER`.
def identifier (value : String) : Bool :=
  match value.toList with
  | []      => false
  | c :: cs => alphanumeric c ∧ cs.length ≤ 127 ∧ cs.all fun c => alphanumeric c ∨ c ∈ ['.', '_', '@', '-']

-- A part of `PROJECT_ID`.
def projectPart (part : List Char) : Bool :=
  part ≠ [] ∧ part.all fun c => alphanumeric c ∨ c ∈ ['.', '_', '-']

-- `PROJECT_ID`.
def project (value : String) : Bool :=
  (match value.toList.splitOn '/' with
    | [host, owner, name] => host = "github.com".toList ∧ projectPart owner ∧ projectPart name
    | _                   => false) ||
  ("local:".toList <+: value.toList ∧ projectPart (value.toList.drop 6))

-- What `issue` is called with. `projectIds` is none where the caller gives no list.
structure Terms where
  projectIds : Option (List String)
  brainId    : String
  account    : String

-- The JSON of a text without escapes, and of a sorted list of such texts.
def quoted (text : String) : Json :=
  "\"" ++ text ++ "\""

def listed (texts : List String) : Json :=
  "[" ++ ", ".intercalate (texts.map quoted) ++ "]"

-- The claims `issue` signs for the execution it read.
def claimsFor (authority : LaunchAuthority) (slug grantId : String) (terms : Terms) (now : Int)
    (execution : AgentRecord) : Except SwarmError LaunchClaims := do
  if ¬(identifier execution.task ∧ identifier execution.seat) then
    throw Refusal.task
  let projectIds := terms.projectIds.getD []
  if projectIds = [] then
    throw Refusal.noProject
  if ¬projectIds.all project then
    throw Refusal.project
  if ¬identifier terms.brainId then
    throw Refusal.brain
  if ¬identifier terms.account then
    throw Refusal.account
  return {
    grantId     := grantId
    swarmId     := slug
    executionId := execution.executionId
    generation  := execution.generation
    seatId      := execution.seat
    taskId      := execution.task
    account     := terms.account
    brainId     := terms.brainId
    projectIds  := listed (projectIds.dedup.mergeSort (· ≤ ·))
    issuer      := authority.issuer
    audience    := authority.audience
    keyId       := authority.keyId
    issuedAt    := now
    expiresAt   := now + authority.ttl }

-- The audit row of a grant that is issued.
def auditOf (authority : LaunchAuthority) (claims : LaunchClaims) : Grant where
  state     := .issued
  expiresAt := authority.timestamp claims.expiresAt
  renewals  := none
  others    := [("grant_id", quoted claims.grantId), ("issuer", quoted claims.issuer),
    ("audience", quoted claims.audience), ("key_id", quoted claims.keyId),
    ("execution_id", quoted claims.executionId), ("generation", toString claims.generation),
    ("issued_at", quoted (authority.timestamp claims.issuedAt))].foldl (fun row (k, v) => row.insert k v) ∅

-- `_registration`.
def registrationOf (claims : LaunchClaims) (registeredAt : String) : Registration where
  grantId     := claims.grantId
  swarmId     := claims.swarmId
  executionId := claims.executionId
  generation  := claims.generation
  seatId      := claims.seatId
  taskId      := claims.taskId
  others      := [("account", quoted claims.account), ("brain_id", quoted claims.brainId),
    ("project_ids", claims.projectIds), ("issuer", quoted claims.issuer), ("audience", quoted claims.audience),
    ("key_id", quoted claims.keyId), ("registered_at", quoted registeredAt)].foldl (fun row (k, v) => row.insert k v) ∅

-- `check_claims`.
def checkClaims (authority : LaunchAuthority) (slug : String) (claims : LaunchClaims) (now : Int) :
    Except SwarmError Unit := do
  if claims.keyId ≠ authority.keyId then
    throw Refusal.otherKey
  if claims.issuer ≠ authority.issuer then
    throw Refusal.otherIssuer
  if claims.audience ≠ authority.audience then
    throw Refusal.otherAudience
  if now < claims.issuedAt then
    throw Refusal.early
  if claims.expiresAt ≤ now then
    throw Refusal.expired
  if claims.swarmId ≠ slug then
    throw Refusal.otherSwarm

-- The fields of `BOUND`, in its order.
def LaunchClaims.bound (claims : LaunchClaims) : List (String × TargetValue) :=
  [("swarm_id", .text claims.swarmId), ("execution_id", .text claims.executionId),
   ("generation", .whole claims.generation), ("seat_id", .text claims.seatId), ("task_id", .text claims.taskId),
   ("account", .text claims.account), ("brain_id", .text claims.brainId), ("project_ids", .other claims.projectIds)]

-- `check_body`, of a body that is none where it is not an object.
def checkBody (claims : LaunchClaims) (body : Option (Dict String TargetValue)) : Except SwarmError Unit :=
  match body with
  | none      => .error Refusal.noBody
  | some body => do
    if ¬∀ name ∈ body.keys, name ∈ claims.bound.map (·.fst) then
      throw Refusal.unsupported
    if ¬("execution_id" ∈ body.keys ∧ "generation" ∈ body.keys) then
      throw Refusal.unnamed
    match claims.bound.find? fun (name, value) => (body.lookup name).any (· ≠ value) with
    | some (name, _) => throw (Refusal.outside name)
    | none           => return

-- An occupant of a seat has the execution and generation.
def Current (executions : Rows) (executionId : String) (generation : ℕ) : Prop :=
  ∃ key ∈ executions.keys, ∃ row ∈ executions.lookup key, occupant executions row.seat = some row ∧
    row.executionId = executionId ∧ row.generation = generation

instance {executions executionId generation} : Decidable (Current executions executionId generation) :=
  inferInstanceAs (Decidable (∃ _ ∈ _, _))

-- The execution is that of an occupant, whichever its generation.
def Occupies (executions : Rows) (executionId : String) : Prop :=
  ∃ key ∈ executions.keys, ∃ row ∈ executions.lookup key, occupant executions row.seat = some row ∧
    row.executionId = executionId

instance {executions executionId} : Decidable (Occupies executions executionId) :=
  inferInstanceAs (Decidable (∃ _ ∈ _, _))

def grantsDisabled : Change String := do
  let found ← read .scalar .grantsDisabled
  return found.getD ""

-- `record.change`.
def record (execution : AgentRecord) (grantId : String) (audit : Grant) : Change Unit := do
  let disabled ← grantsDisabled
  ensure (disabled = "") Refusal.disabled
  let executions ← scan Section.executions
  ensure (Occupies executions execution.executionId) Refusal.notCurrent
  write .grants grantId audit

-- `issued`.
def issued (audit : Option Grant) : Except SwarmError Grant :=
  match audit with
  | none       => .error Refusal.notIssued
  | some audit => if audit.state = .revoked then .error Refusal.revoked else .ok audit

-- `admit`.
def admitRegistration (authority : LaunchAuthority) (claims : LaunchClaims) (now : Int) : Change Registration := do
  let found ← read Section.grants claims.grantId
  let audit ← attempt (issued found)
  let executions ← scan Section.executions
  ensure (Current executions claims.executionId claims.generation) Refusal.superseded
  let row ← read Section.executions claims.executionId
  match row with
  | none     => refuse Refusal.missing
  | some row => do
    ensure (row.state ≠ .ended) Refusal.ended
    let existing ← read Section.registrations claims.executionId
    match existing with
    | some registration => do
      ensure (registration.grantId = claims.grantId) Refusal.otherGrant
      return registration
    | none => do
      let disabled ← grantsDisabled
      ensure (disabled = "") Refusal.disabled
      let registration := registrationOf claims (authority.timestamp now)
      write .registrations claims.executionId registration
      write .grants claims.grantId { audit with state := .registered }
      return registration

-- `_rewrite.rewrite`.
def rewrite (grantId : String) (change : Grant → Except SwarmError (Option Grant)) : Change (Option Grant) := do
  let found ← read Section.grants grantId
  match found with
  | none       => refuse Refusal.missing
  | some audit => do
    let changed ← attempt (change audit)
    match changed with
    | some audit => do
      write .grants grantId audit
      return changed
    | none => return none

-- `_revoked`.
def revokedGrant (audit : Grant) : Option Grant :=
  if audit.state = .revoked then none else some { audit with state := .revoked }

-- `renew.extend`.
def extend (expiresAt : String) (audit : Grant) : Except SwarmError (Option Grant) :=
  if audit.state = .revoked then
    .error Refusal.revoked
  else
    .ok (some { audit with expiresAt := expiresAt, renewals := some (audit.renewals.getD 0 + 1) })

-- The grants that `disable` revokes, as it leaves them.
def outstanding (grants : Dict String Grant) : Dict String Grant :=
  (Finmap.restrict (fun key => (grants.lookup key).any (·.state = .issued)) grants).mapValues fun _ audit =>
    { audit with state := .revoked }

-- `disable.change`.
def disable (authority : LaunchAuthority) (now : Int) : Change (Finset String) := do
  let grants ← scan Section.grants
  write .scalar .grantsDisabled (authority.timestamp now)
  writeAll .grants (outstanding grants)
  return (outstanding grants).keys

-- `enable.change`.
def enable : Change Unit :=
  write .scalar .grantsDisabled ""

end Launch
