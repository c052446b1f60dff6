import Mathlib.Data.String.Basic
import Agentihooks.Library.Finmap
import Agentihooks.Objects.Rows
import Agentihooks.Lease.Changes

namespace TargetValue

-- Python's truth of the value; `other` holds floats, booleans, null and containers by their text.
def truthy : TargetValue → Bool
  | text s  => s ≠ ""
  | whole n => n ≠ 0
  | other v => v ∉ ["null", "false", "0.0", "-0.0", "[]", Json.empty]

def isText : TargetValue → Bool
  | text _ => true
  | _      => false

def isPositive : TargetValue → Bool
  | whole n => 1 ≤ n
  | _       => false

end TargetValue

namespace RuntimeTarget

def allowed : Backend → Finset String
  | .kubernetes => {"pod_namespace", "pod_name", "pod_uid"}
  | _           => {"host_id", "server_id", "process_namespace", "pid", "pid_start"}

def namesPod (target : RuntimeTarget) (field : String) : Bool :=
  (target.lookup field).any fun value => value.isText && value.truthy

-- `_validate_target`. Where several fields are malformed, the source refuses by the first in the order
-- of the dict.
def validate (backend : Backend) (target : RuntimeTarget) : Except SwarmError Unit := do
  if ¬ target.keys ⊆ allowed backend then
    throw "unsupported runtime target identity field"
  if backend = .kubernetes ∧ ¬ (target.namesPod "pod_namespace" ∧ target.namesPod "pod_name") then
    throw "Kubernetes target requires namespace and Pod name"
  if target.Exists fun field value => field = "pid" ∧ ¬ value.isPositive then
    throw "runtime PID must be a positive integer"
  if target.Exists fun field value => field = "pid_start" ∧ ¬ value.isPositive then
    throw "runtime PID start time must be a positive integer"
  if target.Exists fun field value => field ≠ "pid" ∧ field ≠ "pid_start" ∧ ¬ value.isText then
    throw "runtime target identity must be a string"

-- The Pod UID a target carries, none when it is empty.
def podUid (target : RuntimeTarget) : Option TargetValue :=
  (target.lookup "pod_uid").filter (·.truthy)

def hostOnly : Finset String :=
  {"host_id"}

def localProcess : Finset String :=
  {"host_id", "process_namespace", "pid", "pid_start"}

-- The one binding that adds fields: a process on the host the target already names.
def BindsProcess (previous current : RuntimeTarget) : Prop :=
  previous.keys = hostOnly ∧ current.keys = localProcess ∧
    previous.lookup "host_id" = current.lookup "host_id"

instance (previous current : RuntimeTarget) : Decidable (previous.BindsProcess current) :=
  inferInstanceAs (Decidable (_ ∧ _ ∧ _))

-- A field that may differ without breaking the binding: a Pod UID not yet known.
def Rebinds (previous current : RuntimeTarget) (field : String) : Prop :=
  ¬ (field = "pod_uid" ∧ previous.podUid = none) ∧ previous.lookup field ≠ current.lookup field

instance (previous current : RuntimeTarget) : DecidablePred (previous.Rebinds current) :=
  fun _ => inferInstanceAs (Decidable (_ ∧ _))

def immutable : SwarmError :=
  "runtime target identity is immutable after binding"

-- `_check_binding`.
def checkBinding (previous current : RuntimeTarget) : Except SwarmError Unit :=
  if previous.BindsProcess current then
    .ok ()
  else if ∃ field ∈ previous.keys ∪ current.keys, previous.Rebinds current field then
    .error immutable
  else
    .ok ()

-- `_read_before_ack`: the writer read the record before the launch bound its process.
def ReadBeforeAck (written stored : RuntimeTarget) : Prop :=
  written.keys = hostOnly ∧ stored ≠ written ∧ stored.lookup "host_id" = written.lookup "host_id"

instance (written stored : RuntimeTarget) : Decidable (written.ReadBeforeAck stored) :=
  inferInstanceAs (Decidable (_ ∧ _ ∧ _))

variable {previous current : RuntimeTarget} {field : String}

-- What a later target of an execution may differ in: a Pod UID that was not known, or the process of a
-- host that was named alone.
def Extends (previous current : RuntimeTarget) : Prop :=
  previous.BindsProcess current ∨
    ∀ field, previous.lookup field = current.lookup field ∨
      field = "pod_uid" ∧ previous.podUid = none

theorem Extends.refl : Extends previous previous :=
  .inr fun _ => .inl rfl

theorem extends_of_checkBinding (h : checkBinding previous current = .ok ()) :
    previous.Extends current := by
  unfold checkBinding at h
  split at h
  case isTrue hb => exact .inl hb
  case isFalse =>
    split at h
    case isTrue => cases h
    case isFalse hn =>
      refine .inr fun field => ?_
      by_cases hk : field ∈ previous.keys ∪ current.keys
      case pos =>
        by_contra hc
        simp only [not_or] at hc
        exact hn ⟨field, hk, hc.right, hc.left⟩
      case neg =>
        simp only [Finset.mem_union, not_or] at hk
        simp [Finmap.lookup_eq_none_of_notMem_keys hk.left,
          Finmap.lookup_eq_none_of_notMem_keys hk.right]

-- The field is bound to the value; an empty Pod UID binds nothing.
def Binds (target : RuntimeTarget) (field : String) (value : TargetValue) : Prop :=
  target.lookup field = some value ∧ (field = "pod_uid" → value.truthy)

-- What is bound stays as it is.
theorem Binds.extends {value : TargetValue} (hb : previous.Binds field value)
    (h : previous.Extends current) : current.Binds field value := by
  refine ⟨?_, hb.right⟩
  obtain ⟨hb, hu⟩ := hb
  rcases h with ⟨hp, hc, he⟩ | hf
  · have hm : field ∈ previous.keys := Finmap.mem_keys.mpr (Finmap.mem_of_lookup_eq_some hb)
    rw [hp, hostOnly, Finset.mem_singleton] at hm
    subst hm
    rw [← he, hb]
  · rcases hf field with he | ⟨hu', hn⟩
    · rw [← he, hb]
    · subst hu'
      simp [podUid, hb, Option.filter, hu rfl] at hn

theorem podUid_eq_some {uid : TargetValue} :
    current.podUid = some uid ↔ current.Binds "pod_uid" uid := by
  simp [podUid, Binds]

end RuntimeTarget

-- The execution registry: the changes it makes to the document. A row is filed under its own
-- `executionId`, and what the source reads outside the document (the listed agents, the name registry,
-- the clock, a fresh uuid) is an argument.

namespace Execution

open Program Fencing Fencing.Change

abbrev Rows :=
  Dict String AgentRecord

-- `occupants_of(doc).get(seat)`, where rows of one generation are told apart by their key instead of by
-- the order of the dict.
def occupant (executions : Rows) (seat : String) : Option AgentRecord :=
  (executions.newest (·.seat = seat) (·.generation)).bind executions.lookup

-- `records_of`: every row once, the current one where a row is in both sections.
def recordsOf (executions archive : Rows) : Rows :=
  executions ∪ archive

def mismatch : SwarmError :=
  "replacement does not match the current execution"

def foreignName : SwarmError :=
  "canonical agent already belongs to another execution seat"

def usedUid : SwarmError :=
  "Pod UID already belongs to another execution"

def usedIdentity : SwarmError :=
  "execution identity already exists"

def staleIdentity : SwarmError :=
  "stale or changed execution identity"

def unknownIdentity : SwarmError :=
  "unknown execution identity; display labels cannot identify attempts"

-- What the name registry and the seats tell about names.
structure Naming where
  resolve : String → String
  entry   : String → Bool
  slugOf  : String → String
  isSeat  : String → Bool

def validate (names : Naming) (slug : String) (agent : AgentRecord) : Except SwarmError Unit := do
  if agent.runtimeBackend ≠ .local ∧ agent.runtimeBackend ≠ .kubernetes then
    throw "unsupported runtime backend"
  if ¬ (names.isSeat agent.seat ∧ ("@" ++ slug).toList <:+ agent.seat.toList) then
    throw "execution seat does not belong to the swarm"
  agent.runtimeTarget.validate agent.runtimeBackend

def checkUid (agent : AgentRecord) : Change Unit :=
  match agent.runtimeTarget.podUid with
  | none     => pure ()
  | some uid => do
    hydrateArchive
    let executions ← scan Section.executions
    let archive ← scan Section.archive
    let used := (recordsOf executions archive).Exists fun _ row =>
      row.executionId ≠ agent.executionId ∧ row.runtimeTarget.lookup "pod_uid" = some uid
    ensure (¬ used) usedUid

-- The row of a new execution.
def admitted (agent : AgentRecord) (previous : Option AgentRecord) (uuid : String) : AgentRecord :=
  { agent with
    executionId := "exe-" ++ uuid
    generation  := previous.elim 1 (·.generation + 1) }

-- `_start.admit`.
def admitAgent (agent : AgentRecord) (previousExecutionId uuid : String) (epoch : Option Int) :
    Change (AgentRecord × Option AgentRecord) := do
  let executions ← scan Section.executions
  let previous := occupant executions agent.seat
  ensure (previous.elim "" (·.executionId) = previousExecutionId) mismatch
  let archive ← scan Section.archive
  let foreign := (recordsOf executions archive).Exists fun _ row =>
    row.name = agent.name ∧ row.seat ≠ agent.seat
  ensure (¬ foreign) foreignName
  checkUid agent
  let current := admitted agent previous uuid
  let taken ← read .executions current.executionId
  ensure (taken = none) usedIdentity
  write .executions current.executionId current
  match epoch with
  | none       => pure ()
  | some epoch => write .intents current.executionId ⟨current.executionId, current.generation, epoch⟩
  return (current, previous)

-- What `_start` checks before its change, with the agent under its canonical name.
def prepare (names : Naming) (slug : String) (publication : Bool) (agent : AgentRecord) :
    Except SwarmError AgentRecord := do
  let agent := { agent with name := names.resolve agent.name }
  if ¬ (names.entry agent.name ∧ names.slugOf agent.name = slug) then
    throw "execution requires a registered canonical agent name"
  if ¬ (agent.executionId = "" ∧ agent.generation = 0) then
    throw "new execution identity and generation must be allocated by the store"
  validate names slug agent
  if publication then
    throw "current execution publication is in flight; retry after it finishes"
  return agent

-- The nine fields that identify an execution and never change.
def Identical (agent current : AgentRecord) : Prop :=
  agent.executionId = current.executionId ∧ agent.generation = current.generation ∧
    agent.name = current.name ∧ agent.lane = current.lane ∧ agent.task = current.task ∧
    agent.seat = current.seat ∧ agent.startedAt = current.startedAt ∧
    agent.runtimeBackend = current.runtimeBackend ∧ agent.transport = current.transport

instance (agent current : AgentRecord) : Decidable (Identical agent current) :=
  inferInstanceAs (Decidable (_ ∧ _ ∧ _ ∧ _ ∧ _ ∧ _ ∧ _ ∧ _ ∧ _))

-- A finished execution stays finished unless the writer ends it.
def keepFinished (agent current : AgentRecord) : AgentRecord :=
  if current.state = .finished ∧ agent.state ≠ .ended then { agent with state := .finished } else agent

-- A record read before the launch was acknowledged keeps what the launch bound.
def keepBinding (agent current : AgentRecord) : AgentRecord :=
  if agent.runtimeTarget.ReadBeforeAck current.runtimeTarget then
    { agent with
      runtimeTarget   := current.runtimeTarget
      paneId          := current.paneId
      account         := current.account
      model           := current.model
      effort          := current.effort
      profileDecision := current.profileDecision
      launchedAt      := current.launchedAt
      launchTimings   := current.launchTimings
      overlays        := current.overlays }
  else
    agent

-- What an update makes of the writer's record, given the recorded one.
def written (agent current : AgentRecord) : AgentRecord :=
  keepBinding (keepFinished agent current) current

-- `_update.change`.
def update (agent : AgentRecord) : Change (AgentRecord × AgentRecord) := do
  let executions ← scan Section.executions
  match occupant executions agent.seat with
  | none         => refuse staleIdentity
  | some current =>
    ensure (Identical agent current) staleIdentity
    attempt <| RuntimeTarget.checkBinding current.runtimeTarget (written agent current).runtimeTarget
    checkUid (written agent current)
    if written agent current = current then
      pure ()
    else
      write .executions (written agent current).executionId (written agent current)
    return (written agent current, current)

-- The identities of the executions with `p` that occupy their seats.
def occupants (executions : Rows) (p : AgentRecord → Bool) : Finset String :=
  executions.keys.biUnion fun key =>
    ((executions.lookup key).filter fun row => p row && occupant executions row.seat = some row).elim ∅
      fun row => {row.executionId}

def withPane (row : AgentRecord) (paneId : String) : AgentRecord :=
  { row with paneId := paneId }

-- `_set_pane.change` once it has found the row, which a row of the archive has left by then.
def place (executionId paneId : String) (listed : Finset String) (raw : Option AgentRecord) :
    Change (Option (AgentRecord × AgentRecord)) :=
  match raw with
  | none         => refuse unknownIdentity
  | some current => do
    let executions ← scan Section.executions
    write .executions executionId (withPane current paneId)
    return if executionId ∈ occupants executions (fun _ => true) ∧ current.name ∈ listed then
      some (withPane current paneId, current) else none

-- `_set_pane.change`.
def setPane (executionId paneId : String) (listed : Finset String) :
    Change (Option (AgentRecord × AgentRecord)) := do
  let row ← read .executions executionId
  if row.isSome then
    place executionId paneId listed row
  else
    let row ← read .archive executionId
    delete .archive executionId
    place executionId paneId listed row

-- `profile_decision.validation` without the sources that were read for it.
def strip (row : AgentRecord) : AgentRecord :=
  { row with profileDecision := { row.profileDecision with
      validation := row.profileDecision.validation.map (·.erase "source_blobs") } }

-- A superseded execution whose agent is no longer listed.
def Old (executions : Rows) (listed : Finset String) (row : AgentRecord) : Prop :=
  (∃ head ∈ occupant executions row.seat, row.generation < head.generation) ∧ row.name ∉ listed

instance (executions : Rows) (listed : Finset String) : DecidablePred (Old executions listed) :=
  fun row => inferInstanceAs (Decidable ((∃ head, head ∈ occupant executions row.seat ∧ _) ∧ _))

def oldRows (executions : Rows) (listed : Finset String) : Rows :=
  Finmap.build executions.keys fun key => (executions.lookup key).filter (Old executions listed ·)

-- `archive.move`.
def archive (listed : Finset String) : Change ℕ := do
  let executions ← scan Section.executions
  let old := oldRows executions listed
  let referenced ← asked Query.referenced
  if old.keys = ∅ ∧ referenced then
    return 0
  else
    hydrateArchive
    let archive ← scan Section.archive
    deleteAll .executions old.keys
    replace .archive <| (old ∪ archive).mapValues fun _ => strip
    return old.keys.card

def deadlineMs : Int :=
  2 * 60 * 1000

def OrphanState (agent : AgentRecord) (now : Int) : Prop :=
  match agent.state with
  | .starting => now - agent.startedAt ≥ deadlineMs
  | .working  => True
  | _         => False

instance (agent : AgentRecord) (now : Int) : Decidable (OrphanState agent now) := by
  unfold OrphanState
  split <;> infer_instance

def ended (agent : AgentRecord) : AgentRecord :=
  { agent with state := .ended }

-- `end_orphan.end`.
def endOrphan (agent : AgentRecord) (now : Int) (listed : Finset String) : Change Bool := do
  let executions ← scan Section.executions
  if occupant executions agent.seat = some agent ∧ OrphanState agent now ∧ agent.name ∉ listed then
    write .executions agent.executionId (ended agent)
    return true
  else
    return false

-- `end_orphan.undo`.
def undo (agent : AgentRecord) : Change Unit := do
  let row ← read .executions agent.executionId
  if row = some (ended agent) then
    write .executions agent.executionId agent

def endedRows (executions : Rows) (live : Finset String) : Rows :=
  Finmap.build live fun key => ((executions.lookup key).filter (·.state ≠ .finished)).map ended

-- `drop_agent.end`, where `live` is what the caller saw before.
def dropAgent (name : String) (live : Finset String) (expected : Option String) : Change Bool := do
  let executions ← scan Section.executions
  if occupants executions (·.name = name) ≠ live ∨ expected.any (· ∉ live) then
    return false
  else
    writeAll .executions (endedRows executions live)
    return true

end Execution
