import Agentihooks.Ingest.Catalog
import Agentihooks.Library.Run

-- The ingest request: its scope is checked before any write, and it is committed as a whole or not at all.

namespace Ingest

open JsonValue

structure Grant where
  corpus   : String
  projects : Finset String

inductive ErrorClass
  | invalidRequest
  | forbiddenScope
  | revisionConflict
  | dependencyUnavailable
  deriving DecidableEq

inductive Retry
  | never
  | sameBatch
  deriving DecidableEq

structure Rejected where
  errorClass : ErrorClass
  detail     : String
  retry      : Retry

def schemaVersion : String :=
  "2.0"

def recordKinds : List String :=
  ["user_text", "assistant_text", "system_text", "tool_call", "tool_result", "token_usage", "turn_complete", "meta"]

def textFields : List String :=
  ["batch_id", "access_domain", "session_uid", "source_generation"]

def requestFields : List String :=
  ["schema_version", "events"] ++ textFields

def eventFields : List String :=
  ["sequence", "byte_start", "byte_end", "project_id", "record"]

def sqliteMaxInt : ℤ :=
  2 ^ 63 - 1

def text? : JsonValue → Option String
  | .scalar (.str s) => some s
  | _                => none

def int? : JsonValue → Option ℤ
  | .scalar (.int n) => some n
  | _                => none

def isNull : JsonValue → Bool
  | .scalar .null => true
  | _             => false

def textAt (v : JsonValue) (key : String) : Option String :=
  (v.get? key).bind text?

def intAt (v : JsonValue) (key : String) : Option ℤ :=
  (v.get? key).bind int?

def invalid (detail : String) : Rejected :=
  ⟨.invalidRequest, detail, .never⟩

def refuseIf (p : Prop) [Decidable p] (error : Rejected) : Except Rejected Unit :=
  if p then .error error else .ok ()

def isInt (value : Option ℤ) (minimum : ℤ) : Prop :=
  ∃ n ∈ value, minimum ≤ n ∧ n ≤ sqliteMaxInt

instance (value : Option ℤ) (minimum : ℤ) : Decidable (isInt value minimum) :=
  match value with
  | none   => .isFalse (by simp [isInt])
  | some n => decidable_of_iff (minimum ≤ n ∧ n ≤ sqliteMaxInt) (by simp [isInt])

def fieldsOf : JsonValue → Option (List String)
  | .object fields => some (fields.map Prod.fst)
  | _              => none

def majorVersion (version : String) : List Char :=
  version.toList.takeWhile (· ≠ '.')

def eventsOf (request : JsonValue) : List JsonValue :=
  match request.get? "events" with
  | some (.array events) => events
  | _                    => []

def checkEnvelope (request : JsonValue) : Except Rejected Unit := do
  let some fields := fieldsOf request | throw (invalid "request must be an object")
  refuseIf ((textAt request "schema_version").map majorVersion ≠ some (majorVersion schemaVersion)) <|
    invalid "unsupported schema_version"
  refuseIf (∃ field ∈ fields, field ∉ requestFields) (invalid "request carries unknown fields")
  for name in textFields do
    refuseIf ((textAt request name).all (· = "")) (invalid s!"{name} must be a non-empty string")
  refuseIf (eventsOf request = []) (invalid "events must be a non-empty list")

def checkEvent (index : ℕ) (event : JsonValue) : Except Rejected Unit := do
  let some fields := fieldsOf event | throw (invalid s!"event {index} must be an object")
  refuseIf (∃ field ∈ fields, field ∉ eventFields) (invalid s!"event {index} carries unknown fields")
  refuseIf (¬isInt (intAt event "sequence") 1) (invalid s!"event {index} sequence must be a positive integer")
  let (first, last) := (intAt event "byte_start", intAt event "byte_end")
  refuseIf (¬(isInt first 0 ∧ isInt last 0 ∧ first.getD 0 ≤ last.getD 0)) <|
    invalid s!"event {index} byte range is invalid"
  refuseIf ((event.get? "project_id").any fun v => ¬isNull v ∧ (text? v).isNone) <|
    invalid s!"event {index} project_id must be a string or null"

def checkEventsFrom : ℕ → List JsonValue → Except Rejected Unit
  | _,     []              => .ok ()
  | index, event :: events => do
    checkEvent index event
    checkEventsFrom (index + 1) events

def checkEvents (events : List JsonValue) : Except Rejected Unit := do
  checkEventsFrom 0 events
  refuseIf (¬(events.map (intAt · "sequence")).Nodup) (invalid "event sequences repeat inside the batch")

-- The indices of the events that the grant does not cover.
def outside (grant : Grant) (events : List JsonValue) : List ℕ :=
  (events.zipIdx.filter fun e => (textAt e.1 "project_id").any (· ∉ grant.projects)).map Prod.snd

def authorize (grant : Grant) (request : JsonValue) : Except Rejected Unit := do
  refuseIf (textAt request "access_domain" ≠ some grant.corpus) <|
    ⟨.forbiddenScope, "the grant does not cover the requested corpus", .never⟩
  let outside := outside grant (eventsOf request)
  let printed := ", ".intercalate (outside.map toString)
  refuseIf (outside ≠ []) <|
    ⟨.forbiddenScope, s!"events [{printed}] are outside the grant; the batch was not committed", .never⟩

def recordError (record : Option JsonValue) : Option String :=
  match record with
  | some (.object fields) =>
    if (textAt (.object fields) "kind").any (· ∈ recordKinds) then none
    else some "record kind is not a supported normalized kind"
  | _ => some "record must be an object"

section Prepare

variable (request event : JsonValue)

def field (key : String) : String :=
  (textAt request key).getD ""

def number (key : String) : ℤ :=
  (intAt event key).getD 0

def eventIdentity : Content :=
  content <| .array [.scalar (.str (field request "session_uid")), .scalar (.str (field request "source_generation")),
    .scalar (.int (number event "sequence")), .scalar (.int (number event "byte_start")),
    .scalar (.int (number event "byte_end"))]

def stored : Option StoredEvent :=
  match event.get? "record", recordError (event.get? "record") with
  | some record, none => some ⟨eventIdentity request event, number event "sequence", number event "byte_start",
    number event "byte_end", textAt event "project_id", record, content record⟩
  | _, _ => none

def rejected : Option Rejection :=
  (recordError (event.get? "record")).map fun error =>
    ⟨number event "sequence", eventIdentity request event, error⟩

def prepare : BatchCommit where
  accessDomain     := field request "access_domain"
  batchId          := field request "batch_id"
  payloadDigest    := content request
  sessionUid       := field request "session_uid"
  sourceGeneration := field request "source_generation"
  events           := (eventsOf request).filterMap (stored request)
  rejected         := (eventsOf request).filterMap (rejected request)
  schemaVersion    := field request "schema_version"

end Prepare

def check (grant : Grant) (request : JsonValue) : Except Rejected Unit := do
  checkEnvelope request
  checkEvents (eventsOf request)
  authorize grant request

-- `raised`: an exception that the request handler does not answer.
inductive Reply
  | refused (operation : Content) (error : Rejected)
  | committed (answer : Answer)
  | raised

def catalogFailed : Rejected :=
  ⟨.dependencyUnavailable, "the catalog failed before acknowledging; retrying the same batch is safe", .sameBatch⟩

-- `fails`: a statement of the transaction fails, as one of a busy or full database.
structure Request where
  grant   : Grant
  request : JsonValue
  fails   : Bool

def ingest (c : Catalog) (r : Request) : Catalog × Reply :=
  match check r.grant r.request with
  | .error error => (c, .refused (content r.request) error)
  | .ok ()       =>
    if r.fails then (c, .refused (content r.request) catalogFailed)
    else match c.commit (prepare r.request) with
      | .error (.conflict detail) => (c, .refused (content r.request) ⟨.revisionConflict, detail, .never⟩)
      | .error .integrity         => (c, .raised)
      | .ok (answer, c)           => (c, .committed answer)

def step (c : Catalog) (r : Request) : Catalog :=
  (ingest c r).1

end Ingest
