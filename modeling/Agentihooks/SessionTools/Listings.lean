import Mathlib.Algebra.Order.Ring.Rat
import Mathlib.Data.List.Sort
import Mathlib.Data.String.Basic
import Agentihooks.Library.Finmap
import Agentihooks.Library.Run
import Agentihooks.Objects.Rows

-- The listings of the session tools, page by page. A digest stands for what it is the digest of.

namespace SessionTools

structure Rejected where
  errorClass : String
  detail     : String
  deriving DecidableEq

namespace Rejected

def invalid (detail : String) : Rejected :=
  ⟨"invalid_request", detail⟩

def forbidden : Rejected :=
  ⟨"forbidden_scope", "the grant does not cover the requested search scope"⟩

def unavailable : Rejected :=
  ⟨"evidence_unavailable", "the cited evidence is not available to this grant"⟩

def staleCitation : Rejected :=
  ⟨"evidence_unavailable", "the cited records are not held as cited; search again for a current citation"⟩

def cursorExpired : Rejected :=
  ⟨"cursor_expired", "the cursor is unknown or expired; start the listing again without a cursor"⟩

def cursorMoved : Rejected :=
  ⟨"cursor_expired", "the listing changed since the cursor was issued; start the listing again without a cursor"⟩

def cursorOtherRequest : Rejected :=
  invalid "the cursor belongs to another request"

end Rejected

structure Grant where
  principal : String
  corpus    : String
  projects  : Finset String
  deriving DecidableEq

structure SessionRow where
  accessDomain : String
  sessionUid   : String
  provider     : String
  state        : String
  deriving DecidableEq

structure EventRow where
  accessDomain     : String
  sessionUid       : String
  sourceGeneration : String
  eventId          : String
  sequence         : ℤ
  projectId        : Option String
  normalizedHash   : String
  deriving DecidableEq

structure Catalog where
  sessions : List SessionRow
  events   : List EventRow
  deriving DecidableEq

-- A session and its provider, or an event and its hash.
abbrev Item := String × String

namespace Catalog

variable (c : Catalog)

-- `VISIBLE`
def visible (domain : String) (projects : Finset String) (sessionUid : Option String) : List Item :=
  let some (row : SessionRow) (project : String → Bool) :=
    c.events.any fun event =>
      event.accessDomain = row.accessDomain ∧ event.sessionUid = row.sessionUid ∧ event.projectId.any project
  let rows := c.sessions.filter fun row =>
    row.accessDomain = domain ∧ row.state = "retained" ∧ sessionUid.all (row.sessionUid = ·) ∧
      ¬ some row (· ∉ projects) ∧ some row (· ∈ projects)
  (rows.insertionSort fun row row' => row.sessionUid ≤ row'.sessionUid).map fun row => (row.sessionUid, row.provider)

-- `catalog.events`
def eventsOf (domain sessionUid sourceGeneration : String) : List EventRow :=
  let rows := c.events.filter fun event =>
    event.accessDomain = domain ∧ event.sessionUid = sessionUid ∧ event.sourceGeneration = sourceGeneration
  rows.insertionSort fun event event' => event.sequence ≤ event'.sequence

end Catalog

structure Citation where
  sessionUid       : String
  sourceGeneration : String
  firstSequence    : ℤ
  lastSequence     : ℤ
  eventIds         : List String
  deriving DecidableEq

-- A request of `session_list` or `session_records` without its cursor.
inductive Asked
  | sessions (schemaVersion accessDomain : String) (projects : Option (List String)) (limit : Option ℤ)
  | records (schemaVersion accessDomain : String) (citation : Citation) (before after limit : Option ℤ)
  deriving DecidableEq

-- A page of a listing holds at least one item.
structure Listing where
  items : List Item
  limit : ℕ
  pos   : 0 < limit

section Listing

def maxList : ℤ := 50

def listDefault : ℤ := 20

def recordsDefault : ℤ := 50

def maxRecords : ℤ := 200

def maxWiden : ℤ := 20

def envelope (schemaVersion accessDomain : String) : Except Rejected Unit :=
  if schemaVersion.toList.takeWhile (· ≠ '.') ≠ ['2'] then .error (.invalid "unsupported schema_version")
  else if accessDomain = "" then .error (.invalid "access_domain must be a non-empty string")
  else .ok ()

def bounded (name : String) (value : Option ℤ) (default low high : ℤ) : Except Rejected {n : ℤ // low ≤ n} :=
  let n := value.getD default
  if h : low ≤ n ∧ n ≤ high then .ok ⟨n, h.left⟩
  else .error (.invalid s!"{name} must be an integer from {low} to {high}")

def allowed (grant : Grant) (accessDomain : String) (projects : Option (List String)) :
    Except Rejected (Finset String) :=
  let projects := projects.getD []
  if "" ∈ projects then .error (.invalid "projects must be a list of non-empty strings")
  else if accessDomain ≠ grant.corpus ∨ ¬ projects.toFinset ⊆ grant.projects then .error .forbidden
  else .ok (if projects = [] then grant.projects else projects.toFinset)

def checkCitation (cited : Citation) : Except Rejected Unit :=
  if ¬ (1 ≤ cited.firstSequence ∧ cited.firstSequence ≤ cited.lastSequence) then
    .error (.invalid "citation sequences must be positive and ordered")
  else if cited.eventIds = [] ∨ "" ∈ cited.eventIds then
    .error (.invalid "citation event_ids must be a non-empty list of strings")
  else if cited.sessionUid = "" ∨ cited.sourceGeneration = "" then
    .error (.invalid "citation session_uid and source_generation must be non-empty strings")
  else .ok ()

-- `_cited`
def citedEvents (c : Catalog) (grant : Grant) (cited : Citation) (before after : ℤ) : Except Rejected (List EventRow) :=
  if c.visible grant.corpus grant.projects (some cited.sessionUid) = [] then .error .unavailable
  else
    let events := c.eventsOf grant.corpus cited.sessionUid cited.sourceGeneration
    let held (eventId : String) := (events.reverse.find? (·.eventId = eventId)).map EventRow.sequence
    match cited.eventIds.mapM held with
    | none           => .error .staleCitation
    | some sequences =>
      if (sequences.min?, sequences.max?) ≠ (some cited.firstSequence, some cited.lastSequence) then
        .error .staleCitation
      else .ok (events.filter fun event =>
        cited.firstSequence - before ≤ event.sequence ∧ event.sequence ≤ cited.lastSequence + after)

-- What a request goes through, and how much of it a page shows.
def listing (c : Catalog) (grant : Grant) : Asked → Except Rejected Listing
  | .sessions schemaVersion accessDomain projects limit => do
    envelope schemaVersion accessDomain
    let projects ← allowed grant accessDomain projects
    let limit ← bounded "limit" limit listDefault 1 maxList
    .ok ⟨c.visible grant.corpus projects none, limit.val.toNat, by have := limit.property; omega⟩
  | .records schemaVersion accessDomain cited before after limit => do
    envelope schemaVersion accessDomain
    if accessDomain ≠ grant.corpus then .error .forbidden
    checkCitation cited
    let before ← bounded "before" before 0 0 maxWiden
    let after ← bounded "after" after 0 0 maxWiden
    let limit ← bounded "limit" limit recordsDefault 1 maxRecords
    let events ← citedEvents c grant cited before after
    .ok ⟨events.map fun event => (event.eventId, event.normalizedHash), limit.val.toNat,
      by have := limit.property; omega⟩

end Listing

structure CursorId where
  grant       : Grant
  asked       : Asked
  position    : ℕ
  fingerprint : List Item
  deriving DecidableEq

structure CursorRow where
  grant       : Grant
  asked       : Asked
  position    : ℕ
  fingerprint : List Item
  expiresAt   : ℚ
  deriving DecidableEq

-- What a request has under `cursor`.
inductive CursorField
  | none
  | id (id : CursorId)
  | text (text : String)
  | other

def cursorSeconds : ℚ := 900

abbrev Cursors := Dict (String × CursorId) CursorRow

namespace Cursors

variable (cursors : Cursors) (grant : Grant) (asked : Asked)

-- `PRUNE`
def prune (domain : String) (now : ℚ) : Cursors :=
  cursors.select fun key row => ¬ (key.1 = domain ∧ row.expiresAt ≤ now)

-- `_issue`
def issue (position : ℕ) (fingerprint : List Item) (now : ℚ) : CursorId × Cursors :=
  let cursorId := ⟨grant, asked, position, fingerprint⟩
  let pruned := cursors.prune grant.corpus now
  (cursorId,
    if (pruned.lookup (grant.corpus, cursorId)).isSome then pruned
    else pruned.insert (grant.corpus, cursorId) ⟨grant, asked, position, fingerprint, now + cursorSeconds⟩)

-- `_position`
def position (cursor : CursorField) (fingerprint : List Item) (now : ℚ) : Except Rejected ℕ :=
  match cursor with
  | .none   => .ok 0
  | .other  => .error (.invalid "cursor must be a string")
  | .text _ => .error .cursorExpired
  | .id id  => match cursors.lookup (grant.corpus, id) with
    | none     => .error .cursorExpired
    | some row =>
      if row.grant ≠ grant ∨ row.expiresAt ≤ now then .error .cursorExpired
      else if row.asked ≠ asked then .error .cursorOtherRequest
      else if row.fingerprint ≠ fingerprint then .error .cursorMoved
      else .ok row.position

end Cursors

-- `_page`
def page (items : List Item) (position limit : ℕ) : List Item × Option ℕ :=
  ((items.drop position).take limit, if position + limit < items.length then some (position + limit) else none)

structure State where
  catalog : Catalog
  cursors : Cursors

def init : State :=
  ⟨⟨[], []⟩, ∅⟩

-- The items of the page, of which the tool makes summaries or records.
structure Answer where
  total      : ℕ
  items      : List Item
  nextCursor : Option CursorId
  deriving DecidableEq

-- `_paged`
def paged (cursors : Cursors) (grant : Grant) (asked : Asked) (cursor : CursorField) (found : Listing) (now : ℚ) :
    Except Rejected (Answer × Cursors) := do
  let position ← cursors.position grant asked cursor found.items now
  match page found.items position found.limit with
  | (items, none)           => .ok (⟨found.items.length, items, none⟩, cursors)
  | (items, some following) =>
    let (cursorId, cursors) := cursors.issue grant asked following found.items now
    .ok (⟨found.items.length, items, some cursorId⟩, cursors)

-- A request at a time of the clock. What the tool makes of the page's items may still fail, after the cursor is issued.
structure Request where
  grant   : Grant
  asked   : Asked
  cursor  : CursorField
  now     : ℚ
  failure : Option Rejected

-- `session_list` and `session_records`
def ask (s : State) (request : Request) : State × Except Rejected Answer :=
  match listing s.catalog request.grant request.asked with
  | .error error => (s, .error error)
  | .ok found    => match paged s.cursors request.grant request.asked request.cursor found request.now with
    | .error error          => (s, .error error)
    | .ok (answer, cursors) => ({ s with cursors := cursors }, match request.failure with
      | none       => .ok answer
      | some error => .error error)

inductive Event
  | request (request : Request)
  | change (catalog : Catalog)

def step (s : State) : Event → State
  | .request request => (ask s request).1
  | .change catalog  => { s with catalog := catalog }

end SessionTools
