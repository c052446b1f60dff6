import Agentihooks.Library.Finmap
import Agentihooks.Objects.Rows
import Agentihooks.SearchIndex.Chunker

-- The tables of one access domain: the sessions with their events, the projections that search reads, and what was
-- derived from the sessions. Every transaction on them is one function.

namespace SearchIndex

section Rows

inductive SessionState
  | retained
  | restricted
  | deleted
  deriving DecidableEq

structure Session where
  provider  : String
  retention : String
  state     : SessionState
  revision  : ℕ
  deriving DecidableEq

structure SessionSource where
  session    : String
  generation : String
  provider   : String
  origin     : String
  retention  : String

structure Rejection where
  sequence : ℕ
  eventId  : String
  reason   : String
  deriving DecidableEq

inductive BuildState
  | built
  | validated
  deriving DecidableEq

-- What a build has read, source by source.
abbrev Readings :=
  List (String × List Event)

-- `readings` is what its last build has read, which no column of the table holds.
structure Generation where
  policy   : Policy
  state    : BuildState
  through  : Dict String ℕ
  readings : Readings

structure EmbeddingModel where
  model     : String
  dimension : ℕ
  deriving DecidableEq

structure Index where
  model  : EmbeddingModel
  paused : Bool
  deriving DecidableEq

structure Work where
  contentHash : String
  queuedAt    : ℕ
  attempts    : ℕ
  lastError   : Option String
  deriving DecidableEq

structure Vector where
  contentHash : String
  model       : EmbeddingModel
  vector      : List ℤ
  deriving DecidableEq

structure Tombstone where
  session    : String
  state      : SessionState
  revision   : ℕ
  recordedAt : ℕ
  deriving DecidableEq

inductive Consumer
  | search
  | packs
  | lessons
  deriving DecidableEq

structure Pack where
  body     : String
  sessions : List String
  deriving DecidableEq

inductive LessonState
  | inferred
  | revalidated
  | redacted
  deriving DecidableEq

structure Lesson where
  text    : Option String
  support : List String
  state   : LessonState
  deriving DecidableEq

structure Grant where
  principal : String
  corpus    : String
  projects  : Finset String
  deriving DecidableEq

def Grant.allows (grant : Grant) (project : Option String) : Bool :=
  project.all fun id => id ∈ grant.projects

structure Target where
  session : String
  version : String
  index   : String

-- A row of an index: the name of the index and the chunk.
abbrev Slot :=
  String × ChunkId

def Target.Owns (target : Target) (slot : Slot) : Prop :=
  slot.1 = target.index ∧ slot.2.session = target.session ∧ slot.2.version = target.version

instance {target : Target} {slot : Slot} : Decidable (target.Owns slot) :=
  inferInstanceAs (Decidable (_ ∧ _))

end Rows

-- `seen` is the longest reading of a source so far, which no table holds. A tombstone's sequence is its place in the
-- list, from 1 on, and a work or vector row's session and version are those of its chunk id.
structure Tables where
  sessions     : Dict String Session
  sources      : Dict String (List (String × String))
  events       : String → String → List Event
  quarantined  : String → String → List Rejection
  eventIds     : Finset String
  seen         : String → String → List Event
  generations  : Dict (String × String) Generation
  chunks       : Dict ChunkId Chunk
  cutovers     : Dict String (String × ℕ)
  indexes      : Dict String Index
  indexCutover : Option (String × ℕ)
  work         : Dict Slot Work
  vectors      : Dict Slot Vector
  tombstones   : List Tombstone
  cursors      : Consumer → ℕ
  applied      : Dict (Consumer × ℕ) String
  packs        : Dict String Pack
  lessons      : Dict String Lesson

def empty : Tables where
  sessions     := ∅
  sources      := ∅
  events       := fun _ _ => []
  quarantined  := fun _ _ => []
  eventIds     := ∅
  seen         := fun _ _ => []
  generations  := ∅
  chunks       := ∅
  cutovers     := ∅
  indexes      := ∅
  indexCutover := none
  work         := ∅
  vectors      := ∅
  tombstones   := []
  cursors      := fun _ => 0
  applied      := ∅
  packs        := ∅
  lessons      := ∅

-- The value of a two-argument function at one place replaced.
def put {V : Type} (f : String → String → V) (session generation : String) (value : V) : String → String → V :=
  fun s g => if s = session ∧ g = generation then value else f s g

namespace Tables

variable (t : Tables)

section Catalog

def Retained (uid : String) : Prop :=
  (t.sessions.lookup uid).map Session.state = some .retained

instance {uid : String} : Decidable (t.Retained uid) :=
  inferInstanceAs (Decidable (_ = _))

def sourcesOf (uid : String) : List (String × String) :=
  (t.sources.lookup uid).getD []

def retentions : List String :=
  ["retain-until-deleted", "retain-until-expiry"]

-- `register`
def register (source : SessionSource) : Option Tables :=
  if source.retention ∉ retentions then none
  else
    let found := t.sessions.lookup source.session
    if found.any fun session => (session.provider, session.retention) ≠ (source.provider, source.retention) then none
    else
      let sessions :=
        if found = none then t.sessions.insert source.session ⟨source.provider, source.retention, .retained, 1⟩ else t.sessions
      match (t.sourcesOf source.session).lookup source.generation with
      | some origin => if origin = source.origin then some { t with sessions := sessions } else none
      | none        =>
        let sources := (t.sourcesOf source.session).orderedInsert (fun a b => a.1 ≤ b.1) (source.generation, source.origin)
        some { t with sessions := sessions, sources := t.sources.insert source.session sources }

-- `_insert_event`
def insertEvent (uid generation : String) (event : Event) : Option Tables :=
  match (t.events uid generation).find? fun held => held.sequence = event.sequence with
  | some held =>
    if (held.eventId, held.normalizedHash, held.projectId) = (event.eventId, event.normalizedHash, event.projectId) then some t
    else none
  | none      =>
    if ∃ item ∈ t.quarantined uid generation, item.sequence = event.sequence then none
    else if event.eventId ∈ t.eventIds then none
    else
      let events := (t.events uid generation).orderedInsert (fun a b => a.sequence ≤ b.sequence) event
      some { t with events := put t.events uid generation events, eventIds := insert event.eventId t.eventIds }

-- `_insert_quarantine`
def insertQuarantine (uid generation : String) (item : Rejection) : Option Tables :=
  if ∃ held ∈ t.events uid generation, held.sequence = item.sequence then none
  else
    match (t.quarantined uid generation).find? fun held => held.sequence = item.sequence with
    | some held => if held = item then some t else none
    | none      => some { t with quarantined := put t.quarantined uid generation (item :: t.quarantined uid generation) }

def insertEvents (t : Tables) (uid generation : String) : List Event → Option Tables
  | []              => some t
  | event :: events => (t.insertEvent uid generation event).bind fun t => insertEvents t uid generation events

def insertQuarantines (t : Tables) (uid generation : String) : List Rejection → Option Tables
  | []            => some t
  | item :: items => (t.insertQuarantine uid generation item).bind fun t => insertQuarantines t uid generation items

-- `commit` of a batch that is not stored yet; its request has positive sequences.
def ingest (uid generation : String) (events : List Event) (rejected : List Rejection) : Option Tables :=
  if ∃ event ∈ events, event.sequence = 0 then none
  else (t.insertEvents uid generation events).bind fun t => t.insertQuarantines uid generation rejected

-- `set_state`
def setState (uid : String) (state : SessionState) (revision now : ℕ) : Option Tables :=
  match t.sessions.lookup uid with
  | none         => none
  | some session =>
    if session.revision ≠ revision then none
    else some { t with
      sessions   := t.sessions.insert uid { session with state := state, revision := revision + 1 }
      tombstones := t.tombstones ++ [⟨uid, state, revision + 1, now⟩] }

-- `tombstones`, with their sequences
def tombstonesAfter (after : ℕ) : List (ℕ × Tombstone) :=
  (t.tombstones.zipIdx 1).filterMap fun row => if after < row.2 then some (row.2, row.1) else none

-- The events of the source as a reader finds them.
def read (uid generation : String) : Tables :=
  { t with seen := put t.seen uid generation (t.events uid generation) }

def Readable (grant : Grant) (uid : String) : Prop :=
  t.Retained uid ∧ ∀ source ∈ t.sourcesOf uid, ∀ event ∈ t.events uid source.1, grant.allows event.projectId = true

instance {grant : Grant} {uid : String} : Decidable (t.Readable grant uid) :=
  inferInstanceAs (Decidable (_ ∧ _))

end Catalog

section ChunkIndex

inductive Refusal
  | policyConflict
  | staleBuild
  | chunkConflict
  deriving DecidableEq

def generation (uid version : String) : Option Generation :=
  t.generations.lookup (uid, version)

-- `_stored`
def stored (uid version : String) : Dict ChunkId Chunk :=
  t.chunks.restrict fun id => id.session = uid ∧ id.version = version

-- A source that the generation has been built from and the build has not read as far.
def Behind (found through : Dict String ℕ) : Prop :=
  found.Exists fun name sequence => ((through.lookup name).all fun read => read < sequence) = true

instance {found through : Dict String ℕ} : Decidable (Behind found through) :=
  inferInstanceAs (Decidable (Finmap.Exists _ _))

-- A chunk that is stored with other content.
def Conflicts (stored fresh : Dict ChunkId Chunk) : Prop :=
  fresh.Exists fun id chunk => ((stored.lookup id).any fun held => held ≠ chunk) = true

instance {stored fresh : Dict ChunkId Chunk} : Decidable (Conflicts stored fresh) :=
  inferInstanceAs (Decidable (Finmap.Exists _ _))

-- The transaction of `build` with `_write`.
def write (uid : String) (policy : Policy) (fresh : Dict ChunkId Chunk) (through : Dict String ℕ) (readings : Readings) :
    Except Refusal Tables :=
  let found := t.generation uid policy.version
  let stored := t.stored uid policy.version
  if found.any fun g => g.policy ≠ policy then .error .policyConflict
  else if found.any fun g => Behind g.through through then .error .staleBuild
  else if Conflicts stored fresh then .error .chunkConflict
  else
    let inserted := fresh.restrict fun id => id ∉ stored
    let superseded := stored.restrict fun id => id ∉ fresh
    let state := if inserted.keys = ∅ ∧ superseded.keys = ∅ then (found.map Generation.state).getD .built else .built
    .ok { t with
      chunks      := inserted ∪ t.chunks.restrict fun id => id ∉ superseded
      generations := t.generations.insert (uid, policy.version) ⟨policy, state, through, readings⟩ }

-- `SET_GENERATION_STATE` to validated
def mark (uid version : String) (through : Dict String ℕ) : Option Tables :=
  match t.generation uid version with
  | none   => none
  | some g =>
    if g.through = through then
      some { t with generations := t.generations.insert (uid, version) { g with state := .validated } }
    else none

-- `ChunkIndex.activate`
def activate (uid version : String) (revision : ℕ) : Option Tables :=
  if (t.generation uid version).map Generation.state ≠ some .validated then none
  else if ((t.cutovers.lookup uid).map Prod.snd).getD 0 ≠ revision then none
  else some { t with cutovers := t.cutovers.insert uid (version, revision + 1) }

end ChunkIndex

section IndexWorker

-- `IndexWorker.register`
def registerIndex (index : String) (model : EmbeddingModel) : Option Tables :=
  if model.model = "" ∨ model.dimension < 1 then none
  else
    match t.indexes.lookup index with
    | none       => some { t with indexes := t.indexes.insert index ⟨model, false⟩ }
    | some found => if found.model = model then some t else none

-- `set_paused`
def setPaused (index : String) (paused : Bool) : Option Tables :=
  (t.indexes.lookup index).map fun found => { t with indexes := t.indexes.insert index { found with paused := paused } }

-- `QUEUE` of chunks with their content hashes.
def queue (index : String) (now : ℕ) (hashes : Dict ChunkId String) (work : Dict Slot Work) : Dict Slot Work :=
  Finmap.build (hashes.keys.image (Prod.mk index) ∪ work.keys) fun slot =>
    if slot.1 = index then ((hashes.lookup slot.2).map fun hash => ⟨hash, now, 0, none⟩).or (work.lookup slot)
    else work.lookup slot

-- `enqueue`
def enqueue (grant : Grant) (target : Target) (now : ℕ) : Option Tables :=
  if ¬ t.Readable grant target.session then none
  else if (t.generation target.session target.version).isNone then none
  else if t.indexes.lookup target.index = none then none
  else
    let current := t.stored target.session target.version
    let vectors := t.vectors.restrict fun slot => target.Owns slot → slot.2 ∈ current
    let queued := t.work.restrict fun slot => target.Owns slot → slot.2 ∈ current
    let fresh := current.select fun id chunk =>
      (vectors.lookup (target.index, id)).map Vector.contentHash ≠ some chunk.contentHash ∧
      (queued.lookup (target.index, id)).map Work.contentHash ≠ some chunk.contentHash
    some { t with
      vectors := vectors
      work    := queue target.index now (fresh.mapValues fun _ chunk => chunk.contentHash) queued }

-- `MATCHING_CHUNK`
def Matching (id : ChunkId) (work : Work) : Prop :=
  (t.chunks.lookup id).map Chunk.contentHash = some work.contentHash

instance {id : ChunkId} {work : Work} : Decidable (t.Matching id work) :=
  inferInstanceAs (Decidable (_ = _))

def purge (index : String) : Tables :=
  { t with work := t.work.select fun slot work => slot.1 = index → t.Matching slot.2 work }

def queuedAt (index : String) (id : ChunkId) : ℕ :=
  ((t.work.lookup (index, id)).map Work.queuedAt).getD 0

-- The rows of `PENDING` in an order that it may give them in.
def Pending (index : String) (rows : List ChunkId) : Prop :=
  rows.Nodup ∧ rows.toFinset = ((t.work.keys.filter (·.1 = index)).image Prod.snd).filter (· ∈ t.chunks) ∧
  rows.Pairwise fun a b => t.queuedAt index a ≤ t.queuedAt index b

instance {index : String} {rows : List ChunkId} : Decidable (t.Pending index rows) :=
  inferInstanceAs (Decidable (_ ∧ _))

-- `TAKE` and `SAVE_VECTOR`, which leaves the model of a vector that is there.
def commitOne (index : String) (model : EmbeddingModel) (chunk : Chunk) (vector : List ℤ) : Tables :=
  let slot := (index, chunk.id)
  if (t.work.lookup slot).map Work.contentHash = some chunk.contentHash then
    let kept := ((t.vectors.lookup slot).map Vector.model).getD model
    { t with
      work    := t.work.erase slot
      vectors := t.vectors.insert slot ⟨chunk.contentHash, kept, vector⟩ }
  else t

-- `_commit`
def commit (t : Tables) (index : String) (model : EmbeddingModel) : List (Chunk × List ℤ) → Tables
  | []          => t
  | row :: rows => commit (t.commitOne index model row.1 row.2) index model rows

-- `_defer`
def defer (index : String) (batch : List Chunk) (error : String) : Tables :=
  { t with work := t.work.mapValues fun slot work =>
      if slot.1 = index ∧ slot.2 ∈ batch.map Chunk.id then { work with attempts := work.attempts + 1, lastError := some error }
      else work }

-- A vector of another dimension than its index has.
def Mismatched (index : String) (slot : Slot) (vector : Vector) : Prop :=
  slot.1 = index ∧ ((t.indexes.lookup index).any fun found => found.model.dimension ≠ vector.model.dimension) = true

instance {index : String} {slot : Slot} {vector : Vector} : Decidable (t.Mismatched index slot vector) :=
  inferInstanceAs (Decidable (_ ∧ _))

-- `VectorDimensions.drop`
def drop (index : String) (now : ℕ) : Tables :=
  let rows := t.vectors.select fun slot vector => t.Mismatched index slot vector
  let requeued := Finmap.build (rows.keys.image Prod.snd) fun id =>
    if t.Retained id.session then (rows.lookup (index, id)).map Vector.contentHash else none
  { t with
    vectors := t.vectors.restrict fun slot => slot ∉ rows
    work    := queue index now requeued t.work }

-- The chunk has a vector of its content.
def Current (index : String) (id : ChunkId) (chunk : Chunk) : Prop :=
  (t.vectors.lookup (index, id)).map Vector.contentHash = some chunk.contentHash

instance {index : String} {id : ChunkId} {chunk : Chunk} : Decidable (t.Current index id chunk) :=
  inferInstanceAs (Decidable (_ = _))

-- `UNCOVERED`
def Uncovered (index : String) : Prop :=
  t.chunks.Exists fun id chunk =>
    t.Retained id.session ∧
    ((t.cutovers.lookup id.session).map Prod.fst = some id.version ∨
      ∃ slot ∈ t.vectors.keys, Target.Owns ⟨id.session, id.version, index⟩ slot) ∧
    ¬ t.Current index id chunk

instance {index : String} : Decidable (t.Uncovered index) :=
  inferInstanceAs (Decidable (Finmap.Exists _ _))

-- `IndexWorker.activate`
def activateIndex (index : String) (revision : ℕ) : Option Tables :=
  if t.indexes.lookup index = none then none
  else if (∃ slot ∈ t.work.keys, slot.1 = index) ∨ t.Uncovered index then none
  else if (t.indexCutover.map Prod.snd).getD 0 ≠ revision then none
  else some { t with indexCutover := some (index, revision + 1) }

end IndexWorker

section Propagator

-- What a consumer does about a session that is not retained.
def consume (uid : String) : Consumer → Tables
  | .search  =>
    { t with
      chunks      := t.chunks.restrict fun id => id.session ≠ uid
      generations := t.generations.restrict fun key => key.1 ≠ uid
      cutovers    := t.cutovers.erase uid
      vectors     := t.vectors.restrict fun slot => slot.2.session ≠ uid
      work        := t.work.restrict fun slot => slot.2.session ≠ uid }
  | .packs   => { t with packs := t.packs.select fun _ pack => uid ∉ pack.sessions }
  | .lessons =>
    { t with lessons := t.lessons.mapValues fun _ lesson =>
        if uid ∈ lesson.support then
          let permitted := lesson.support.filter fun other => t.Retained other
          if permitted = [] then ⟨none, [], .redacted⟩ else ⟨lesson.text, permitted, .revalidated⟩
        else lesson }

-- `_step`
def apply (consumer : Consumer) (sequence : ℕ) (uid : String) : Option Tables :=
  if t.cursors consumer + 1 ≠ sequence then none
  else
    let consumed := if t.Retained uid then t else t.consume uid consumer
    some { consumed with
      applied := consumed.applied.insert (consumer, sequence) uid
      cursors := Function.update consumed.cursors consumer sequence }

-- `sorted(set(uids))`
def sortedSet (uids : List String) : List String :=
  uids.dedup.insertionSort (· ≤ ·)

def putPack (id body : String) (sessions : List String) : Tables :=
  { t with packs := t.packs.insert id ⟨body, sortedSet sessions⟩ }

def putLesson (id text : String) (support : List String) : Tables :=
  { t with lessons := t.lessons.insert id ⟨some text, sortedSet support, .inferred⟩ }

-- `exposures`
def exposures (uid : String) : List (String × ℕ) :=
  [("search_chunk", (t.chunks.keys.filter (·.session = uid)).card),
    ("chunk_generation", (t.generations.keys.filter (·.1 = uid)).card),
    ("chunk_cutover", (t.cutovers.keys.filter (· = uid)).card),
    ("chunk_vector", (t.vectors.keys.filter (·.2.session = uid)).card),
    ("embedding_work", (t.work.keys.filter (·.2.session = uid)).card),
    ("context_pack", (t.packs.select fun _ pack => uid ∈ pack.sessions).keys.card),
    ("derived_lesson", (t.lessons.select fun _ lesson => uid ∈ lesson.support).keys.card)].filter fun row => row.2 ≠ 0

end Propagator

end Tables

end SearchIndex
