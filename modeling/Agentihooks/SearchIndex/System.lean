import Agentihooks.Library.Interleaved
import Agentihooks.SearchIndex.Tables

-- The calls on the tables of one access domain. A call is a program of reads and transactions, and between any two of
-- them the other calls go on.

namespace SearchIndex

open Interleaved (Steps)

structure Approval where
  actor       : String
  role        : String
  migrationId : String
  index       : String

-- `write` and `mark` also say what was read for them, and a check of a session what the read has found and has left.
inductive Command
  | session       (uid : String)
  | sources       (uid : String)
  | events        (uid generation : String)
  | register      (source : SessionSource)
  | ingest        (uid generation : String) (events : List Event) (rejected : List Rejection)
  | setState      (uid : String) (state : SessionState) (revision now : ℕ)
  | tombstones    (after : ℕ)
  | generation    (uid version : String)
  | stored        (uid version : String)
  | write         (uid : String) (policy : Policy) (fresh : Dict ChunkId Chunk) (through : Dict String ℕ) (readings : Readings)
  | mark          (uid version : String) (through : Dict String ℕ) (checked : Dict ChunkId Chunk)
  | activate      (uid version : String) (revision : ℕ)
  | index         (name : String)
  | registerIndex (name : String) (model : EmbeddingModel)
  | setPaused     (name : String) (paused : Bool)
  | enqueue       (grant : Grant) (target : Target) (now : ℕ)
  | purge         (index : String)
  | pending       (index : String) (limit : ℕ)
  | embed         (texts : List String)
  | commit        (index : String) (model : EmbeddingModel) (rows : List (Chunk × List ℤ))
  | defer         (index : String) (batch : List Chunk) (error : String)
  | drop          (index : String) (now : ℕ)
  | activateIndex (index : String) (revision : ℕ)
  | cursor        (consumer : Consumer)
  | apply         (consumer : Consumer) (sequence : ℕ) (uid : String)
  | putPack       (id body : String) (sessions : List String)
  | pack          (id : String)
  | putLesson     (id text : String) (support : List String)
  | lesson        (id : String)
  | retained      (uid : String) (found left : List String)

-- A transaction that raises says no more than that, except that a build is told why it is refused.
abbrev Reply : Command → Type
  | .session _     => Option Session
  | .sources _     => List String
  | .events ..     => List Event
  | .tombstones _  => List (ℕ × Tombstone)
  | .generation .. => Option Generation
  | .stored ..     => Dict ChunkId Chunk
  | .write ..      => Except Tables.Refusal Unit
  | .index _       => Option Index
  | .pending ..    => List Chunk
  | .embed _       => Option (List (List ℤ))
  | .cursor _      => ℕ
  | .pack _        => Option Pack
  | .lesson _      => Option Lesson
  | _              => Bool

-- The environment orders the rows of a listing that leaves their order open, and answers for the provider.
structure Choice where
  rows    : List ChunkId
  vectors : Option (List (List ℤ))

-- A transaction that is refused is rolled back.
def orKeep (t : Tables) : Option Tables → Option (Tables × Bool)
  | some t' => some (t', true)
  | none    => some (t, false)

def exec : (command : Command) → Choice → Tables → Option (Tables × Reply command)
  | .session uid,                               _,      t => some (t, t.sessions.lookup uid)
  | .sources uid,                               _,      t => some (t, (t.sourcesOf uid).map Prod.fst)
  | .events uid generation,                     _,      t => some (t.read uid generation, t.events uid generation)
  | .register source,                           _,      t => orKeep t (t.register source)
  | .ingest uid generation events rejected,     _,      t => orKeep t (t.ingest uid generation events rejected)
  | .setState uid state revision now,           _,      t => orKeep t (t.setState uid state revision now)
  | .tombstones after,                          _,      t => some (t, t.tombstonesAfter after)
  | .generation uid version,                    _,      t => some (t, t.generation uid version)
  | .stored uid version,                        _,      t => some (t, t.stored uid version)
  | .write uid policy fresh through readings,   _,      t =>
    match t.write uid policy fresh through readings with
    | .ok t'         => some (t', .ok ())
    | .error refusal => some (t, .error refusal)
  | .mark uid version through _,                _,      t => orKeep t (t.mark uid version through)
  | .activate uid version revision,             _,      t => orKeep t (t.activate uid version revision)
  | .index name,                                _,      t => some (t, t.indexes.lookup name)
  | .registerIndex name model,                  _,      t => orKeep t (t.registerIndex name model)
  | .setPaused name paused,                     _,      t => orKeep t (t.setPaused name paused)
  | .enqueue grant target now,                  _,      t => orKeep t (t.enqueue grant target now)
  | .purge index,                               _,      t => some (t.purge index, true)
  | .pending index limit,                       choice, t =>
    if t.Pending index choice.rows then some (t, (choice.rows.take limit).filterMap t.chunks.lookup) else none
  | .embed _,                                   choice, t => some (t, choice.vectors)
  | .commit index model rows,                   _,      t => some (t.commit index model rows, true)
  | .defer index batch error,                   _,      t => some (t.defer index batch error, true)
  | .drop index now,                            _,      t => some (t.drop index now, true)
  | .activateIndex index revision,              _,      t => orKeep t (t.activateIndex index revision)
  | .cursor consumer,                           _,      t => some (t, t.cursors consumer)
  | .apply consumer sequence uid,               _,      t => orKeep t (t.apply consumer sequence uid)
  | .putPack id body sessions,                  _,      t => some (t.putPack id body sessions, true)
  | .pack id,                                   _,      t => some (t, t.packs.lookup id)
  | .putLesson id text support,                 _,      t => some (t.putLesson id text support, true)
  | .lesson id,                                 _,      t => some (t, t.lessons.lookup id)
  | .retained uid _ _,                          _,      t => some (t, decide (t.Retained uid))

section Programs

variable (domain : String)

-- One transaction, which raises where it is refused.
def perform (command : Command) (succeeded : Reply command → Bool) : Steps Reply Unit :=
  .ask command fun reply => Steps.ensure (succeeded reply = true)

def source (grant : Grant) (uid generation : String) : Steps Reply (String × List Event) := do
  let events ← Steps.perform (Command.events uid generation)
  Steps.ensure (∀ event ∈ events, grant.allows event.projectId = true)
  return (generation, events)

-- `_readable`
def readable (grant : Grant) (uid : String) : Steps Reply Readings := do
  Steps.ensure (grant.corpus = domain)
  let found ← Steps.perform (Command.session uid)
  Steps.ensure (found.map Session.state = some .retained)
  let names ← Steps.perform (Command.sources uid)
  Steps.each (source grant uid) names

def chunksOf (policy : Policy) (uid : String) (parent : Option String) (readings : Readings) : Dict ChunkId Chunk :=
  (readings.flatMap fun reading => chunkEvents policy uid parent reading.1 reading.2).foldl
    (fun fresh chunk => fresh.insert chunk.id chunk) ∅

def throughOf (readings : Readings) : Dict String ℕ :=
  readings.foldl (fun through reading => through.insert reading.1 ((reading.2.map Event.sequence).foldr max 0)) ∅

-- `ChunkIndex.build`; without a source no policy is looked at.
def build (grant : Grant) (uid : String) (parent : Option String) (policy : Policy) : Steps Reply Unit := do
  let readings ← readable domain grant uid
  Steps.ensure (readings = [] ∨ policy.Valid)
  let written ← Steps.perform
    (Command.write uid policy (chunksOf policy uid parent readings) (throughOf readings) readings)
  Steps.ensure (written.isOk = true)

-- The catalog holds the range of every item of evidence.
def Supported (checked : Dict ChunkId Chunk) (readings : Readings) : Prop :=
  ¬ checked.Exists fun id chunk =>
    ∃ item ∈ chunk.evidence, ¬ ∃ reading ∈ readings, reading.1 = id.generation ∧ item ∈ reading.2.map Event.evidence

instance {checked : Dict ChunkId Chunk} {readings : Readings} : Decidable (Supported checked readings) :=
  inferInstanceAs (Decidable (¬ Finmap.Exists _ _))

-- `ChunkIndex.validate`
def validate (grant : Grant) (uid version : String) : Steps Reply Unit := do
  let found ← Steps.perform (Command.generation uid version)
  let _ ← readable domain grant uid
  let again ← Steps.perform (Command.generation uid version)
  Steps.ensure (again.isSome = true)
  let checked ← Steps.perform (Command.stored uid version)
  let evidence ← readable domain grant uid
  Steps.ensure (Supported checked evidence)
  match found with
  | none   => .fail
  | some g => perform (.mark uid version g.through checked) id

structure Limits where
  batchSize  : ℕ
  batchChars : ℕ
  maxBatches : ℕ

def within (bound chars : ℕ) : List Chunk → List Chunk
  | []              => []
  | chunk :: chunks =>
    if bound < chars + chunk.preview.length then []
    else chunk :: within bound (chars + chunk.preview.length) chunks

-- The rows that `_batch` keeps: the first one, and those after it while their texts fit.
def bounded (bound : ℕ) : List Chunk → List Chunk
  | []              => []
  | chunk :: chunks => chunk :: within bound chunk.preview.length chunks

-- The loop of `drain`, with what it has embedded and what it has put off.
def rounds (limits : Limits) (model : EmbeddingModel) (index : String) : ℕ → Steps Reply Unit
  | 0     => pure ()
  | n + 1 => do
    let _ ← Steps.perform (Command.purge index)
    let rows ← Steps.perform (Command.pending index limits.batchSize)
    let batch := bounded limits.batchChars rows
    if batch = [] then
      return ()
    match ← Steps.perform (Command.embed (batch.map Chunk.preview)) with
    | none         => perform (.defer index batch "TransientEmbeddingError") id
    | some vectors => do
      Steps.ensure (vectors.length = batch.length ∧ ∀ vector ∈ vectors, vector.length = model.dimension)
      let _ ← Steps.perform (Command.commit index model (batch.zip vectors))
      rounds limits model index n

-- `drain`
def drain (limits : Limits) (embedder : EmbeddingModel) (index : String) : Steps Reply Unit := do
  match ← Steps.perform (Command.index index) with
  | none       => .fail
  | some found => do
    Steps.ensure (embedder = found.model)
    rounds limits found.model index (if found.paused then 0 else limits.maxBatches)

def dimension : String :=
  "0002-vector-dimension"

-- `VectorDimensions.drop`
def drop (approval : Approval) (now : ℕ) : Steps Reply Unit := do
  Steps.ensure (approval.role = "operator" ∧ approval.migrationId = dimension ∧ approval.actor ≠ "" ∧ approval.index ≠ "")
  perform (.drop approval.index now) id

-- A tombstone that another replay has applied meanwhile is passed over.
def applied (consumer : Consumer) (row : ℕ × Tombstone) : Steps Reply Bool :=
  Steps.perform (Command.apply consumer row.1 row.2.session)

def replay (consumer : Consumer) : Steps Reply Unit := do
  let through ← Steps.perform (Command.cursor consumer)
  let rows ← Steps.perform (Command.tombstones through)
  let _ ← Steps.each (applied consumer) rows
  return ()

-- `catch_up`
def catchUp : Steps Reply Unit := do
  let _ ← Steps.each replay [.search, .packs, .lessons]
  return ()

-- The first session that is not retained ends the checks.
def allRetained : List String → Steps Reply Bool
  | []           => pure true
  | uid :: uids  => do
    let found ← Steps.perform (Command.retained uid [] uids)
    if found then allRetained uids else return false

def permitted (found : List String) : List String → Steps Reply (List String)
  | []          => pure found
  | uid :: uids => do
    let ok ← Steps.perform (Command.retained uid found uids)
    permitted (if ok then found ++ [uid] else found) uids

inductive Answer
  | done
  | pack   (found : Pack)
  | lesson (found : Lesson)
  deriving DecidableEq

-- `Propagator.pack`
def pack (grant : Grant) (id : String) : Steps Reply Answer := do
  match ← Steps.perform (Command.pack id) with
  | none       => .fail
  | some found => do
    Steps.ensure (domain = grant.corpus)
    let ok ← allRetained found.sessions
    Steps.ensure (ok = true)
    return .pack found

-- `Propagator.lesson`
def lesson (grant : Grant) (id : String) : Steps Reply Answer := do
  match ← Steps.perform (Command.lesson id) with
  | none       => .fail
  | some found => do
    Steps.ensure (domain = grant.corpus)
    let support ← permitted [] found.support
    if support = [] then
      return .lesson ⟨none, [], .redacted⟩
    return .lesson ⟨found.text, support, found.state⟩

end Programs

inductive Call
  | register      (source : SessionSource)
  | ingest        (uid generation : String) (events : List Event) (rejected : List Rejection)
  | setState      (uid : String) (state : SessionState) (revision now : ℕ)
  | build         (grant : Grant) (uid : String) (parent : Option String) (policy : Policy)
  | validate      (grant : Grant) (uid version : String)
  | activate      (uid version : String) (revision : ℕ)
  | registerIndex (index : String) (model : EmbeddingModel)
  | setPaused     (index : String) (paused : Bool)
  | enqueue       (grant : Grant) (target : Target) (now : ℕ)
  | drain         (limits : Limits) (embedder : EmbeddingModel) (index : String)
  | drop          (approval : Approval) (now : ℕ)
  | activateIndex (index : String) (revision : ℕ)
  | replay        (consumer : Consumer)
  | catchUp
  | putPack       (id body : String) (sessions : List String)
  | putLesson     (id text : String) (support : List String)
  | pack          (grant : Grant) (id : String)
  | lesson        (grant : Grant) (id : String)

def operation (domain : String) : Call → Steps Reply Unit
  | .register source                       => perform (.register source) id
  | .ingest uid generation events rejected => perform (.ingest uid generation events rejected) id
  | .setState uid state revision now       => perform (.setState uid state revision now) id
  | .build grant uid parent policy         => build domain grant uid parent policy
  | .validate grant uid version            => validate domain grant uid version
  | .activate uid version revision         => perform (.activate uid version revision) id
  | .registerIndex index model             => perform (.registerIndex index model) id
  | .setPaused index paused                => perform (.setPaused index paused) id
  | .enqueue grant target now              => do
    Steps.ensure (grant.corpus = domain)
    perform (.enqueue grant target now) id
  | .drain limits embedder index           => drain limits embedder index
  | .drop approval now                     => drop approval now
  | .activateIndex index revision          => perform (.activateIndex index revision) id
  | .replay consumer                       => replay consumer
  | .catchUp                               => catchUp
  | .putPack id body sessions              => perform (.putPack id body sessions) fun _ => true
  | .putLesson id text support             => perform (.putLesson id text support) fun _ => true
  | _                                      => pure ()

def program (domain : String) : Call → Steps Reply Answer
  | .pack grant id   => pack domain grant id
  | .lesson grant id => lesson domain grant id
  | call             => (fun _ => Answer.done) <$> operation domain call

abbrev World :=
  Interleaved.World Tables Call Reply Answer

abbrev Move :=
  Interleaved.Event Call Choice

def step (domain : String) : World → Move → World :=
  Interleaved.step (program domain) exec

end SearchIndex
